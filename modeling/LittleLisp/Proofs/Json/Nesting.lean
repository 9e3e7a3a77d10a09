import LittleLisp.Proofs.Json.Reading

/-!
Reading with a limit on the nesting. The limit is exceeded just by the texts that open an array or
an object inside as many others as there may be, with nothing wrong before it; all other texts are
read as without a limit.
-/

namespace LittleLisp.Json

open Text

/-- What stands in an array before a value of it. -/
inductive ElementsFront : List Char → Prop
  | blanks {bs : List Char} (hb : ∀ c ∈ bs, isBlank c = true) : ElementsFront bs
  | next {v : Json} {cs front : List Char} (h : Spells (.element v) cs)
    (hfront : ElementsFront front) : ElementsFront (cs ++ ',' :: front)

inductive MembersFront : List Char → Prop
  | name {name : Text} {before ns after bs : List Char} (hbefore : ∀ c ∈ before, isBlank c = true)
    (hname : StringText name ns) (hafter : ∀ c ∈ after, isBlank c = true)
    (hb : ∀ c ∈ bs, isBlank c = true) : MembersFront (before ++ (ns ++ (after ++ ':' :: bs)))
  | next {name : Text} {v : Json} {cs front : List Char} (h : Spells (.member name v) cs)
    (hfront : MembersFront front) : MembersFront (cs ++ ',' :: front)

/-- The value at the front of a text opens an array or an object inside `k` others. What follows it
does not matter. -/
inductive Nests : Nat → List Char → Prop
  | array (rest : List Char) : Nests 0 ('[' :: rest)
  | object (rest : List Char) : Nests 0 ('{' :: rest)
  | inArray {k : Nat} {front rest : List Char} (hfront : ElementsFront front) (h : Nests k rest) :
    Nests (k + 1) ('[' :: (front ++ rest))
  | inObject {k : Nat} {front rest : List Char} (hfront : MembersFront front) (h : Nests k rest) :
    Nests (k + 1) ('{' :: (front ++ rest))

def Overnests (depth : Nat) (text : List Char) : Prop :=
  ∃ bs rest, text = bs ++ rest ∧ (∀ c ∈ bs, isBlank c = true) ∧ Nests depth rest

variable {depth depth' fuel k : ℕ} {cs rest front bs : List Char}

theorem Nests.exists_cons (h : Nests k cs) : ∃ c tail, cs = c :: tail ∧ (c = '[' ∨ c = '{') := by
  cases h with
  | array => exact ⟨_, _, rfl, .inl rfl⟩
  | object => exact ⟨_, _, rfl, .inr rfl⟩
  | inArray => exact ⟨_, _, rfl, .inl rfl⟩
  | inObject => exact ⟨_, _, rfl, .inr rfl⟩

theorem Nests.skipBlanks_append (h : Nests k cs) (hb : ∀ c ∈ bs, isBlank c = true) :
    skipBlanks (bs ++ cs) = cs := by
  obtain ⟨c, tail, rfl, hc⟩ := h.exists_cons
  have hblank : isBlank c = false := by
    obtain rfl | rfl := hc <;> decide
  rw [Json.skipBlanks_append hb, skipBlanks_cons hblank]

theorem nests_replicate {n : ℕ} (h : k < n) : Nests k (List.replicate n '[') := by
  induction n generalizing k with
  | zero => omega
  | succ n ih =>
    cases k with
    | zero => exact .array _
    | succ k => exact @Nests.inArray k [] _ (.blanks no_blanks) (ih (Nat.lt_of_succ_lt_succ h))

theorem Nests.lt_length (h : Nests k cs) : k < cs.length := by
  induction h with
  | array | object => simp
  | inArray _ _ ih | inObject _ _ ih =>
    simp only [List.length_cons, List.length_append]
    omega

theorem ElementsFront.append_blanks (h : ElementsFront front) (hb : ∀ c ∈ bs, isBlank c = true) :
    ElementsFront (bs ++ front) := by
  cases h with
  | blanks hfront =>
    exact .blanks fun c hc ↦ (List.mem_append.1 hc).elim (hb c) (hfront c)
  | next h hfront =>
    rw [← List.append_assoc]
    exact .next (h.blanks (by simp) hb) hfront

theorem MembersFront.append_blanks (h : MembersFront front) (hb : ∀ c ∈ bs, isBlank c = true) :
    MembersFront (bs ++ front) := by
  cases h with
  | name hbefore hname hafter hend =>
    rw [← List.append_assoc]
    exact .name (fun c hc ↦ (List.mem_append.1 hc).elim (hb c) (hbefore c)) hname hafter hend
  | next h hfront =>
    rw [← List.append_assoc]
    exact .next (h.blanks (by simp) hb) hfront

section Faults

theorem eq_or_of_bind_eq_error {ε α β : Type} {x : Except ε α} {f : α → Except ε β} {e : ε}
    (h : (x >>= f) = .error e) : x = .error e ∨ ∃ a, x = .ok a ∧ f a = .error e := by
  cases x with
  | error e' =>
    cases h
    exact .inl rfl
  | ok a => exact .inr ⟨a, rfl, h⟩

theorem prepend_ne_tooDeep (n : ℕ) {r : Except Fault (List ℕ × List Char)}
    (h : r ≠ .error .tooDeep) : stringUnits.prepend n r ≠ .error .tooDeep := by
  cases r with
  | error f =>
    intro heq
    cases heq
    exact h rfl
  | ok => nofun

theorem stringUnits_ne_tooDeep (opened : ℕ) (cs : List Char) :
    stringUnits opened cs ≠ .error .tooDeep := by
  fun_induction stringUnits opened cs with
  | case5 _ _ _ _ _ n _ _ ih => exact prepend_ne_tooDeep n ih
  | case8 _ _ _ _ _ _ ih => exact prepend_ne_tooDeep _ ih
  | case11 _ _ _ _ _ _ _ _ ih => exact prepend_ne_tooDeep _ ih
  | _ => simp

theorem stringRest_ne_tooDeep (opened : ℕ) (cs : List Char) :
    stringRest opened cs ≠ .error .tooDeep := by
  intro h
  obtain h | ⟨_, _, h⟩ := eq_or_of_bind_eq_error h
  · exact stringUnits_ne_tooDeep opened cs h
  · cases h

theorem number_ne_tooDeep (cs : List Char) : number cs ≠ .error .tooDeep := by
  obtain ⟨negative, tail, hcs, htail⟩ := exists_signChars cs
  rw [number_of_parts negative hcs htail rfl rfl rfl]
  split_ifs
  · simp
  · split <;> simp
  · simp

end Faults

/-- `y` is `x` unless `x` went too deep. -/
def Within {α : Type} (x y : Except Fault α) : Prop := x = .error .tooDeep ∨ x = y

namespace Within

variable {α β : Type} {x y : Except Fault α} {f g : α → Except Fault β}

theorem refl (x : Except Fault α) : Within x x := .inr rfl

theorem bind (h : Within x y) (hnext : ∀ a, Within (f a) (g a)) :
    Within (x >>= f) (y >>= g) := by
  obtain rfl | rfl := h
  · exact .inl rfl
  · cases x with
    | error e => exact .inr rfl
    | ok a => exact hnext a

end Within

/-- More depth changes nothing unless there was too little of it. -/
structure Widens (fuel : ℕ) : Prop where
  value {depth depth' : ℕ} (hle : depth ≤ depth') (cs : List Char) :
    Within (value depth fuel cs) (value depth' fuel cs)
  elements {depth depth' : ℕ} (hle : depth ≤ depth') (cs : List Char) :
    Within (elements depth fuel cs) (elements depth' fuel cs)
  members {depth depth' : ℕ} (hle : depth ≤ depth') (cs : List Char) :
    Within (members depth fuel cs) (members depth' fuel cs)

section Widening

theorem Widens.value_step (hfuel : Widens fuel) (hle : depth ≤ depth') (cs : List Char) :
    Within (Json.value depth (fuel + 1) cs) (Json.value depth' (fuel + 1) cs) := by
  unfold Json.value
  split
  case h_2 =>
    cases depth with
    | zero => exact .inl rfl
    | succ depth =>
      obtain ⟨depth', rfl⟩ := Nat.exists_eq_add_one_of_ne_zero (Nat.ne_zero_of_lt hle)
      dsimp only
      split
      · exact .refl _
      · exact (hfuel.members (Nat.le_of_succ_le_succ hle) _).bind fun _ ↦ .refl _
  case h_3 =>
    cases depth with
    | zero => exact .inl rfl
    | succ depth =>
      obtain ⟨depth', rfl⟩ := Nat.exists_eq_add_one_of_ne_zero (Nat.ne_zero_of_lt hle)
      dsimp only
      split
      · exact .refl _
      · exact (hfuel.elements (Nat.le_of_succ_le_succ hle) _).bind fun _ ↦ .refl _
  all_goals exact .refl _

theorem Widens.elements_step (hfuel : Widens fuel) (hle : depth ≤ depth') (cs : List Char) :
    Within (Json.elements depth (fuel + 1) cs) (Json.elements depth' (fuel + 1) cs) := by
  unfold Json.elements
  refine (hfuel.value hle cs).bind fun _ ↦ ?_
  dsimp only
  split
  · exact .refl _
  · exact (hfuel.elements hle _).bind fun _ ↦ .refl _
  · exact .refl _

theorem Widens.members_step (hfuel : Widens fuel) (hle : depth ≤ depth') (cs : List Char) :
    Within (Json.members depth (fuel + 1) cs) (Json.members depth' (fuel + 1) cs) := by
  unfold Json.members
  split
  case h_2 => exact .refl _
  case h_1 =>
    refine (Within.refl _).bind fun _ ↦ ?_
    dsimp only
    split
    case h_2 => exact .refl _
    case h_1 =>
      refine (hfuel.value hle _).bind fun _ ↦ ?_
      split
      · exact .refl _
      · exact (hfuel.members hle _).bind fun _ ↦ .refl _
      · exact .refl _

theorem widens (fuel : ℕ) : Widens fuel := by
  induction fuel with
  | zero => exact ⟨fun _ _ ↦ .refl _, fun _ _ ↦ .refl _, fun _ _ ↦ .refl _⟩
  | succ fuel ih => exact ⟨ih.value_step, ih.elements_step, ih.members_step⟩

end Widening

section Exceeding

/-- A reader that goes too deep has come to a value which opens too much. -/
structure Exceeds (fuel : ℕ) : Prop where
  value {depth : ℕ} {cs : List Char} (h : value depth fuel cs = .error .tooDeep) : Nests depth cs
  elements {depth : ℕ} {cs : List Char} (h : elements depth fuel cs = .error .tooDeep) :
    ∃ front rest, cs = front ++ rest ∧ ElementsFront front ∧ Nests depth rest
  members {depth : ℕ} {cs : List Char} (h : members depth fuel cs = .error .tooDeep) :
    ∃ front rest, cs = front ++ rest ∧ MembersFront front ∧ Nests depth rest

theorem Exceeds.value_step (hfuel : Exceeds fuel)
    (h : Json.value depth (fuel + 1) cs = .error .tooDeep) : Nests depth cs := by
  unfold Json.value at h
  split at h
  case h_1 =>
    obtain h | ⟨_, _, h⟩ := eq_or_of_bind_eq_error h
    · exact absurd h (stringRest_ne_tooDeep _ _)
    · cases h
  case h_2 tail =>
    cases depth with
    | zero => exact .object tail
    | succ depth =>
      obtain ⟨bs, tail, hb, rfl, hskip⟩ := exists_blanks tail
      simp only [hskip] at h
      split at h
      case h_1 => cases h
      case h_2 =>
        obtain h | ⟨_, _, h⟩ := eq_or_of_bind_eq_error h
        · obtain ⟨front, rest, rfl, hfront, hrest⟩ := hfuel.members h
          rw [← List.append_assoc]
          exact .inObject (hfront.append_blanks hb) hrest
        · cases h
  case h_3 tail =>
    cases depth with
    | zero => exact .array tail
    | succ depth =>
      obtain ⟨bs, tail, hb, rfl, hskip⟩ := exists_blanks tail
      simp only [hskip] at h
      split at h
      case h_1 => cases h
      case h_2 =>
        obtain h | ⟨_, _, h⟩ := eq_or_of_bind_eq_error h
        · obtain ⟨front, rest, rfl, hfront, hrest⟩ := hfuel.elements h
          rw [← List.append_assoc]
          exact .inArray (hfront.append_blanks hb) hrest
        · cases h
  case h_10 => exact absurd h (number_ne_tooDeep _)
  all_goals cases h

theorem Exceeds.elements_step (hfuel : Exceeds fuel)
    (h : Json.elements depth (fuel + 1) cs = .error .tooDeep) :
    ∃ front rest, cs = front ++ rest ∧ ElementsFront front ∧ Nests depth rest := by
  unfold Json.elements at h
  obtain hv | ⟨⟨v, rest₁⟩, hv, hnext⟩ := eq_or_of_bind_eq_error h
  · exact ⟨[], cs, rfl, .blanks no_blanks, hfuel.value hv⟩
  obtain ⟨used, rfl, hspell⟩ := (sound fuel).value hv
  obtain ⟨bs, rest₁, hb, rfl, hskip⟩ := exists_blanks rest₁
  simp only [hskip] at hnext
  split at hnext
  case h_1 => cases hnext
  case h_2 rest₂ =>
    obtain hvs | ⟨_, _, hret⟩ := eq_or_of_bind_eq_error hnext
    · obtain ⟨bs', rest₂, hb', rfl, hskip'⟩ := exists_blanks rest₂
      rw [hskip'] at hvs
      obtain ⟨front, rest, rfl, hfront, hrest⟩ := hfuel.elements hvs
      have helement : Spells (.element v) (used ++ bs) := .element no_blanks hspell hb
      exact ⟨_, rest, by simp, .next helement (hfront.append_blanks hb'), hrest⟩
    · cases hret
  case h_3 => cases hnext

theorem Exceeds.members_step (hfuel : Exceeds fuel)
    (h : Json.members depth (fuel + 1) cs = .error .tooDeep) :
    ∃ front rest, cs = front ++ rest ∧ MembersFront front ∧ Nests depth rest := by
  unfold Json.members at h
  split at h
  case h_2 => cases h
  case h_1 tail =>
    obtain hname | ⟨⟨name, rest₁⟩, hname, hcolon⟩ := eq_or_of_bind_eq_error h
    · exact absurd hname (stringRest_ne_tooDeep _ _)
    obtain ⟨used, hused, hstring⟩ := stringText_of_stringRest hname
    obtain ⟨bs₁, rest₁, hb₁, rfl, hskip₁⟩ := exists_blanks rest₁
    simp only [hskip₁] at hcolon
    split at hcolon
    case h_2 => cases hcolon
    case h_1 rest₂ =>
      obtain ⟨bs₂, rest₂, hb₂, rfl, hskip₂⟩ := exists_blanks rest₂
      rw [hskip₂] at hcolon
      rw [hused]
      obtain hv | ⟨⟨v, rest₃⟩, hv, hnext⟩ := eq_or_of_bind_eq_error hcolon
      · exact ⟨_, rest₂, by simp, .name no_blanks hstring hb₁ hb₂, hfuel.value hv⟩
      obtain ⟨used', rfl, hspell⟩ := (sound fuel).value hv
      obtain ⟨bs₃, rest₃, hb₃, rfl, hskip₃⟩ := exists_blanks rest₃
      have hmember := Spells.member no_blanks hstring hb₁ (.element hb₂ hspell hb₃)
      simp only [hskip₃] at hnext
      split at hnext
      case h_1 => cases hnext
      case h_2 rest₄ =>
        obtain hms | ⟨_, _, hret⟩ := eq_or_of_bind_eq_error hnext
        · obtain ⟨bs₄, rest₄, hb₄, rfl, hskip₄⟩ := exists_blanks rest₄
          rw [hskip₄] at hms
          obtain ⟨front, rest, rfl, hfront, hrest⟩ := hfuel.members hms
          exact ⟨_, rest, by simp, .next hmember (hfront.append_blanks hb₄), hrest⟩
        · cases hret
      case h_3 => cases hnext

theorem exceeds (fuel : ℕ) : Exceeds fuel := by
  induction fuel with
  | zero =>
    constructor <;> intro _ _ h
    · cases h
    · cases h
    · cases h
  | succ fuel ih => exact ⟨ih.value_step, ih.elements_step, ih.members_step⟩

end Exceeding

section Refusing

theorem elements_error {f : Fault} (h : value depth k cs = .error f) :
    elements depth (k + 1) cs = .error f := by
  simp only [elements, h, Bind.bind, Except.bind]

theorem members_error {name : Text} {f : Fault} {rest₁ rest₂ : List Char}
    (hname : ∀ opened, stringRest opened cs = .ok (name, rest₁))
    (hcolon : skipBlanks rest₁ = ':' :: rest₂)
    (hv : value depth k (skipBlanks rest₂) = .error f) :
    members depth (k + 1) ('"' :: cs) = .error f := by
  simp only [members, hname, Bind.bind, Except.bind, hcolon, hv]

variable (hrest : Nests depth rest)
  (hv : ∀ {fuel}, 2 * rest.length ≤ fuel → value depth fuel rest = .error .tooDeep)

include hrest hv

-- An element in front is read as with enough depth, or it goes too deep itself.
theorem ElementsFront.elements_tooDeep (hfront : ElementsFront front)
    (hfuel : 2 * (front ++ rest).length < fuel) :
    ∃ c tail, skipBlanks (front ++ rest) = c :: tail ∧ c ≠ ']' ∧
      elements depth fuel (c :: tail) = .error .tooDeep := by
  induction hfront generalizing fuel with
  | @blanks bs hb =>
    obtain ⟨k, rfl⟩ := Nat.exists_eq_add_one_of_ne_zero (Nat.ne_zero_of_lt hfuel)
    rw [List.length_append] at hfuel
    obtain ⟨c, tail, rfl, hc⟩ := hrest.exists_cons
    refine ⟨c, tail, ?_, ?_, elements_error (hv (by omega))⟩
    · exact hrest.skipBlanks_append hb
    · obtain rfl | rfl := hc <;> decide
  | @next v cs front h _ ih =>
    obtain ⟨k, rfl⟩ := Nat.exists_eq_add_one_of_ne_zero (Nat.ne_zero_of_lt hfuel)
    rw [List.append_assoc, List.cons_append] at hfuel ⊢
    rw [List.length_append, List.length_cons] at hfuel
    obtain ⟨c, tail, rest', hskip, hc, hread, hcomma⟩ :=
      h.read (max depth v.depth) k (',' :: (front ++ rest)) (Nat.le_max_right _ _) (by omega)
        (closes_cons (by simp) _)
    refine ⟨c, tail, hskip, hc, ?_⟩
    obtain hdeep | hsame := (widens k).value (Nat.le_max_left depth v.depth) (c :: tail)
    · exact elements_error hdeep
    · obtain ⟨c', tail', hskip', -, hnext⟩ := @ih k (by omega)
      rw [elements_next (hsame.trans hread) hcomma, hskip', hnext]
      rfl

theorem MembersFront.members_tooDeep (hfront : MembersFront front)
    (hfuel : 2 * (front ++ rest).length < fuel) :
    ∃ tail, skipBlanks (front ++ rest) = '"' :: tail ∧
      members depth fuel ('"' :: tail) = .error .tooDeep := by
  induction hfront generalizing fuel with
  | @name name before ns after bs hbefore hname hafter hb =>
    obtain ⟨k, rfl⟩ := Nat.exists_eq_add_one_of_ne_zero (Nat.ne_zero_of_lt hfuel)
    simp only [List.append_assoc, List.cons_append, List.length_append, List.length_cons] at hfuel ⊢
    obtain ⟨tail, htail, hs⟩ := stringRest_append hname (after ++ ':' :: (bs ++ rest))
    have hcolon : skipBlanks (after ++ ':' :: (bs ++ rest)) = ':' :: (bs ++ rest) := by
      rw [skipBlanks_append hafter, skipBlanks_cons (by decide)]
    refine ⟨tail, ?_, members_error hs hcolon ?_⟩
    · rw [skipBlanks_append hbefore, htail, skipBlanks_cons (by decide)]
    · rw [hrest.skipBlanks_append hb]
      exact hv (by omega)
  | @next name v cs front h _ ih =>
    obtain ⟨k, rfl⟩ := Nat.exists_eq_add_one_of_ne_zero (Nat.ne_zero_of_lt hfuel)
    rw [List.append_assoc, List.cons_append] at hfuel ⊢
    rw [List.length_append, List.length_cons] at hfuel
    obtain ⟨tail, rest₁, rest₂, rest₃, hskip, hname, hcolon, hread, hcomma⟩ :=
      h.read (max depth v.depth) k (',' :: (front ++ rest)) (Nat.le_max_right _ _) (by omega)
        (closes_cons (by simp) _)
    refine ⟨tail, hskip, ?_⟩
    obtain hdeep | hsame := (widens k).value (Nat.le_max_left depth v.depth) (skipBlanks rest₂)
    · exact members_error hname hcolon hdeep
    · obtain ⟨tail', hskip', hnext⟩ := @ih k (by omega)
      rw [members_next hname hcolon (hsame.trans hread) hcomma, hskip', hnext]
      rfl

omit hrest hv

theorem Nests.value_tooDeep (h : Nests depth cs) (hfuel : 2 * cs.length ≤ fuel) :
    value depth fuel cs = .error .tooDeep := by
  induction h generalizing fuel with
  | array | object =>
    obtain ⟨k, rfl, -⟩ := exists_fuel hfuel
    rfl
  | inArray hfront h ih =>
    obtain ⟨k, rfl, hk⟩ := exists_fuel hfuel
    obtain ⟨c, tail, hskip, hc, hdeep⟩ := hfront.elements_tooDeep h ih hk
    rw [value_array hskip hc, hdeep]
    rfl
  | inObject hfront h ih =>
    obtain ⟨k, rfl, hk⟩ := exists_fuel hfuel
    obtain ⟨tail, hskip, hdeep⟩ := hfront.members_tooDeep h ih hk
    rw [value_object hskip, hdeep]
    rfl

end Refusing

variable {text : List Char}

theorem Overnests.lt_length (h : Overnests depth text) : depth < text.length := by
  obtain ⟨bs, rest, rfl, -, hrest⟩ := h
  have hlt := hrest.lt_length
  rw [List.length_append]
  omega

theorem Overnests.head?_ne_mark (h : Overnests depth text) :
    text.head? ≠ some '\ufeff' := by
  obtain ⟨bs, rest, rfl, hb, hrest⟩ := h
  cases bs with
  | nil =>
    obtain ⟨c, tail, rfl, hc⟩ := hrest.exists_cons
    obtain rfl | rfl := hc <;> simp
  | cons b bs =>
    intro hmark
    obtain rfl := Option.some.inj hmark
    exact absurd (hb _ List.mem_cons_self) (by decide)

theorem parseWithin_eq_tooDeep_iff (depth : ℕ) (text : List Char) :
    parseWithin depth text = .error .tooDeep ↔ Overnests depth text := by
  constructor
  · intro h
    unfold parseWithin at h
    split at h
    · cases h
    · obtain ⟨bs, text, hb, rfl, hskip⟩ := exists_blanks text
      obtain hv | ⟨_, _, hend⟩ := eq_or_of_bind_eq_error h
      · rw [hskip] at hv
        exact ⟨bs, text, rfl, hb, (exceeds _).value hv⟩
      · dsimp only at hend
        split at hend <;> cases hend
  · intro h
    unfold parseWithin
    rw [if_neg h.head?_ne_mark]
    obtain ⟨bs, rest, rfl, hb, hrest⟩ := h
    rw [hrest.skipBlanks_append hb, hrest.value_tooDeep (by rw [List.length_append]; omega)]
    rfl

theorem Spells.not_overnests {v : Json} (h : Spells (.element v) text) (hdepth : v.depth ≤ depth) :
    ¬ Overnests depth text := by
  rw [← parseWithin_eq_tooDeep_iff, h.parseWithin_eq_ok hdepth]
  simp

theorem parseWithin_within (hle : depth ≤ depth') (text : List Char) :
    Within (parseWithin depth text) (parseWithin depth' text) := by
  unfold parseWithin
  split
  · exact .refl _
  · exact ((widens _).value hle _).bind fun _ ↦ .refl _

theorem parseWithin_eq_parse (h : ¬ Overnests depth text) :
    parseWithin depth text = parse text := by
  obtain hle | hle := Nat.le_total depth text.length
  · obtain hdeep | hsame := parseWithin_within hle text
    · exact absurd ((parseWithin_eq_tooDeep_iff depth text).1 hdeep) h
    · exact hsame
  · obtain hdeep | hsame := parseWithin_within hle text
    · have hlt := ((parseWithin_eq_tooDeep_iff text.length text).1 hdeep).lt_length
      exact absurd hlt (Nat.lt_irrefl _)
    · exact hsame.symm

end LittleLisp.Json
