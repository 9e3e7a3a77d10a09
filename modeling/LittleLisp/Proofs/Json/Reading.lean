import LittleLisp.Proofs.Json.Grammar

/-!
The reader and the grammar agree: a text is read as a value exactly if it spells the value. What the
reader takes is spelled as the grammar says, by induction on its fuel; and what is spelled so is
taken whatever follows, if that does not go on with a number, by induction on the grammar.
-/

namespace LittleLisp.Json

open Text Binary64

section Blanks

variable {bs rest : List Char}

theorem exists_blanks (cs : List Char) : ∃ bs rest, (∀ c ∈ bs, isBlank c = true) ∧
    cs = bs ++ rest ∧ skipBlanks (bs ++ rest) = rest := by
  have hcs : cs.takeWhile isBlank ++ skipBlanks cs = cs := List.takeWhile_append_dropWhile
  refine ⟨cs.takeWhile isBlank, skipBlanks cs, fun _ ↦ List.mem_takeWhile_imp, hcs.symm, ?_⟩
  rw [hcs]

theorem no_blanks : ∀ c ∈ ([] : List Char), isBlank c = true := by
  simp

theorem skipBlanks_append (hb : ∀ c ∈ bs, isBlank c = true) (rest : List Char) :
    skipBlanks (bs ++ rest) = skipBlanks rest :=
  List.dropWhile_append_of_pos hb

theorem skipBlanks_cons {c : Char} (hc : isBlank c = false) (cs : List Char) :
    skipBlanks (c :: cs) = c :: cs :=
  List.dropWhile_cons_of_neg (by simp [hc])

theorem Ends.blanks (hb : ∀ c ∈ bs, isBlank c = true) (hr : Ends rest) : Ends (bs ++ rest) := by
  cases bs with
  | nil => exact hr
  | cons c bs =>
    have hc : c = ' ' ∨ c = '\t' ∨ c = '\n' ∨ c = '\r' := by
      simpa [isBlank, or_assoc] using hb c List.mem_cons_self
    obtain rfl | rfl | rfl | rfl := hc <;> simp [Ends]

/-- What follows an element: the end, a comma or a closing mark. -/
def Closes (rest : List Char) : Prop := ∀ c ∈ rest.head?, c = ',' ∨ c = ']' ∨ c = '}'

theorem Closes.ends (h : Closes rest) : Ends rest := by
  intro c hc
  obtain rfl | rfl | rfl := h c hc <;> simp

theorem Closes.skipBlanks (h : Closes rest) : skipBlanks rest = rest := by
  cases rest with
  | nil => rfl
  | cons c rest =>
    refine skipBlanks_cons ?_ rest
    obtain rfl | rfl | rfl := h c rfl <;> rfl

end Blanks

theorem Spells.blanks {form : Form} {bs cs : List Char} (h : Spells form cs)
    (hform : ∀ v, form ≠ .value v) (hb : ∀ c ∈ bs, isBlank c = true) : Spells form (bs ++ cs) := by
  have happend {before : List Char} (hbefore : ∀ c ∈ before, isBlank c = true) :
      ∀ c ∈ bs ++ before, isBlank c = true := by
    intro c hc
    exact (List.mem_append.1 hc).elim (hb c) (hbefore c)
  induction h with
  | element hbefore h hafter _ =>
    rw [← List.append_assoc]
    exact .element (happend hbefore) h hafter
  | lastElement _ ih => exact .lastElement (ih fun _ ↦ by simp)
  | nextElement _ hs ih _ =>
    rw [← List.append_assoc]
    exact .nextElement (ih fun _ ↦ by simp) hs
  | member hbefore hname hafter h _ =>
    rw [← List.append_assoc]
    exact .member (happend hbefore) hname hafter h
  | lastMember _ ih => exact .lastMember (ih fun _ ↦ by simp)
  | nextMember _ hs ih _ =>
    rw [← List.append_assoc]
    exact .nextMember (ih fun _ ↦ by simp) hs
  | _ => exact absurd rfl (hform _)

section Soundness

theorem exists_of_bind_eq_ok {ε α β : Type} {x : Except ε α} {f : α → Except ε β} {b : β}
    (h : (x >>= f) = .ok b) : ∃ a, x = .ok a ∧ f a = .ok b := by
  cases x with
  | error e => cases h
  | ok a => exact ⟨a, rfl, h⟩

/-- What is read with the given fuel is spelled as the grammar says. -/
structure Sound (fuel : ℕ) : Prop where
  value {depth : ℕ} {cs rest : List Char} {v : Json} (h : value depth fuel cs = .ok (v, rest)) :
    ∃ used, cs = used ++ rest ∧ Spells (.value v) used
  elements {depth : ℕ} {cs rest : List Char} {vs : List Json}
    (h : elements depth fuel cs = .ok (vs, rest)) :
    ∃ used, cs = used ++ ']' :: rest ∧ Spells (.elements vs) used
  members {depth : ℕ} {cs rest : List Char} {ms : List (Text × Json)}
    (h : members depth fuel cs = .ok (ms, rest)) :
    ∃ used, cs = used ++ '}' :: rest ∧ Spells (.members ms) used

variable {depth fuel : ℕ} {cs rest : List Char}

theorem Sound.value_step (hfuel : Sound fuel) {v : Json}
    (h : Json.value depth (fuel + 1) cs = .ok (v, rest)) :
    ∃ used, cs = used ++ rest ∧ Spells (.value v) used := by
  unfold Json.value at h
  split at h
  case h_1 tail =>
    obtain ⟨⟨t, rest'⟩, hs, hret⟩ := exists_of_bind_eq_ok h
    cases hret
    obtain ⟨used, hused, ht⟩ := stringText_of_stringRest hs
    exact ⟨used, hused, .string ht⟩
  case h_2 tail =>
    cases depth with
    | zero => cases h
    | succ depth =>
      obtain ⟨bs, tail, hb, rfl, hskip⟩ := exists_blanks tail
      simp only [hskip] at h
      split at h
      case h_1 =>
        cases h
        exact ⟨_, by simp, .emptyObject hb⟩
      case h_2 =>
        obtain ⟨⟨ms, rest'⟩, hm, hret⟩ := exists_of_bind_eq_ok h
        cases hret
        obtain ⟨used, rfl, hms⟩ := hfuel.members hm
        exact ⟨_, by simp, .object (hms.blanks (by simp) hb)⟩
  case h_3 tail =>
    cases depth with
    | zero => cases h
    | succ depth =>
      obtain ⟨bs, tail, hb, rfl, hskip⟩ := exists_blanks tail
      simp only [hskip] at h
      split at h
      case h_1 =>
        cases h
        exact ⟨_, by simp, .emptyArray hb⟩
      case h_2 =>
        obtain ⟨⟨vs, rest'⟩, he, hret⟩ := exists_of_bind_eq_ok h
        cases hret
        obtain ⟨used, rfl, hvs⟩ := hfuel.elements he
        exact ⟨_, by simp, .array (hvs.blanks (by simp) hb)⟩
  case h_4 => cases h; exact ⟨_, rfl, .null⟩
  case h_5 => cases h; exact ⟨_, rfl, .bool true⟩
  case h_6 => cases h; exact ⟨_, rfl, .bool false⟩
  case h_7 => cases h; exact ⟨_, rfl, .nan⟩
  case h_8 => cases h; exact ⟨_, rfl, .infinity false⟩
  case h_9 => cases h; exact ⟨_, rfl, .infinity true⟩
  case h_10 =>
    obtain ⟨used, hused, hn⟩ := numberText_of_number h
    exact ⟨used, hused, .number hn⟩

theorem Sound.elements_step (hfuel : Sound fuel) {vs : List Json}
    (h : Json.elements depth (fuel + 1) cs = .ok (vs, rest)) :
    ∃ used, cs = used ++ ']' :: rest ∧ Spells (.elements vs) used := by
  unfold Json.elements at h
  obtain ⟨⟨v, rest₁⟩, hv, hnext⟩ := exists_of_bind_eq_ok h
  obtain ⟨used, rfl, hspell⟩ := hfuel.value hv
  obtain ⟨bs, rest₁, hb, rfl, hskip⟩ := exists_blanks rest₁
  have helement : Spells (.element v) (used ++ bs) := .element no_blanks hspell hb
  simp only [hskip] at hnext
  split at hnext
  case h_1 =>
    cases hnext
    exact ⟨_, (List.append_assoc ..).symm, .lastElement helement⟩
  case h_2 rest₂ =>
    obtain ⟨⟨vs', rest₃⟩, hvs, hret⟩ := exists_of_bind_eq_ok hnext
    cases hret
    obtain ⟨bs', rest₂, hb', rfl, hskip'⟩ := exists_blanks rest₂
    rw [hskip'] at hvs
    obtain ⟨used', rfl, hspell'⟩ := hfuel.elements hvs
    exact ⟨_, by simp, .nextElement helement (hspell'.blanks (by simp) hb')⟩
  case h_3 => cases hnext

theorem Sound.members_step (hfuel : Sound fuel) {ms : List (Text × Json)}
    (h : Json.members depth (fuel + 1) cs = .ok (ms, rest)) :
    ∃ used, cs = used ++ '}' :: rest ∧ Spells (.members ms) used := by
  unfold Json.members at h
  split at h
  case h_2 => cases h
  case h_1 tail =>
    obtain ⟨⟨name, rest₁⟩, hname, hcolon⟩ := exists_of_bind_eq_ok h
    obtain ⟨used, hused, hstring⟩ := stringText_of_stringRest hname
    obtain ⟨bs₁, rest₁, hb₁, rfl, hskip₁⟩ := exists_blanks rest₁
    simp only [hskip₁] at hcolon
    split at hcolon
    case h_2 => cases hcolon
    case h_1 rest₂ =>
      obtain ⟨⟨v, rest₃⟩, hv, hnext⟩ := exists_of_bind_eq_ok hcolon
      obtain ⟨bs₂, rest₂, hb₂, rfl, hskip₂⟩ := exists_blanks rest₂
      rw [hskip₂] at hv
      obtain ⟨used', rfl, hspell⟩ := hfuel.value hv
      obtain ⟨bs₃, rest₃, hb₃, rfl, hskip₃⟩ := exists_blanks rest₃
      have hmember := Spells.member no_blanks hstring hb₁ (.element hb₂ hspell hb₃)
      simp only [hskip₃] at hnext
      rw [hused]
      split at hnext
      case h_1 =>
        cases hnext
        exact ⟨_, by simp, .lastMember hmember⟩
      case h_2 rest₄ =>
        obtain ⟨⟨ms', rest₅⟩, hms, hret⟩ := exists_of_bind_eq_ok hnext
        cases hret
        obtain ⟨bs₄, rest₄, hb₄, rfl, hskip₄⟩ := exists_blanks rest₄
        rw [hskip₄] at hms
        obtain ⟨used'', rfl, hspell'⟩ := hfuel.members hms
        exact ⟨_, by simp, .nextMember hmember (hspell'.blanks (by simp) hb₄)⟩
      case h_3 => cases hnext

theorem sound (fuel : ℕ) : Sound fuel := by
  induction fuel with
  | zero =>
    constructor <;> intro _ _ _ _ h
    · cases h
    · cases h
    · cases h
  | succ fuel ih => exact ⟨ih.value_step, ih.elements_step, ih.members_step⟩

end Soundness

section Completeness

/-- Pieces of JSON are taken by the reader, with depth for their values and fuel for twice their
length. -/
def Form.Read : Form → List Char → Prop
  | .value v, cs => ∀ depth fuel rest, v.depth ≤ depth → 2 * cs.length ≤ fuel → Ends rest →
    Json.value depth fuel (cs ++ rest) = .ok (v, rest)
  | .element v, cs => ∀ depth fuel rest, v.depth ≤ depth → 2 * cs.length ≤ fuel → Closes rest →
    ∃ c tail rest', skipBlanks (cs ++ rest) = c :: tail ∧ c ≠ ']' ∧
      Json.value depth fuel (c :: tail) = .ok (v, rest') ∧ skipBlanks rest' = rest
  | .elements vs, cs => ∀ depth fuel rest, elementsDepth vs ≤ depth → 2 * cs.length < fuel →
    ∃ c tail, skipBlanks (cs ++ ']' :: rest) = c :: tail ∧ c ≠ ']' ∧
      Json.elements depth fuel (c :: tail) = .ok (vs, rest)
  | .member name v, cs => ∀ depth fuel rest, v.depth ≤ depth → 2 * cs.length ≤ fuel →
    Closes rest → ∃ tail rest₁ rest₂ rest₃, skipBlanks (cs ++ rest) = '"' :: tail ∧
      (∀ opened, stringRest opened tail = .ok (name, rest₁)) ∧ skipBlanks rest₁ = ':' :: rest₂ ∧
      Json.value depth fuel (skipBlanks rest₂) = .ok (v, rest₃) ∧ skipBlanks rest₃ = rest
  | .members ms, cs => ∀ depth fuel rest, membersDepth ms ≤ depth → 2 * cs.length < fuel → ∃ tail,
    skipBlanks (cs ++ '}' :: rest) = '"' :: tail ∧
      Json.members depth fuel ('"' :: tail) = .ok (ms, rest)

theorem NumberText.exists_cons {v : Json} {cs : List Char} (h : NumberText v cs) :
    ∃ c tail, cs = c :: tail ∧
      (c.isDigit = true ∨ c = '-' ∧ ∃ d ∈ tail.head?, d.isDigit = true) := by
  have hsigned {whole : List Char} (negative : Bool) (hwhole : Whole whole) (rest : List Char) :
      ∃ c tail, signChars negative ++ (whole ++ rest) = c :: tail ∧
        (c.isDigit = true ∨ c = '-' ∧ ∃ d ∈ tail.head?, d.isDigit = true) := by
    obtain ⟨d, hhead, hd⟩ := hwhole.head? rest
    cases negative with
    | true => exact ⟨'-', _, rfl, .inr ⟨rfl, d, hhead, hd⟩⟩
    | false =>
      obtain ⟨tail, htail⟩ := List.head?_eq_some_iff.1 hhead
      exact ⟨d, tail, htail, .inl hd⟩
  cases h with
  | @integer whole negative hwhole =>
    have hcs := hsigned negative hwhole []
    rwa [List.append_nil] at hcs
  | real negative hwhole => exact hsigned negative hwhole _

theorem Spells.exists_cons {v : Json} {cs : List Char} (h : Spells (.value v) cs) :
    ∃ c tail, cs = c :: tail ∧ c.toNat < 0x80 ∧ isBlank c = false ∧ c ≠ ']' := by
  cases h with
  | null => exact ⟨_, _, rfl, by decide⟩
  | bool flag => cases flag <;> exact ⟨_, _, rfl, by decide⟩
  | nan => exact ⟨_, _, rfl, by decide⟩
  | infinity negative => cases negative <;> exact ⟨_, _, rfl, by decide⟩
  | string h =>
    cases h with
    | intro => exact ⟨_, _, rfl, by decide⟩
  | emptyArray => exact ⟨_, _, rfl, by decide⟩
  | array => exact ⟨_, _, rfl, by decide⟩
  | emptyObject => exact ⟨_, _, rfl, by decide⟩
  | object => exact ⟨_, _, rfl, by decide⟩
  | number h =>
    obtain ⟨c, tail, rfl, hc⟩ := h.exists_cons
    refine ⟨c, tail, rfl, ?_⟩
    obtain hd | ⟨rfl, -⟩ := hc
    · have hc : ∀ d : Char, d.isDigit = false → c ≠ d := fun d hd' h ↦ by simp [h, hd'] at hd
      have := toNat_of_isDigit hd
      exact ⟨by omega, by simp [isBlank, hc], hc _ rfl⟩
    · decide

theorem value_number {c : Char} {cs : List Char} (depth fuel : ℕ) (hc : c.isDigit = true ∨
    c = '-' ∧ ∃ d ∈ cs.head?, d.isDigit = true) :
    value depth (fuel + 1) (c :: cs) = number (c :: cs) := by
  obtain hc | ⟨rfl, d, hd, hdigit⟩ := hc
  · have hne : ∀ d : Char, d.isDigit = false → c ≠ d := fun d hd h ↦ by simp [h, hd] at hc
    simp [value, hne]
  · obtain ⟨tail, rfl⟩ := List.head?_eq_some_iff.1 hd
    have hI : d ≠ 'I' := fun h ↦ by simp [h] at hdigit
    simp [value, hI]

section Steps

variable {depth k : ℕ} {c : Char} {cs tail rest rest' : List Char} {v : Json}

theorem value_array (hskip : skipBlanks cs = c :: tail) (hc : c ≠ ']') :
    value (depth + 1) (k + 1) ('[' :: cs) =
      (elements depth k (c :: tail)).map fun p ↦ (.array p.1, p.2) := by
  simp only [value, hskip, List.cons.injEq, hc, false_and, imp_self, implies_true]
  cases elements depth k (c :: tail) <;> rfl

theorem value_object (hskip : skipBlanks cs = '"' :: tail) :
    value (depth + 1) (k + 1) ('{' :: cs) =
      (members depth k ('"' :: tail)).map fun p ↦ (.object p.1, p.2) := by
  simp only [value, hskip, List.cons.injEq, Char.reduceEq, false_and, imp_self, implies_true]
  cases members depth k ('"' :: tail) <;> rfl

theorem elements_last (h : value depth k cs = .ok (v, rest'))
    (hrest : skipBlanks rest' = ']' :: rest) : elements depth (k + 1) cs = .ok ([v], rest) := by
  simp only [elements, h, Bind.bind, Except.bind, hrest]
  rfl

theorem elements_next (h : value depth k cs = .ok (v, rest'))
    (hrest : skipBlanks rest' = ',' :: tail) :
    elements depth (k + 1) cs =
      (elements depth k (skipBlanks tail)).map fun p ↦ (v :: p.1, p.2) := by
  simp only [elements, h, Bind.bind, Except.bind, hrest]
  cases elements depth k (skipBlanks tail) <;> rfl

variable {name : Text} {rest₁ rest₂ rest₃ : List Char}
  (hname : ∀ opened, stringRest opened cs = .ok (name, rest₁))
  (hcolon : skipBlanks rest₁ = ':' :: rest₂)
  (hv : value depth k (skipBlanks rest₂) = .ok (v, rest₃))

include hname hcolon hv

theorem members_last (hrest : skipBlanks rest₃ = '}' :: rest) :
    members depth (k + 1) ('"' :: cs) = .ok ([(name, v)], rest) := by
  simp only [members, hname, Bind.bind, Except.bind, hcolon, hv, hrest]
  rfl

theorem members_next (hrest : skipBlanks rest₃ = ',' :: tail) :
    members depth (k + 1) ('"' :: cs) =
      (members depth k (skipBlanks tail)).map fun p ↦ ((name, v) :: p.1, p.2) := by
  simp only [members, hname, Bind.bind, Except.bind, hcolon, hv, hrest]
  cases members depth k (skipBlanks tail) <;> rfl

end Steps

theorem exists_fuel {c : Char} {cs : List Char} {fuel : ℕ} (hfuel : 2 * (c :: cs).length ≤ fuel) :
    ∃ k, fuel = k + 1 ∧ 2 * cs.length < k := by
  rw [List.length_cons] at hfuel
  exact ⟨fuel - 1, by omega, by omega⟩

theorem closes_cons {c : Char} (hc : c = ',' ∨ c = ']' ∨ c = '}') (rest : List Char) :
    Closes (c :: rest) := by
  simpa [Closes] using hc

theorem Spells.read {form : Form} {cs : List Char} (h : Spells form cs) : form.Read cs := by
  induction h with
  | null =>
    intro depth fuel rest hdepth hfuel hr
    obtain ⟨k, rfl, -⟩ := exists_fuel hfuel
    rfl
  | bool flag =>
    intro depth fuel rest hdepth hfuel hr
    cases flag with
    | true =>
      obtain ⟨k, rfl, -⟩ := exists_fuel hfuel
      rfl
    | false =>
      obtain ⟨k, rfl, -⟩ := exists_fuel hfuel
      rfl
  | nan =>
    intro depth fuel rest hdepth hfuel hr
    obtain ⟨k, rfl, -⟩ := exists_fuel hfuel
    rfl
  | infinity negative =>
    intro depth fuel rest hdepth hfuel hr
    cases negative with
    | true =>
      obtain ⟨k, rfl, -⟩ := exists_fuel hfuel
      rfl
    | false =>
      obtain ⟨k, rfl, -⟩ := exists_fuel hfuel
      rfl
  | number h =>
    intro depth fuel rest hdepth hfuel hr
    obtain ⟨c, tail, rfl, hc⟩ := h.exists_cons
    obtain ⟨k, rfl, -⟩ := exists_fuel hfuel
    have hc' : c.isDigit = true ∨ c = '-' ∧ ∃ d ∈ (tail ++ rest).head?, d.isDigit = true := by
      refine hc.imp_right fun ⟨hminus, d, hd, hdigit⟩ ↦ ⟨hminus, d, ?_, hdigit⟩
      obtain ⟨tail, rfl⟩ := List.head?_eq_some_iff.1 hd
      rfl
    rw [List.cons_append, value_number _ k hc', ← List.cons_append, number_append h hr]
  | string h =>
    intro depth fuel rest hdepth hfuel hr
    obtain ⟨tail, htail, hs⟩ := stringRest_append h rest
    cases h with
    | intro =>
      obtain ⟨k, rfl, -⟩ := exists_fuel hfuel
      rw [htail]
      simp only [Json.value, hs]
      rfl
  | emptyArray hb =>
    intro depth fuel rest hdepth hfuel hr
    obtain ⟨d, rfl⟩ := Nat.exists_eq_add_one_of_ne_zero (Nat.ne_zero_of_lt hdepth)
    obtain ⟨k, rfl, -⟩ := exists_fuel hfuel
    simp only [List.cons_append, List.append_assoc, Json.value, skipBlanks_append hb]
    rfl
  | array _ ih =>
    intro depth fuel rest hdepth hfuel hr
    obtain ⟨d, rfl⟩ := Nat.exists_eq_add_one_of_ne_zero (Nat.ne_zero_of_lt hdepth)
    obtain ⟨k, rfl, hk⟩ := exists_fuel hfuel
    obtain ⟨c, tail, hskip, hc, helements⟩ :=
      ih d k rest (Nat.le_of_succ_le_succ hdepth) (by simp at hk; omega)
    rw [List.cons_append, List.append_assoc, List.singleton_append, value_array hskip hc, helements]
    rfl
  | emptyObject hb =>
    intro depth fuel rest hdepth hfuel hr
    obtain ⟨d, rfl⟩ := Nat.exists_eq_add_one_of_ne_zero (Nat.ne_zero_of_lt hdepth)
    obtain ⟨k, rfl, -⟩ := exists_fuel hfuel
    simp only [List.cons_append, List.append_assoc, Json.value, skipBlanks_append hb]
    rfl
  | object _ ih =>
    intro depth fuel rest hdepth hfuel hr
    obtain ⟨d, rfl⟩ := Nat.exists_eq_add_one_of_ne_zero (Nat.ne_zero_of_lt hdepth)
    obtain ⟨k, rfl, hk⟩ := exists_fuel hfuel
    obtain ⟨tail, hskip, hmembers⟩ :=
      ih d k rest (Nat.le_of_succ_le_succ hdepth) (by simp at hk; omega)
    rw [List.cons_append, List.append_assoc, List.singleton_append, value_object hskip, hmembers]
    rfl
  | @element v before cs after hbefore h hafter ih =>
    intro depth fuel rest hdepth hfuel hr
    obtain ⟨c, tail, rfl, -, hblank, hc⟩ := h.exists_cons
    have hskip : skipBlanks (before ++ (c :: tail ++ after) ++ rest) =
        c :: (tail ++ (after ++ rest)) := by
      simp only [List.append_assoc, List.cons_append, skipBlanks_append hbefore,
        skipBlanks_cons hblank]
    refine ⟨c, _, after ++ rest, hskip, hc, ?_, ?_⟩
    · refine ih depth fuel (after ++ rest) hdepth ?_ (.blanks hafter hr.ends)
      simp at hfuel ⊢
      omega
    · rw [skipBlanks_append hafter, hr.skipBlanks]
  | lastElement _ ih =>
    intro depth fuel rest hdepth hfuel
    obtain ⟨k, rfl⟩ := Nat.exists_eq_add_one_of_ne_zero (Nat.ne_zero_of_lt hfuel)
    obtain ⟨c, tail, rest', hskip, hc, hv, hrest⟩ :=
      ih depth k (']' :: rest) (Nat.max_le.1 hdepth).1 (Nat.le_of_lt_succ hfuel)
        (closes_cons (by simp) rest)
    exact ⟨c, tail, hskip, hc, elements_last hv hrest⟩
  | @nextElement v vs cs ds _ _ ih ihs =>
    intro depth fuel rest hdepth hfuel
    obtain ⟨k, rfl⟩ := Nat.exists_eq_add_one_of_ne_zero (Nat.ne_zero_of_lt hfuel)
    rw [List.length_append, List.length_cons] at hfuel
    obtain ⟨hfirst, hothers⟩ := Nat.max_le.1 hdepth
    obtain ⟨c, tail, rest', hskip, hc, hv, hrest⟩ :=
      ih depth k (',' :: (ds ++ ']' :: rest)) hfirst (by omega) (closes_cons (by simp) _)
    obtain ⟨c', tail', hskip', -, hvs⟩ := ihs depth k rest hothers (by omega)
    rw [← hskip'] at hvs
    refine ⟨c, tail, ?_, hc, ?_⟩
    · rw [List.append_assoc, List.cons_append, hskip]
    · rw [elements_next hv hrest, hvs]
      rfl
  | @member name v before ns after cs hbefore hname hafter _ ih =>
    intro depth fuel rest hdepth hfuel hr
    simp only [List.length_append, List.length_cons] at hfuel
    obtain ⟨tail, htail, hs⟩ := stringRest_append hname (after ++ ':' :: (cs ++ rest))
    obtain ⟨c, tail', rest', hskip, -, hv, hrest⟩ := ih depth fuel rest hdepth (by omega) hr
    rw [← hskip] at hv
    refine ⟨tail, _, cs ++ rest, rest', ?_, hs, ?_, hv, hrest⟩
    · simp only [List.append_assoc, List.cons_append]
      rw [htail, skipBlanks_append hbefore, skipBlanks_cons (by decide)]
    · rw [skipBlanks_append hafter, skipBlanks_cons (by decide)]
  | lastMember _ ih =>
    intro depth fuel rest hdepth hfuel
    obtain ⟨k, rfl⟩ := Nat.exists_eq_add_one_of_ne_zero (Nat.ne_zero_of_lt hfuel)
    obtain ⟨tail, rest₁, rest₂, rest₃, hskip, hname, hcolon, hv, hrest⟩ :=
      ih depth k ('}' :: rest) (Nat.max_le.1 hdepth).1 (Nat.le_of_lt_succ hfuel)
        (closes_cons (by simp) rest)
    exact ⟨tail, hskip, members_last hname hcolon hv hrest⟩
  | @nextMember name v ms cs ds _ _ ih ihs =>
    intro depth fuel rest hdepth hfuel
    obtain ⟨k, rfl⟩ := Nat.exists_eq_add_one_of_ne_zero (Nat.ne_zero_of_lt hfuel)
    rw [List.length_append, List.length_cons] at hfuel
    obtain ⟨hfirst, hothers⟩ := Nat.max_le.1 hdepth
    obtain ⟨tail, rest₁, rest₂, rest₃, hskip, hname, hcolon, hv, hrest⟩ :=
      ih depth k (',' :: (ds ++ '}' :: rest)) hfirst (by omega) (closes_cons (by simp) _)
    obtain ⟨tail', hskip', hms⟩ := ihs depth k rest hothers (by omega)
    rw [← hskip'] at hms
    refine ⟨tail, ?_, ?_⟩
    · rw [List.append_assoc, List.cons_append, hskip]
    · rw [members_next hname hcolon hv hrest, hms]
      rfl

end Completeness

theorem Spells.head?_ne_mark {v : Json} {cs : List Char} (h : Spells (.element v) cs) :
    cs.head? ≠ some '\ufeff' := by
  cases h with
  | @element _ before cs after hbefore h _ =>
    obtain ⟨c, tail, rfl, hascii, -⟩ := h.exists_cons
    have hmark : ∀ d ∈ (before ++ (c :: tail ++ after)).head?, d.toNat < 0x80 := by
      cases before with
      | nil => simpa using hascii
      | cons b before =>
        have hb : b = ' ' ∨ b = '\t' ∨ b = '\n' ∨ b = '\r' := by
          simpa [isBlank, or_assoc] using hbefore b List.mem_cons_self
        obtain rfl | rfl | rfl | rfl := hb <;> simp
    intro hhead
    exact absurd (hmark _ hhead) (by decide)

theorem Spells.parseWithin_eq_ok {depth : ℕ} {text : List Char} {v : Json}
    (h : Spells (.element v) text) (hdepth : v.depth ≤ depth) : parseWithin depth text = .ok v := by
  obtain ⟨c, tail, rest, hskip, -, hv, hrest⟩ :=
    h.read depth (2 * text.length + 2) [] hdepth (by omega) (by simp [Closes])
  rw [List.append_nil] at hskip
  unfold parseWithin
  rw [if_neg h.head?_ne_mark, hskip]
  simp only [Bind.bind, Except.bind, hv, hrest]
  rfl

theorem parse_eq_ok_iff (text : List Char) (v : Json) :
    parse text = .ok v ↔ Spells (.element v) text := by
  constructor
  · intro h
    unfold parse parseWithin at h
    split at h
    · cases h
    · obtain ⟨⟨v', rest⟩, hv, hend⟩ := exists_of_bind_eq_ok h
      obtain ⟨bs, text, hb, rfl, hskip⟩ := exists_blanks text
      obtain ⟨bs', rest, hb', rfl, hskip'⟩ := exists_blanks rest
      rw [hskip] at hv
      obtain ⟨used, rfl, hspell⟩ := (sound _).value hv
      simp only [hskip'] at hend
      split at hend
      · cases hend
        rw [List.append_nil]
        exact .element hb hspell hb'
      · cases hend
  · intro h
    exact h.parseWithin_eq_ok h.depth_le_length

end LittleLisp.Json
