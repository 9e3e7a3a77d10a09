import LittleLisp.Json.Reader
import LittleLisp.Proofs.Text.Integer

/-!
The grammar of JSON: which texts spell which values. It says nothing of how a text is read. A string
is spelled by code units, of which a high surrogate and a low one after it make one code point. A
number with neither fraction nor exponent is an integer.
-/

namespace LittleLisp.Json

open Text Binary64

/-- The code units between the quotes of a string. -/
inductive StringBody : List Nat → List Char → Prop
  | nil : StringBody [] []
  | plain {c : Char} {ns : List Nat} {cs : List Char} (hc : 0x20 ≤ c.toNat) (hquote : c ≠ '"')
    (hslash : c ≠ '\\') (h : StringBody ns cs) : StringBody (c.toNat :: ns) (c :: cs)
  | short {c d : Char} {ns : List Nat} {cs : List Char} (hc : escaped? c = some d)
    (h : StringBody ns cs) : StringBody (d.toNat :: ns) ('\\' :: c :: cs)
  | unit {a b c d : Char} {n : Nat} {ns : List Nat} {cs : List Char}
    (hn : codeUnit? a b c d = some n) (h : StringBody ns cs) :
    StringBody (n :: ns) ('\\' :: 'u' :: a :: b :: c :: d :: cs)

/-- The text that code units make. -/
inductive Joined : List Nat → Text → Prop
  | nil : Joined [] []
  | pair {high low : Nat} {ns : List Nat} {t : Text} (hhigh : isHighSurrogate high = true)
    (hlow : isLowSurrogate low = true) (h : Joined ns t) :
    Joined (high :: low :: ns) (pairPoint high low :: t)
  | single {n : Nat} {ns : List Nat} {t : Text}
    (hn : isHighSurrogate n = true → ∀ m ∈ ns.head?, isLowSurrogate m = false)
    (h : Joined ns t) : Joined (n :: ns) (.ofNat n :: t)

inductive StringText : Text → List Char → Prop
  | intro {ns : List Nat} {t : Text} {cs : List Char} (hbody : StringBody ns cs)
    (hjoin : Joined ns t) : StringText t ('"' :: (cs ++ ['"']))

inductive Whole : List Char → Prop
  | zero : Whole ['0']
  | digits {ds : List Char} (hne : ds ≠ []) (hzero : ds.head? ≠ some '0')
    (hd : ∀ d ∈ ds, d.isDigit = true) : Whole ds

inductive Fraction : List Char → List Char → Prop
  | none : Fraction [] []
  | point {ds : List Char} (hne : ds ≠ []) (hd : ∀ d ∈ ds, d.isDigit = true) :
    Fraction ds ('.' :: ds)

inductive Exponent : Int → List Char → Prop
  | none : Exponent 0 []
  | mark {c : Char} {sign ds : List Char} {negative : Bool} (hc : c = 'e' ∨ c = 'E')
    (hsign : Signed sign negative) (hne : ds ≠ []) (hd : ∀ d ∈ ds, d.isDigit = true) :
    Exponent (if negative then -(decimalNumber ds : Int) else decimalNumber ds) (c :: (sign ++ ds))

inductive NumberText : Json → List Char → Prop
  | integer {whole : List Char} (negative : Bool) (hwhole : Whole whole)
    (hshort : whole.length ≤ maxDigits) :
    NumberText (.integer (if negative then -(decimalNumber whole : Int) else decimalNumber whole))
      (signChars negative ++ whole)
  | real {whole digits fraction exponent : List Char} {e : Int} (negative : Bool)
    (hwhole : Whole whole) (hfraction : Fraction digits fraction) (hexponent : Exponent e exponent)
    (hreal : fraction ≠ [] ∨ exponent ≠ []) :
    NumberText (.real (Numeral.value ⟨negative, whole, digits, e⟩))
      (signChars negative ++ (whole ++ (fraction ++ exponent)))

/-- What a piece of JSON can be: a value, a value between blanks, or a sequence with commas. -/
inductive Form where
  | value (v : Json)
  | element (v : Json)
  | elements (vs : List Json)
  | member (name : Text) (v : Json)
  | members (ms : List (Text × Json))

inductive Spells : Form → List Char → Prop
  | null : Spells (.value .null) "null".toList
  | bool (flag : Bool) : Spells (.value (.bool flag)) (if flag then "true" else "false").toList
  | nan : Spells (.value (.real .nan)) "NaN".toList
  | infinity (negative : Bool) :
    Spells (.value (.real (.infinite negative))) (signChars negative ++ "Infinity".toList)
  | number {v : Json} {cs : List Char} (h : NumberText v cs) : Spells (.value v) cs
  | string {t : Text} {cs : List Char} (h : StringText t cs) : Spells (.value (.string t)) cs
  | emptyArray {bs : List Char} (hb : ∀ c ∈ bs, isBlank c = true) :
    Spells (.value (.array [])) ('[' :: (bs ++ [']']))
  | array {vs : List Json} {cs : List Char} (h : Spells (.elements vs) cs) :
    Spells (.value (.array vs)) ('[' :: (cs ++ [']']))
  | emptyObject {bs : List Char} (hb : ∀ c ∈ bs, isBlank c = true) :
    Spells (.value (.object [])) ('{' :: (bs ++ ['}']))
  | object {ms : List (Text × Json)} {cs : List Char} (h : Spells (.members ms) cs) :
    Spells (.value (.object ms)) ('{' :: (cs ++ ['}']))
  | element {v : Json} {before cs after : List Char} (hbefore : ∀ c ∈ before, isBlank c = true)
    (h : Spells (.value v) cs) (hafter : ∀ c ∈ after, isBlank c = true) :
    Spells (.element v) (before ++ (cs ++ after))
  | lastElement {v : Json} {cs : List Char} (h : Spells (.element v) cs) : Spells (.elements [v]) cs
  | nextElement {v : Json} {vs : List Json} {cs ds : List Char} (h : Spells (.element v) cs)
    (hs : Spells (.elements vs) ds) : Spells (.elements (v :: vs)) (cs ++ ',' :: ds)
  | member {name : Text} {v : Json} {before ns after cs : List Char}
    (hbefore : ∀ c ∈ before, isBlank c = true) (hname : StringText name ns)
    (hafter : ∀ c ∈ after, isBlank c = true) (h : Spells (.element v) cs) :
    Spells (.member name v) (before ++ (ns ++ (after ++ ':' :: cs)))
  | lastMember {name : Text} {v : Json} {cs : List Char} (h : Spells (.member name v) cs) :
    Spells (.members [(name, v)]) cs
  | nextMember {name : Text} {v : Json} {ms : List (Text × Json)} {cs ds : List Char}
    (h : Spells (.member name v) cs) (hs : Spells (.members ms) ds) :
    Spells (.members ((name, v) :: ms)) (cs ++ ',' :: ds)

mutual

/-- How many arrays and objects are inside one another in a value. -/
def depth : Json → ℕ
  | .array vs => elementsDepth vs + 1
  | .object ms => membersDepth ms + 1
  | _ => 0

def elementsDepth : List Json → ℕ
  | [] => 0
  | v :: vs => max v.depth (elementsDepth vs)

def membersDepth : List (Text × Json) → ℕ
  | [] => 0
  | (_, v) :: ms => max v.depth (membersDepth ms)

end

def Form.depth : Form → ℕ
  | .value v | .element v | .member _ v => v.depth
  | .elements vs => elementsDepth vs
  | .members ms => membersDepth ms

theorem NumberText.depth_eq_zero {v : Json} {cs : List Char} (h : NumberText v cs) :
    v.depth = 0 := by
  cases h <;> simp [Json.depth]

theorem Spells.depth_le_length {form : Form} {cs : List Char} (h : Spells form cs) :
    form.depth ≤ cs.length := by
  induction h with
  | number h => simp [Form.depth, h.depth_eq_zero]
  | _ =>
    simp_all only [Form.depth, Json.depth, elementsDepth, membersDepth, List.length_append,
      List.length_cons, List.length_nil]
    omega

section Strings

theorem prepend_eq_ok_iff {n : ℕ} {r : Except Fault (List ℕ × List Char)} {ns : List ℕ}
    {rest : List Char} : stringUnits.prepend n r = .ok (ns, rest) ↔
      ∃ ns', r = .ok (ns', rest) ∧ ns = n :: ns' := by
  cases r with
  | error f => simp [stringUnits.prepend, Except.map]
  | ok p =>
    simp only [stringUnits.prepend, Except.map, Except.ok.injEq, Prod.mk.injEq]
    constructor
    · rintro ⟨rfl, rfl⟩
      exact ⟨p.1, rfl, rfl⟩
    · rintro ⟨ns', rfl, rfl⟩
      exact ⟨rfl, rfl⟩

theorem stringBody_of_stringUnits {opened : ℕ} {cs rest : List Char} {ns : List ℕ}
    (h : stringUnits opened cs = .ok (ns, rest)) :
    ∃ body, cs = body ++ '"' :: rest ∧ StringBody ns body := by
  fun_induction stringUnits opened cs generalizing ns with
  | case1 => cases h
  | case2 =>
    cases h
    exact ⟨[], rfl, .nil⟩
  | case3 => cases h
  | case4 => cases h
  | case5 a b c d rest' n hn hne ih =>
    obtain ⟨ns', h', rfl⟩ := prepend_eq_ok_iff.1 h
    obtain ⟨body, rfl, hbody⟩ := ih h'
    exact ⟨_, rfl, .unit hn hbody⟩
  | case6 => cases h
  | case7 => cases h
  | case8 c rest' _ _ d hd ih =>
    obtain ⟨ns', h', rfl⟩ := prepend_eq_ok_iff.1 h
    obtain ⟨body, rfl, hbody⟩ := ih h'
    exact ⟨_, rfl, .short hd hbody⟩
  | case9 => cases h
  | case10 => cases h
  | case11 c rest' hquote hend _ _ hslash hc ih =>
    obtain ⟨ns', h', rfl⟩ := prepend_eq_ok_iff.1 h
    obtain ⟨body, hbody, hb⟩ := ih h'
    have hc' : c ≠ '\\' := by
      intro hc'
      cases rest' with
      | nil => exact hend hc' rfl
      | cons d rest' => exact hslash d rest' hc' rfl
    exact ⟨c :: body, by rw [hbody, List.cons_append], .plain (Nat.le_of_not_lt hc) hquote hc' hb⟩

theorem stringUnits_append {cs : List Char} {ns : List ℕ} (h : StringBody ns cs) (opened : ℕ)
    (rest : List Char) : stringUnits opened (cs ++ '"' :: rest) = .ok (ns, rest) := by
  induction h with
  | nil => rfl
  | @plain c ns cs hc hquote hslash _ ih =>
    have hstep : stringUnits opened (c :: (cs ++ '"' :: rest)) =
        stringUnits.prepend c.toNat (stringUnits opened (cs ++ '"' :: rest)) := by
      simp [stringUnits, hslash, hc]
    rw [List.cons_append, hstep]
    exact prepend_eq_ok_iff.2 ⟨ns, ih, rfl⟩
  | @short c d ns cs hc _ ih =>
    have hu : c ≠ 'u' := by
      intro hu
      rw [hu] at hc
      cases hc
    have hstep : stringUnits opened ('\\' :: c :: (cs ++ '"' :: rest)) =
        stringUnits.prepend d.toNat (stringUnits opened (cs ++ '"' :: rest)) := by
      simp [stringUnits, hu, hc]
    rw [List.cons_append, List.cons_append, hstep]
    exact prepend_eq_ok_iff.2 ⟨ns, ih, rfl⟩
  | @unit a b c d n ns cs hn _ ih =>
    have hstep : stringUnits opened ('\\' :: 'u' :: a :: b :: c :: d :: (cs ++ '"' :: rest)) =
        stringUnits.prepend n (stringUnits opened (cs ++ '"' :: rest)) := by
      simp [stringUnits, hn]
    simp only [List.cons_append]
    rw [hstep]
    exact prepend_eq_ok_iff.2 ⟨ns, ih, rfl⟩

theorem joinUnits_pair {high low : ℕ} (hhigh : isHighSurrogate high = true)
    (hlow : isLowSurrogate low = true) (ns : List ℕ) :
    joinUnits none (high :: low :: ns) = pairPoint high low :: joinUnits none ns := by
  simp only [joinUnits, hhigh, hlow, if_true]

theorem joinUnits_single {n : ℕ} {ns : List ℕ}
    (hn : isHighSurrogate n = true → ∀ m ∈ ns.head?, isLowSurrogate m = false) :
    joinUnits none (n :: ns) = .ofNat n :: joinUnits none ns := by
  by_cases hhigh : isHighSurrogate n = true
  · cases ns with
    | nil => simp [joinUnits, hhigh]
    | cons m ns =>
      have hm : isLowSurrogate m = false := hn hhigh m rfl
      by_cases hm' : isHighSurrogate m = true <;> simp [joinUnits, hhigh, hm, hm']
  · simp [joinUnits, hhigh]

theorem joined_joinUnits (ns : List ℕ) : Joined ns (joinUnits none ns) := by
  -- a pair takes two units at once, so the induction is on how many there are
  induction hlen : ns.length using Nat.strong_induction_on generalizing ns with
  | _ k ih =>
    subst hlen
    cases ns with
    | nil => exact .nil
    | cons n ns =>
      by_cases hpair : isHighSurrogate n = true ∧ ∃ m ∈ ns.head?, isLowSurrogate m = true
      · obtain ⟨hhigh, m, hm, hlow⟩ := hpair
        obtain ⟨ns, rfl⟩ := List.head?_eq_some_iff.1 hm
        rw [joinUnits_pair hhigh hlow]
        exact .pair hhigh hlow (ih _ (by simp only [List.length_cons]; omega) ns rfl)
      · have hn : isHighSurrogate n = true → ∀ m ∈ ns.head?, isLowSurrogate m = false := by
          intro hhigh m hm
          by_contra hlow
          exact hpair ⟨hhigh, m, hm, by simpa using hlow⟩
        rw [joinUnits_single hn]
        exact .single hn (ih _ (by simp) ns rfl)

theorem Joined.eq_joinUnits {ns : List ℕ} {t : Text} (h : Joined ns t) :
    joinUnits none ns = t := by
  induction h with
  | nil => rfl
  | pair hhigh hlow _ ih => rw [joinUnits_pair hhigh hlow, ih]
  | single hn _ ih => rw [joinUnits_single hn, ih]

theorem stringRest_append {t : Text} {cs : List Char} (h : StringText t cs) (rest : List Char) :
    ∃ cs', cs ++ rest = '"' :: cs' ∧ ∀ opened, stringRest opened cs' = .ok (t, rest) := by
  cases h with
  | @intro ns _ cs hbody hjoin =>
    refine ⟨cs ++ '"' :: rest, by simp, fun opened ↦ ?_⟩
    rw [stringRest, stringUnits_append hbody, ← hjoin.eq_joinUnits]
    rfl

theorem stringText_of_stringRest {opened : ℕ} {t : Text} {cs rest : List Char}
    (h : stringRest opened cs = .ok (t, rest)) :
    ∃ used, '"' :: cs = used ++ rest ∧ StringText t used := by
  cases hu : stringUnits opened cs with
  | error f => simp [stringRest, hu, Bind.bind, Except.bind] at h
  | ok p =>
    obtain ⟨ns, rest'⟩ := p
    simp only [stringRest, hu, Bind.bind, Except.bind, Pure.pure, Except.pure, Except.ok.injEq,
      Prod.mk.injEq] at h
    obtain ⟨rfl, rfl⟩ := h
    obtain ⟨body, rfl, hbody⟩ := stringBody_of_stringUnits hu
    exact ⟨_, by simp, .intro hbody (joined_joinUnits ns)⟩

end Strings

section Numbers

def Ends (rest : List Char) : Prop :=
  ∀ c ∈ rest.head?, c.isDigit = false ∧ c ≠ '.' ∧ c ≠ 'e' ∧ c ≠ 'E'

theorem Whole.isDigit {whole : List Char} (h : Whole whole) : ∀ c ∈ whole, c.isDigit = true := by
  cases h with
  | zero => simp
  | digits _ _ hd => exact hd

theorem Whole.ne_nil {whole : List Char} (h : Whole whole) : whole ≠ [] := by
  cases h with
  | zero => exact List.cons_ne_nil _ _
  | digits hne => exact hne

theorem takeWhole_append {whole rest : List Char} (h : Whole whole)
    (hr : ∀ c ∈ rest.head?, c.isDigit = false) : takeWhole (whole ++ rest) = (whole, rest) := by
  cases h with
  | zero => rfl
  | digits hne hzero hd =>
    obtain ⟨d, ds, rfl⟩ := List.exists_cons_of_ne_nil hne
    have hd0 : d ≠ '0' := by simpa using hzero
    have hstep : takeWhole (d :: (ds ++ rest)) = ((d :: (ds ++ rest)).takeWhile Char.isDigit,
        (d :: (ds ++ rest)).dropWhile Char.isDigit) := by
      simp only [takeWhole, List.cons.injEq, hd0, false_and, imp_self, implies_true]
    rw [List.cons_append, hstep, ← List.cons_append, takeWhile_front hd hr, dropWhile_front hd hr]

theorem whole_of_takeWhole {cs whole rest : List Char} (h : takeWhole cs = (whole, rest))
    (hne : whole ≠ []) : cs = whole ++ rest ∧ Whole whole := by
  unfold takeWhole at h
  split at h
  case h_1 =>
    cases h
    exact ⟨rfl, .zero⟩
  case h_2 hzero =>
    cases h
    refine ⟨List.takeWhile_append_dropWhile.symm, .digits hne ?_ fun d ↦ List.mem_takeWhile_imp⟩
    cases cs with
    | nil => contradiction
    | cons c cs =>
      intro hc
      by_cases hdigit : c.isDigit = true
      · rw [List.takeWhile_cons_of_pos hdigit, List.head?_cons, Option.some_inj] at hc
        exact hzero cs (by rw [hc])
      · rw [List.takeWhile_cons_of_neg hdigit] at hne
        contradiction

theorem takeFraction_append {digits fraction rest : List Char} (h : Fraction digits fraction)
    (hr : ∀ c ∈ rest.head?, c.isDigit = false ∧ c ≠ '.') :
    takeFraction (fraction ++ rest) = (fraction, rest) := by
  cases h with
  | none =>
    cases rest with
    | nil => rfl
    | cons c rest => simp [takeFraction, (hr c rfl).2]
  | point hne hd =>
    have hr' : ∀ c ∈ rest.head?, c.isDigit = false := fun c hc ↦ (hr c hc).1
    simp only [takeFraction, List.cons_append, takeWhile_front hd hr', dropWhile_front hd hr',
      if_neg hne]

theorem fraction_of_takeFraction {cs fraction rest : List Char}
    (h : takeFraction cs = (fraction, rest)) :
    cs = fraction ++ rest ∧ ∃ digits, Fraction digits fraction := by
  unfold takeFraction at h
  split at h
  case h_1 tail =>
    dsimp only at h
    split at h
    case isTrue =>
      cases h
      exact ⟨rfl, [], .none⟩
    case isFalse hne =>
      cases h
      refine ⟨?_, _, .point hne fun d ↦ List.mem_takeWhile_imp⟩
      rw [List.cons_append, List.takeWhile_append_dropWhile]
  case h_2 =>
    cases h
    exact ⟨rfl, [], .none⟩

def signOf (cs : List Char) : List Char := (cs.takeWhile fun c ↦ c = '+' || c = '-').take 1

theorem exists_signOf (cs : List Char) :
    (∃ negative, Signed (signOf cs) negative) ∧ cs = signOf cs ++ cs.drop (signOf cs).length := by
  cases cs with
  | nil => exact ⟨⟨_, .none⟩, rfl⟩
  | cons c cs =>
    by_cases hp : c = '+'
    · subst hp
      exact ⟨⟨_, .plus⟩, rfl⟩
    by_cases hm : c = '-'
    · subst hm
      exact ⟨⟨_, .minus⟩, rfl⟩
    have hnone : signOf (c :: cs) = [] := by simp [signOf, hp, hm]
    rw [hnone]
    exact ⟨⟨_, .none⟩, rfl⟩

theorem signOf_append {sign cs : List Char} {negative : Bool} (h : Signed sign negative)
    (hc : ∀ c ∈ cs.head?, c.isDigit = true) : signOf (sign ++ cs) = sign := by
  cases h with
  | plus => simp [signOf]
  | minus => simp [signOf]
  | none =>
    cases cs with
    | nil => rfl
    | cons c cs =>
      have hd := hc c rfl
      have hp : c ≠ '+' := fun h ↦ by simp [h] at hd
      have hm : c ≠ '-' := fun h ↦ by simp [h] at hd
      simp [signOf, hp, hm]

theorem takeExponent_append {e : ℤ} {exponent rest : List Char} (h : Exponent e exponent)
    (hr : Ends rest) : takeExponent (exponent ++ rest) = (exponent, rest) := by
  have hr' : ∀ c ∈ rest.head?, c.isDigit = false := fun c hc ↦ (hr c hc).1
  cases h with
  | none =>
    cases rest with
    | nil => rfl
    | cons c rest =>
      obtain ⟨-, -, he, hE⟩ := hr c rfl
      simp [takeExponent, he, hE]
  | @mark c sign ds negative hc hsign hne hd =>
    have hhead : ∀ c ∈ (ds ++ rest).head?, c.isDigit = true := by
      obtain ⟨d, ds, rfl⟩ := List.exists_cons_of_ne_nil hne
      simpa using hd d List.mem_cons_self
    have hs := signOf_append hsign hhead
    rw [List.cons_append, List.append_assoc]
    rw [signOf] at hs
    simp only [takeExponent, hc, if_true, hs, List.drop_left, takeWhile_front hd hr',
      dropWhile_front hd hr', if_neg hne, List.cons_append]

theorem exponent_of_takeExponent {cs exponent rest : List Char}
    (h : takeExponent cs = (exponent, rest)) :
    cs = exponent ++ rest ∧ ∃ e, Exponent e exponent := by
  unfold takeExponent at h
  split at h
  case h_1 c tail =>
    split at h
    case isTrue hc =>
      obtain ⟨⟨negative, hsign⟩, htail⟩ := exists_signOf tail
      rw [signOf] at hsign htail
      dsimp only at h
      split at h
      case isTrue =>
        cases h
        exact ⟨rfl, 0, .none⟩
      case isFalse hne =>
        cases h
        refine ⟨?_, _, .mark hc hsign hne fun d ↦ List.mem_takeWhile_imp⟩
        simp only [List.cons_append, List.append_assoc, List.takeWhile_append_dropWhile]
        rw [← htail]
    case isFalse =>
      cases h
      exact ⟨rfl, 0, .none⟩
  case h_2 =>
    cases h
    exact ⟨rfl, 0, .none⟩

theorem exponent?_of_exponent {e : ℤ} {exponent : List Char} (h : Exponent e exponent) :
    Numeral.exponent? exponent = some e := by
  cases h with
  | none => rfl
  | @mark c sign ds negative hc hsign hne hd =>
    have hall : ds.all isDecimal = true := List.all_eq_true.2 (forall_isDecimal hd)
    have htake : Numeral.takeSign (sign ++ ds) = (negative, ds) := by
      cases hsign with
      | plus => rfl
      | minus => rfl
      | none =>
        have hsigned : Numeral.takeSign (signChars false ++ (ds ++ [])) = (false, ds ++ []) :=
          Numeral.takeSign_signChars false hd hne
        simpa [signChars] using hsigned
    simp [Numeral.exponent?, hc, htake, hall, hne]

theorem ofChars?_of_parts {whole digits fraction exponent : List Char} {e : ℤ} (negative : Bool)
    (hwhole : Whole whole) (hfraction : Fraction digits fraction)
    (hexponent : Exponent e exponent) :
    Numeral.ofChars? (signChars negative ++ (whole ++ (fraction ++ exponent))) =
      some ⟨negative, whole, digits, e⟩ := by
  have hr : ∀ c ∈ exponent.head?, isDecimal c = false ∧ c ≠ '.' := by
    cases hexponent with
    | none => simp
    | mark hc =>
      obtain rfl | rfl := hc
      · simp only [List.head?_cons, Option.mem_some_iff, forall_eq']
        decide
      · simp only [List.head?_cons, Option.mem_some_iff, forall_eq']
        decide
  refine Numeral.ofChars?_of_parts
    (Numeral.takeSign_signChars negative hwhole.isDigit hwhole.ne_nil) ?_
    (exponent?_of_exponent hexponent)
  cases hfraction with
  | none =>
    exact Numeral.takeDigits_whole (forall_isDecimal hwhole.isDigit) (fun c hc ↦ (hr c hc).1)
      hwhole.ne_nil fun hc ↦ (hr _ hc).2 rfl
  | point _ hd =>
    exact Numeral.takeDigits_point (forall_isDecimal hwhole.isDigit) (fun c hc ↦ (hr c hc).1)
      (forall_isDecimal hd) (hwhole.ne_nil ·.1)

theorem signed_signChars (negative : Bool) : Signed (signChars negative) negative := by
  cases negative with
  | false => exact .none
  | true => exact .minus

theorem parseInteger_whole {whole : List Char} {n : ℤ} (negative : Bool) (hwhole : Whole whole) :
    parseInteger (.ofList (signChars negative ++ whole)) = .ok n ↔
      whole.length ≤ maxDigits ∧
        (if negative then -(decimalNumber whole : ℤ) else decimalNumber whole) = n := by
  have hdec : ∀ c ∈ whole, isDecimal c = true := fun c hc ↦
    isDecimal_of_isDigit (hwhole.isDigit c hc)
  have hnone : ∀ c ∈ ([] : List Char), isLiteralBlank c = true := by simp
  refine parseInteger_eq_ok_iff_of_grouped ?_ hnone (signed_signChars negative)
    (.of_isDecimal hwhole.ne_nil hdec) hnone
  rw [String.toList_ofList, List.nil_append, List.append_nil]

theorem number_of_parts {cs tail whole fraction exponent rest₁ rest₂ rest : List Char}
    (negative : Bool) (hcs : cs = signChars negative ++ tail)
    (htail : negative = false → tail.head? ≠ some '-') (hw : takeWhole tail = (whole, rest₁))
    (hf : takeFraction rest₁ = (fraction, rest₂)) (he : takeExponent rest₂ = (exponent, rest)) :
    number cs =
      if whole = [] then .error (.malformed .value cs.length)
      else if fraction = [] ∧ exponent = [] then
        match parseInteger (.ofList (signChars negative ++ whole)) with
        | .ok n => .ok (.integer n, rest)
        | .error f => .error (.integer f)
      else
        .ok (.real ((Numeral.ofChars? (signChars negative ++ (whole ++ (fraction ++ exponent)))).map
          Numeral.value |>.getD .nan), rest) := by
  have hsign : (if cs.head? = some '-' then (['-'], cs.drop 1) else ([], cs)) =
      (signChars negative, tail) := by
    subst hcs
    cases negative with
    | true => rfl
    | false => simp [signChars, htail rfl]
  unfold number
  simp only [hsign, hw, hf, he]
  by_cases hnil : whole = []
  · rw [if_pos hnil, if_pos hnil]
    rfl
  rw [if_neg hnil, if_neg hnil]
  by_cases hint : fraction = [] ∧ exponent = []
  · obtain ⟨rfl, rfl⟩ := hint
    simp only [and_self, if_true, List.append_nil]
    cases parseInteger (.ofList (signChars negative ++ whole)) <;> rfl
  · rw [if_neg hint, if_neg hint, List.append_assoc, List.append_assoc]
    rfl

theorem Whole.head? {whole : List Char} (h : Whole whole) (rest : List Char) :
    ∃ d, (whole ++ rest).head? = some d ∧ d.isDigit = true := by
  obtain ⟨d, ds, rfl⟩ := List.exists_cons_of_ne_nil h.ne_nil
  exact ⟨d, rfl, h.isDigit d List.mem_cons_self⟩

theorem Whole.head?_ne_minus {whole : List Char} (h : Whole whole) (rest : List Char) :
    (whole ++ rest).head? ≠ some '-' := by
  obtain ⟨d, hd, hdigit⟩ := h.head? rest
  rw [hd]
  rintro ⟨⟩
  contradiction

theorem Exponent.head? {e : ℤ} {exponent rest : List Char} (h : Exponent e exponent)
    (hr : Ends rest) : ∀ c ∈ (exponent ++ rest).head?, c.isDigit = false ∧ c ≠ '.' := by
  cases h with
  | none => exact fun c hc ↦ ⟨(hr c hc).1, (hr c hc).2.1⟩
  | mark hc => obtain rfl | rfl := hc <;> simp

theorem Fraction.head? {digits fraction rest : List Char} (h : Fraction digits fraction)
    (hr : ∀ c ∈ rest.head?, c.isDigit = false ∧ c ≠ '.') :
    ∀ c ∈ (fraction ++ rest).head?, c.isDigit = false := by
  cases h with
  | none => exact fun c hc ↦ (hr c hc).1
  | point => simp

theorem number_append {v : Json} {cs rest : List Char} (h : NumberText v cs) (hr : Ends rest) :
    number (cs ++ rest) = .ok (v, rest) := by
  cases h with
  | integer negative hwhole hshort =>
    have hhead := Exponent.none.head? hr
    rw [List.append_assoc, number_of_parts negative rfl (fun _ ↦ hwhole.head?_ne_minus rest)
      (takeWhole_append hwhole fun c hc ↦ (hhead c hc).1) (takeFraction_append .none hhead)
      (takeExponent_append .none hr), if_neg hwhole.ne_nil, if_pos ⟨rfl, rfl⟩,
      (parseInteger_whole negative hwhole).2 ⟨hshort, rfl⟩]
  | real negative hwhole hfraction hexponent hreal =>
    have hhead := hexponent.head? hr
    simp only [List.append_assoc]
    rw [number_of_parts negative rfl (fun _ ↦ hwhole.head?_ne_minus _)
      (takeWhole_append hwhole (hfraction.head? hhead)) (takeFraction_append hfraction hhead)
      (takeExponent_append hexponent hr), if_neg hwhole.ne_nil, if_neg (by tauto),
      ofChars?_of_parts negative hwhole hfraction hexponent]
    rfl

theorem exists_signChars (cs : List Char) : ∃ negative tail, cs = signChars negative ++ tail ∧
    (negative = false → tail.head? ≠ some '-') := by
  by_cases hminus : cs.head? = some '-'
  · obtain ⟨tail, rfl⟩ := List.head?_eq_some_iff.1 hminus
    exact ⟨true, tail, rfl, by simp⟩
  · exact ⟨false, cs, rfl, fun _ ↦ hminus⟩

theorem numberText_of_number {v : Json} {cs rest : List Char} (h : number cs = .ok (v, rest)) :
    ∃ used, cs = used ++ rest ∧ NumberText v used := by
  obtain ⟨negative, tail, rfl, htail⟩ := exists_signChars cs
  rcases hw : takeWhole tail with ⟨whole, rest₁⟩
  rcases hf : takeFraction rest₁ with ⟨fraction, rest₂⟩
  rcases he : takeExponent rest₂ with ⟨exponent, rest₃⟩
  rw [number_of_parts negative rfl htail hw hf he] at h
  by_cases hnil : whole = []
  · rw [if_pos hnil] at h
    cases h
  obtain ⟨rfl, hwhole⟩ := whole_of_takeWhole hw hnil
  obtain ⟨rfl, digits, hfraction⟩ := fraction_of_takeFraction hf
  obtain ⟨rfl, e, hexponent⟩ := exponent_of_takeExponent he
  rw [if_neg hnil] at h
  by_cases hint : fraction = [] ∧ exponent = []
  · rw [if_pos hint] at h
    obtain ⟨rfl, rfl⟩ := hint
    cases hparse : parseInteger (.ofList (signChars negative ++ whole)) with
    | error f =>
      rw [hparse] at h
      cases h
    | ok n =>
      obtain ⟨hshort, rfl⟩ := (parseInteger_whole negative hwhole).1 hparse
      simp only [hparse, Except.ok.injEq, Prod.mk.injEq] at h
      obtain ⟨rfl, rfl⟩ := h
      exact ⟨_, (List.append_assoc ..).symm, .integer negative hwhole hshort⟩
  · rw [if_neg hint, ofChars?_of_parts negative hwhole hfraction hexponent, Option.map_some,
      Option.getD_some, Except.ok.injEq, Prod.mk.injEq] at h
    obtain ⟨rfl, rfl⟩ := h
    exact ⟨_, by simp, .real negative hwhole hfraction hexponent (by tauto)⟩

end Numbers

end LittleLisp.Json
