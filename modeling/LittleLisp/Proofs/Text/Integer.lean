import LittleLisp.Proofs.Number.Numeral
import LittleLisp.Text.Integer
import Mathlib.Data.List.TakeDrop

/-!
Which texts are integer literals, and what they denote: blanks, a sign or none, digits of any script
with single underscores between them, blanks. No more digits are taken than the limit allows.
-/

namespace LittleLisp.Text

/-- Digits with single underscores between them, and the digits alone. -/
inductive Grouped : List Char → List Char → Prop
  | digit {d : Char} (h : isDecimal d = true) : Grouped [d] [d]
  | next {d : Char} {cs ds : List Char} (h : isDecimal d = true) (hg : Grouped cs ds) :
    Grouped (d :: cs) (d :: ds)
  | underscore {d : Char} {cs ds : List Char} (h : isDecimal d = true) (hg : Grouped cs ds) :
    Grouped (d :: '_' :: cs) (d :: ds)

inductive Signed : List Char → Bool → Prop
  | none : Signed [] false
  | plus : Signed ['+'] false
  | minus : Signed ['-'] true

inductive IntegerLiteral : List Char → Int → Prop
  | intro {before sign body after digits : List Char} {negative : Bool}
    (hbefore : ∀ c ∈ before, isLiteralBlank c = true) (hsign : Signed sign negative)
    (hbody : Grouped body digits) (hshort : digits.length ≤ maxDigits)
    (hafter : ∀ c ∈ after, isLiteralBlank c = true) :
    IntegerLiteral (before ++ (sign ++ (body ++ after)))
      (if negative then -(decimalNumber digits : Int) else decimalNumber digits)

theorem isLiteralBlank_of_isDecimal {c : Char} (h : isDecimal c = true) :
    isLiteralBlank c = false := by
  rw [isLiteralBlank, isBlank_of_isDecimal h, Bool.false_and]

def isPart (c : Char) : Bool := isDecimal c || c = '_'

theorem isPart_of_isLiteralBlank {c : Char} (h : isLiteralBlank c = true) : isPart c = false := by
  by_contra hp
  rw [Bool.not_eq_false, isPart, Bool.or_eq_true, decide_eq_true_eq] at hp
  obtain hd | rfl := hp
  · rw [isLiteralBlank_of_isDecimal hd] at h
    contradiction
  · exact absurd h (by decide)

namespace Grouped

variable {cs ds : List Char}

theorem exists_cons (h : Grouped cs ds) : ∃ d cs', cs = d :: cs' ∧ isDecimal d = true := by
  cases h with
  | digit h => exact ⟨_, _, rfl, h⟩
  | next h => exact ⟨_, _, rfl, h⟩
  | underscore h => exact ⟨_, _, rfl, h⟩

theorem isPart (h : Grouped cs ds) : ∀ c ∈ cs, isPart c = true := by
  induction h with
  | digit h => simp [Text.isPart, h]
  | next h _ ih => simpa [Text.isPart, h] using ih
  | underscore h _ ih => simpa [Text.isPart, h] using ih

theorem filter_eq (h : Grouped cs ds) : cs.filter isDecimal = ds := by
  have hu : isDecimal '_' = false := by decide
  induction h with
  | digit h => simp [h]
  | next h _ ih => rw [List.filter_cons_of_pos h, ih]
  | underscore h _ ih =>
    rw [List.filter_cons_of_pos h, List.filter_cons_of_neg (by simp [hu]), ih]

theorem wellGrouped (h : Grouped cs ds) (afterDigit : Bool) :
    wellGrouped afterDigit cs = true := by
  have hne : ∀ {d : Char}, isDecimal d = true → d ≠ '_' := by
    rintro d hd rfl
    exact absurd hd (by decide)
  induction h generalizing afterDigit with
  | digit h => simp [Text.wellGrouped, hne h]
  | next h _ ih => simp [Text.wellGrouped, hne h, ih]
  | underscore h _ ih => simp [Text.wellGrouped, hne h, ih]

theorem of_wellGrouped (hp : ∀ c ∈ cs, Text.isPart c = true) :
    (Text.wellGrouped false cs = true → Grouped cs (cs.filter isDecimal)) ∧
      (Text.wellGrouped true cs = true → cs = [] ∨ Grouped cs (cs.filter isDecimal) ∨
        ∃ cs', cs = '_' :: cs' ∧ Grouped cs' (cs'.filter isDecimal)) := by
  induction cs with
  | nil => simp [Text.wellGrouped]
  | cons c cs ih =>
    obtain ⟨ihf, iht⟩ := ih fun c hc ↦ hp c (List.mem_cons_of_mem _ hc)
    by_cases hc : c = '_'
    · subst hc
      simp only [Text.wellGrouped, if_true, Bool.false_and, Bool.true_and]
      exact ⟨fun h ↦ by contradiction, fun h ↦ .inr (.inr ⟨cs, rfl, ihf h⟩)⟩
    · have hd : isDecimal c = true := by
        simpa [Text.isPart, hc] using hp c List.mem_cons_self
      have hg : Text.wellGrouped true cs = true →
          Grouped (c :: cs) ((c :: cs).filter isDecimal) := by
        intro h
        rw [List.filter_cons_of_pos hd]
        obtain rfl | hg | ⟨cs', rfl, hg⟩ := iht h
        · exact .digit hd
        · exact .next hd hg
        · rw [List.filter_cons_of_neg (by decide)]
          exact .underscore hd hg
      simp only [Text.wellGrouped, if_neg hc]
      exact ⟨hg, fun h ↦ .inr (.inl (hg h))⟩

theorem of_isDecimal (hne : cs ≠ []) (h : ∀ c ∈ cs, isDecimal c = true) : Grouped cs cs := by
  induction cs with
  | nil => contradiction
  | cons c cs ih =>
    obtain rfl | hcs := eq_or_ne cs []
    · exact .digit (h c List.mem_cons_self)
    · exact .next (h c List.mem_cons_self) (ih hcs fun c hc ↦ h c (List.mem_cons_of_mem _ hc))

end Grouped

theorem exists_signed (cs : List Char) :
    ∃ sign negative body, cs = sign ++ body ∧ Signed sign negative ∧
      (sign = [] → body.head? ≠ some '-' ∧ body.head? ≠ some '+') := by
  by_cases hm : cs.head? = some '-'
  · obtain ⟨tail, rfl⟩ := List.head?_eq_some_iff.1 hm
    exact ⟨_, _, tail, rfl, .minus, by simp⟩
  by_cases hp : cs.head? = some '+'
  · obtain ⟨tail, rfl⟩ := List.head?_eq_some_iff.1 hp
    exact ⟨_, _, tail, rfl, .plus, by simp⟩
  exact ⟨_, _, cs, rfl, .none, fun _ ↦ ⟨hm, hp⟩⟩

theorem parseInteger_eq_ok_iff_of_signed {text : String} {sign body : List Char} {negative : Bool}
    {n : Int} (hdrop : text.toList.dropWhile isLiteralBlank = sign ++ body)
    (hs : Signed sign negative)
    (hbody : sign = [] → body.head? ≠ some '-' ∧ body.head? ≠ some '+') :
    parseInteger text = .ok n ↔
      wellGrouped false (body.takeWhile isPart) = true ∧
        ((body.takeWhile isPart).filter isDecimal).length ≤ maxDigits ∧
        (∀ c ∈ body.dropWhile isPart, isLiteralBlank c = true) ∧
        (if negative then -(decimalNumber ((body.takeWhile isPart).filter isDecimal) : Int)
          else decimalNumber ((body.takeWhile isPart).filter isDecimal)) = n := by
  have hparse : parseInteger text =
      if !wellGrouped false (body.takeWhile isPart) then .error (.invalid text)
      else if maxDigits < ((body.takeWhile isPart).filter isDecimal).length then
        .error (.tooManyDigits ((body.takeWhile isPart).filter isDecimal).length)
      else if !(body.dropWhile isPart).all isLiteralBlank then .error (.invalid text)
      else .ok (if negative then -(decimalNumber ((body.takeWhile isPart).filter isDecimal) : Int)
        else decimalNumber ((body.takeWhile isPart).filter isDecimal)) := by
    unfold parseInteger
    rw [hdrop]
    cases hs with
    | plus => rfl
    | minus => rfl
    | none =>
      obtain ⟨hm, hp⟩ := hbody rfl
      rw [List.nil_append]
      cases body with
      | nil => rfl
      | cons c body =>
        rw [List.head?_cons, ne_eq, Option.some_inj] at hm hp
        simp only [List.cons.injEq, hm, hp, false_and, imp_self, implies_true]
        rfl
  rw [hparse]
  split_ifs with hg hl ha <;> simp_all

theorem parseInteger_eq_ok_iff_of_grouped {text : String}
    {before sign body after digits : List Char} {negative : Bool} {n : Int}
    (htext : text.toList = before ++ (sign ++ (body ++ after)))
    (hbefore : ∀ c ∈ before, isLiteralBlank c = true) (hsign : Signed sign negative)
    (hbody : Grouped body digits) (hafter : ∀ c ∈ after, isLiteralBlank c = true) :
    parseInteger text = .ok n ↔ digits.length ≤ maxDigits ∧
      (if negative then -(decimalNumber digits : Int) else decimalNumber digits) = n := by
  obtain ⟨d, body', hd, hdec⟩ := hbody.exists_cons
  have hstart : ∀ c ∈ (sign ++ (body ++ after)).head?, isLiteralBlank c = false := by
    cases hsign with
    | none => simpa [hd] using isLiteralBlank_of_isDecimal hdec
    | plus => simp; decide
    | minus => simp; decide
  have hdrop : text.toList.dropWhile isLiteralBlank = sign ++ (body ++ after) := by
    rw [htext, dropWhile_front hbefore hstart]
  have hrest : ∀ c ∈ after.head?, isPart c = false := fun c hc ↦
    isPart_of_isLiteralBlank (hafter c (List.mem_of_mem_head? hc))
  have hfree : sign = [] →
      (body ++ after).head? ≠ some '-' ∧ (body ++ after).head? ≠ some '+' := by
    intro
    have hsigns : isDecimal '-' = false ∧ isDecimal '+' = false := by decide
    rw [hd, List.cons_append, List.head?_cons, ne_eq, ne_eq, Option.some_inj, Option.some_inj]
    exact ⟨fun h ↦ by simp [h, hsigns] at hdec, fun h ↦ by simp [h, hsigns] at hdec⟩
  rw [parseInteger_eq_ok_iff_of_signed hdrop hsign hfree, takeWhile_front hbody.isPart hrest,
    dropWhile_front hbody.isPart hrest, hbody.filter_eq]
  exact ⟨fun ⟨_, hl, _, hn⟩ ↦ ⟨hl, hn⟩, fun ⟨hl, hn⟩ ↦ ⟨hbody.wellGrouped false, hl, hafter, hn⟩⟩

theorem parseInteger_eq_ok_iff (text : String) (n : Int) :
    parseInteger text = .ok n ↔ IntegerLiteral text.toList n := by
  constructor
  · intro h
    obtain ⟨sign, negative, body, hdrop, hs, hbody⟩ :=
      exists_signed (text.toList.dropWhile isLiteralBlank)
    obtain ⟨hg, hl, ha, rfl⟩ := (parseInteger_eq_ok_iff_of_signed hdrop hs hbody).1 h
    have hblank : ∀ c ∈ text.toList.takeWhile isLiteralBlank, isLiteralBlank c = true :=
      fun c ↦ List.mem_takeWhile_imp
    have hpart : ∀ c ∈ body.takeWhile isPart, isPart c = true := fun c ↦ List.mem_takeWhile_imp
    have hlit := IntegerLiteral.intro hblank hs ((Grouped.of_wellGrouped hpart).1 hg) hl ha
    rwa [List.takeWhile_append_dropWhile, ← hdrop, List.takeWhile_append_dropWhile] at hlit
  · intro h
    generalize hcs : text.toList = cs at h
    cases h with
    | intro hbefore hsign hbody hshort hafter =>
      exact (parseInteger_eq_ok_iff_of_grouped hcs hbefore hsign hbody hafter).2 ⟨hshort, rfl⟩

theorem integerLiteral_digitChars {k : ℕ} (h : (Decimal.digitChars k).length ≤ maxDigits) :
    IntegerLiteral (Decimal.digitChars k) k := by
  have hd : ∀ c ∈ Decimal.digitChars k, isDecimal c = true := fun c hc ↦
    isDecimal_of_isDigit (Decimal.isDigit_of_mem_digitChars hc)
  have hne : Decimal.digitChars k ≠ [] := Nat.toDigits_ne_nil
  have hnone : ∀ c ∈ ([] : List Char), isLiteralBlank c = true := by simp
  simpa [Decimal.decimalNumber_digitChars] using
    IntegerLiteral.intro hnone .none (.of_isDecimal hne hd) h hnone

end LittleLisp.Text
