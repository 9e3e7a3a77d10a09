import LittleLisp.Number.Numeral
import LittleLisp.Number.Printer
import LittleLisp.Token.Lexer
import Mathlib.Data.List.Basic
import Mathlib.Data.List.Induction
import Mathlib.Data.List.TakeWhile
import Mathlib.Tactic.Ring

/-!
Numerals, character by character. The digits, the sign and the exponent that the printer writes are
found again, and a numeral has only characters that a symbol can have.
-/

namespace LittleLisp

namespace Text

theorem toNat_of_isDigit {c : Char} (h : c.isDigit = true) : 48 ≤ c.toNat ∧ c.toNat ≤ 57 := by
  simp only [Char.isDigit, Bool.and_eq_true, decide_eq_true_eq] at h
  exact ⟨h.1, h.2⟩

theorem decimalValue?_of_isDigit {c : Char} (h : c.isDigit = true) :
    decimalValue? c = some (c.toNat - '0'.toNat) := by
  have hc : (decide (48 ≤ c.toNat) && decide (c.toNat < 48 + 10)) = true := by
    have := toNat_of_isDigit h
    simp only [Bool.and_eq_true, decide_eq_true_eq]
    omega
  simp only [decimalValue?, zeroDigits, List.find?_cons, hc]
  rfl

theorem isDecimal_of_isDigit {c : Char} (h : c.isDigit = true) : isDecimal c = true := by
  rw [isDecimal, decimalValue?_of_isDigit h, Option.isSome_some]

theorem forall_isDecimal {cs : List Char} (h : ∀ c ∈ cs, c.isDigit = true) :
    ∀ c ∈ cs, isDecimal c = true :=
  fun c hc ↦ isDecimal_of_isDigit (h c hc)

theorem decimalNumber_append (a b : List Char) :
    decimalNumber (a ++ b) = decimalNumber a * 10 ^ b.length + decimalNumber b := by
  induction b using List.reverseRecOn with
  | nil => simp [decimalNumber]
  | append_singleton b c ih =>
    simp only [decimalNumber, ← List.append_assoc, List.foldl_concat, List.length_append,
      List.length_singleton] at ih ⊢
    rw [ih]
    ring

theorem decimalNumber_replicate_zero (k : ℕ) : decimalNumber (List.replicate k '0') = 0 := by
  induction k with
  | zero => rfl
  | succ k ih =>
    rw [List.replicate_succ', decimalNumber_append, ih]
    rfl

theorem decimalNumber_eq_ofDigitChars {cs : List Char} (h : ∀ c ∈ cs, c.isDigit = true) :
    decimalNumber cs = Nat.ofDigitChars 10 cs 0 := by
  unfold decimalNumber Nat.ofDigitChars
  refine List.foldl_ext _ _ 0 fun n c hc ↦ ?_
  rw [decimalValue?_of_isDigit (h c hc), Option.getD_some]

theorem exists_of_isDecimal {c : Char} (h : isDecimal c = true) :
    ∃ z ∈ zeroDigits, z ≤ c.toNat ∧ c.toNat < z + 10 := by
  simp only [isDecimal, decimalValue?, Option.isSome_map, List.find?_isSome, Bool.and_eq_true,
    decide_eq_true_eq] at h
  exact h

theorem exists_of_isBlank {c : Char} (h : isBlank c = true) :
    ∃ r ∈ blankRanges, r.1 ≤ c.toNat ∧ c.toNat ≤ r.2 := by
  simp only [isBlank, inRanges] at h
  split at h
  case h_1 r hr =>
    exact ⟨r, List.mem_of_find?_eq_some hr, of_decide_eq_true h,
      by simpa using List.find?_some hr⟩
  case h_2 => cases h

theorem digits_apart_from_blanks :
    ∀ z ∈ zeroDigits, ∀ r ∈ blankRanges, z + 10 ≤ r.1 ∨ r.2 < z := by
  decide +kernel

theorem isBlank_of_isDecimal {c : Char} (h : isDecimal c = true) : isBlank c = false := by
  by_contra hb
  obtain ⟨z, hz, hzc⟩ := exists_of_isDecimal h
  obtain ⟨r, hr, hrc⟩ := exists_of_isBlank (Bool.eq_true_of_not_eq_false hb)
  have := digits_apart_from_blanks z hz r hr
  omega

section

variable {p : Char → Bool} {cs rest : List Char} (h : ∀ c ∈ cs, p c = true)
  (hr : ∀ c ∈ rest.head?, p c = false)

include h hr

theorem takeWhile_front : (cs ++ rest).takeWhile p = cs := by
  rw [List.takeWhile_append_of_pos h]
  cases rest with
  | nil => simp
  | cons c rest => rw [List.takeWhile_cons_of_neg (by simp [hr c rfl]), List.append_nil]

theorem dropWhile_front : (cs ++ rest).dropWhile p = rest := by
  rw [List.dropWhile_append_of_pos h]
  cases rest with
  | nil => rfl
  | cons c rest => exact List.dropWhile_cons_of_neg (by simp [hr c rfl])

end

end Text

namespace Decimal

open Text

theorem isDigit_of_mem_digitChars {n : ℕ} {c : Char} (h : c ∈ digitChars n) : c.isDigit = true :=
  Nat.isDigit_of_mem_toDigits (by norm_num) le_rfl h

theorem decimalNumber_digitChars (n : ℕ) : decimalNumber (digitChars n) = n := by
  rw [decimalNumber_eq_ofDigitChars fun c hc ↦ isDigit_of_mem_digitChars hc, digitChars,
    Nat.ofDigitChars_toDigits (by norm_num) le_rfl]

end Decimal

namespace Numeral

open Text Decimal Binary64 Lexer

theorem takeSign_signChars (negative : Bool) {whole rest : List Char}
    (hw : ∀ c ∈ whole, c.isDigit = true) (hne : whole ≠ []) :
    takeSign (signChars negative ++ (whole ++ rest)) = (negative, whole ++ rest) := by
  obtain ⟨c, cs, rfl⟩ := List.exists_cons_of_ne_nil hne
  have hc := hw c List.mem_cons_self
  cases negative with
  | true => rfl
  | false =>
    simp only [signChars, Bool.false_eq_true, if_false, List.nil_append, List.cons_append]
    unfold takeSign
    split
    case h_1 heq => cases heq; exact absurd hc (by decide)
    case h_2 heq => cases heq; exact absurd hc (by decide)
    case h_3 => rfl

section

variable {whole fraction rest : List Char} (hw : ∀ c ∈ whole, isDecimal c = true)
  (hr : ∀ c ∈ rest.head?, isDecimal c = false)

include hw hr

theorem takeDigits_whole (hne : whole ≠ []) (hp : rest.head? ≠ some '.') :
    takeDigits (whole ++ rest) = some (whole, [], rest) := by
  simp only [takeDigits, takeWhile_front hw hr, dropWhile_front hw hr]
  split
  case h_1 => exact absurd rfl hp
  case h_2 => rw [if_neg hne]

theorem takeDigits_point (hf : ∀ c ∈ fraction, isDecimal c = true)
    (hne : ¬ (whole = [] ∧ fraction = [])) :
    takeDigits (whole ++ '.' :: (fraction ++ rest)) = some (whole, fraction, rest) := by
  have hpoint : ∀ c ∈ ('.' :: (fraction ++ rest)).head?, isDecimal c = false := by
    simp only [List.head?_cons, Option.mem_some_iff, forall_eq']
    decide
  simp only [takeDigits, takeWhile_front hw hpoint, dropWhile_front hw hpoint,
    takeWhile_front hf hr, dropWhile_front hf hr, if_neg hne]

end

theorem exponent?_exponentChars (e : ℤ) :
    exponent? ('e' :: exponentChars e) = some e := by
  let digits := if (digitChars e.natAbs).length < 2 then '0' :: digitChars e.natAbs
    else digitChars e.natAbs
  have hall : digits.all isDecimal = true := by
    rw [List.all_eq_true]
    intro c hc
    refine isDecimal_of_isDigit ?_
    simp only [digits] at hc
    split at hc
    · rcases List.mem_cons.1 hc with rfl | hc
      · rfl
      · exact isDigit_of_mem_digitChars hc
    · exact isDigit_of_mem_digitChars hc
  have hne : digits ≠ [] := by
    simp only [digits]
    split
    · exact List.cons_ne_nil _ _
    · exact Nat.toDigits_ne_nil
  have hval : decimalNumber digits = e.natAbs := by
    simp only [digits]
    split
    · rw [← List.singleton_append, decimalNumber_append, decimalNumber_digitChars]
      simp [show decimalNumber ['0'] = 0 from rfl]
    · exact decimalNumber_digitChars _
  have hchars : exponentChars e = (if e < 0 then '-' else '+') :: digits := rfl
  have hsign : takeSign (exponentChars e) = (decide (e < 0), digits) := by
    rw [hchars]
    by_cases he : e < 0 <;> simp [he, takeSign]
  simp only [exponent?, hsign, hall, hne, hval, true_or, if_true, ne_eq, not_false_eq_true,
    true_and, decide_eq_true_eq, Option.some.injEq]
  split <;> omega

theorem ofChars?_of_parts {cs digits tail whole fraction : List Char} {negative : Bool} {e : ℤ}
    (hs : takeSign cs = (negative, digits)) (hd : takeDigits digits = some (whole, fraction, tail))
    (he : exponent? tail = some e) : ofChars? cs = some ⟨negative, whole, fraction, e⟩ := by
  simp [ofChars?, hs, hd, he]

section

variable {whole fraction : List Char} (negative : Bool) (hw : ∀ c ∈ whole, c.isDigit = true)
  (hne : whole ≠ []) (hf : ∀ c ∈ fraction, c.isDigit = true)

include hw hne

theorem ofChars?_whole :
    ofChars? (signChars negative ++ whole) = some ⟨negative, whole, [], 0⟩ := by
  have hs : takeSign (signChars negative ++ (whole ++ [])) = (negative, whole ++ []) :=
    takeSign_signChars negative hw hne
  have hd : takeDigits (whole ++ []) = some (whole, [], []) :=
    takeDigits_whole (forall_isDecimal hw) (by simp) hne (by simp)
  rw [List.append_nil] at hs hd
  exact ofChars?_of_parts hs hd rfl

theorem ofChars?_whole_exponent (e : ℤ) :
    ofChars? (signChars negative ++ (whole ++ 'e' :: exponentChars e)) =
      some ⟨negative, whole, [], e⟩ :=
  ofChars?_of_parts (takeSign_signChars negative hw hne)
    (takeDigits_whole (forall_isDecimal hw) (by simp; decide) hne (by simp)) (exponent?_exponentChars e)

include hf

theorem ofChars?_point :
    ofChars? (signChars negative ++ (whole ++ '.' :: fraction)) =
      some ⟨negative, whole, fraction, 0⟩ := by
  have hd : takeDigits (whole ++ '.' :: (fraction ++ [])) = some (whole, fraction, []) :=
    takeDigits_point (forall_isDecimal hw) (by simp) (forall_isDecimal hf) (hne ·.1)
  rw [List.append_nil] at hd
  exact ofChars?_of_parts (takeSign_signChars negative hw hne) hd rfl

theorem ofChars?_point_exponent (e : ℤ) :
    ofChars? (signChars negative ++ (whole ++ '.' :: (fraction ++ 'e' :: exponentChars e))) =
      some ⟨negative, whole, fraction, e⟩ :=
  ofChars?_of_parts (takeSign_signChars negative hw hne)
    (takeDigits_point (forall_isDecimal hw) (by simp; decide) (forall_isDecimal hf) (hne ·.1))
    (exponent?_exponentChars e)

end

theorem mem_takeSign {cs : List Char} {c : Char} (h : c ∈ cs) :
    c = '+' ∨ c = '-' ∨ c ∈ (takeSign cs).2 := by
  unfold takeSign
  split
  case h_1 => simpa using (List.mem_cons.1 h).imp_right .inr
  case h_2 => simpa using .inr (List.mem_cons.1 h)
  case h_3 => exact .inr (.inr h)

theorem mem_takeDigits {cs whole fraction rest : List Char} {c : Char}
    (hd : takeDigits cs = some (whole, fraction, rest)) (h : c ∈ cs) :
    isDecimal c = true ∨ c = '.' ∨ c ∈ rest := by
  rw [← List.takeWhile_append_dropWhile (p := isDecimal) (l := cs), List.mem_append] at h
  rcases h with h | h
  · exact .inl (List.mem_takeWhile_imp h)
  simp only [takeDigits] at hd
  split at hd
  case h_1 tail htail =>
    split at hd
    case isTrue => cases hd
    case isFalse =>
      cases hd
      rw [htail] at h
      rcases List.mem_cons.1 h with rfl | h
      · exact .inr (.inl rfl)
      rw [← List.takeWhile_append_dropWhile (p := isDecimal) (l := tail), List.mem_append] at h
      exact h.imp List.mem_takeWhile_imp .inr
  case h_2 =>
    split at hd
    case isTrue => cases hd
    case isFalse => cases hd; exact .inr (.inr h)

theorem mem_exponent {cs : List Char} {e : ℤ} {c : Char} (he : exponent? cs = some e)
    (h : c ∈ cs) : isDecimal c = true ∨ c ∈ ['e', 'E', '+', '-'] := by
  cases cs with
  | nil => cases h
  | cons c' cs =>
    simp only [exponent?] at he
    split at he
    case isFalse => cases he
    case isTrue hc =>
      split at he
      case isFalse => cases he
      case isTrue hdigits =>
        rcases List.mem_cons.1 h with rfl | h
        · rcases hc with rfl | rfl <;> simp
        · rcases mem_takeSign h with rfl | rfl | h
          · simp
          · simp
          · exact .inl (List.all_eq_true.1 hdigits.2 c h)

theorem mem_of_ofChars? {cs : List Char} {n : Numeral} {c : Char} (hn : ofChars? cs = some n)
    (h : c ∈ cs) : isDecimal c = true ∨ c ∈ ['.', 'e', 'E', '+', '-'] := by
  simp only [ofChars?, Option.bind_eq_bind, Option.bind_eq_some_iff] at hn
  obtain ⟨⟨whole, fraction, rest⟩, hd, e, he, -⟩ := hn
  rcases mem_takeSign h with rfl | rfl | h
  · simp
  · simp
  rcases mem_takeDigits hd h with h | rfl | h
  · exact .inl h
  · simp
  · exact (mem_exponent he h).imp_right (List.mem_cons_of_mem '.')

theorem isSymbolPoint_of_mem {cs : List Char} {n : Numeral} {c : Char}
    (hn : ofChars? cs = some n) (h : c ∈ cs) : isSymbolPoint (.scalar c) = true := by
  rcases mem_of_ofChars? hn h with hdec | hmark
  · have hblank : CodePoint.isBlank (.scalar c) = false := isBlank_of_isDecimal hdec
    have hne : ∀ d : Char, isDecimal d = false → c ≠ d := by
      rintro d hd rfl
      exact absurd hdec (by simp [hd])
    simp only [isSymbolPoint, hblank, isDelimiter, CodePoint.scalar.injEq, Bool.not_false,
      Bool.true_and, Bool.not_eq_true', Bool.or_eq_false_iff, decide_eq_false_iff_not]
    exact ⟨⟨⟨⟨hne _ (by decide), hne _ (by decide)⟩, hne _ (by decide)⟩, hne _ (by decide)⟩,
      hne _ (by decide)⟩
  · have hmarks : ∀ c ∈ ['.', 'e', 'E', '+', '-'], isSymbolPoint (.scalar c) = true :=
      List.all_eq_true.1 rfl
    exact hmarks c hmark

end Numeral

end LittleLisp
