import LittleLisp.Proofs.Number.Numeral
import LittleLisp.Proofs.Number.Shortest

/-!
Reading printed numbers. A finite number prints as a numeral whose value is the number again, up to
the sign of zero. Each of the three layouts of a decimal is a numeral of the same rational value,
so all of them round alike.
-/

namespace LittleLisp

namespace Decimal

open Text

def toRat (d : Decimal) : ℚ := (d.digits : ℚ) * 10 ^ d.exponent

theorem digitChars_eq_significant (n : ℕ) :
    ∃ k, digitChars n = significant n ++ List.replicate k '0' := by
  refine ⟨((digitChars n).reverse.takeWhile (· = '0')).length, ?_⟩
  have hzeros : (digitChars n).reverse.takeWhile (· = '0') =
      List.replicate ((digitChars n).reverse.takeWhile (· = '0')).length '0' :=
    List.eq_replicate_of_mem fun c hc ↦ by simpa using List.mem_takeWhile_imp hc
  calc digitChars n = ((digitChars n).reverse.takeWhile (· = '0') ++
          (digitChars n).reverse.dropWhile (· = '0')).reverse := by
        rw [List.takeWhile_append_dropWhile, List.reverse_reverse]
    _ = significant n ++ ((digitChars n).reverse.takeWhile (· = '0')).reverse := by
        rw [List.reverse_append, significant]
    _ = _ := by rw [← List.reverse_replicate, ← hzeros]

theorem isDigit_of_mem_significant {n : ℕ} {c : Char} (h : c ∈ significant n) :
    c.isDigit = true := by
  obtain ⟨k, hk⟩ := digitChars_eq_significant n
  exact isDigit_of_mem_digitChars (by rw [hk]; exact List.mem_append_left _ h)

theorem toRat_eq_significant (d : Decimal) :
    d.toRat = decimalNumber (significant d.digits) *
      10 ^ (d.exponent + (digitChars d.digits).length - 1 + 1 - (significant d.digits).length) := by
  obtain ⟨k, hk⟩ := digitChars_eq_significant d.digits
  have hval : d.digits = decimalNumber (significant d.digits) * 10 ^ k := by
    have h := decimalNumber_append (significant d.digits) (List.replicate k '0')
    rw [← hk, decimalNumber_digitChars, decimalNumber_replicate_zero, List.length_replicate] at h
    simpa using h
  have hlen : (digitChars d.digits).length = (significant d.digits).length + k := by
    rw [hk, List.length_append, List.length_replicate]
  have hexp : d.exponent + (digitChars d.digits).length - 1 + 1 - (significant d.digits).length =
      d.exponent + k := by
    rw [hlen]
    push_cast
    ring
  rw [hexp, zpow_add₀ (by norm_num), zpow_natCast, toRat]
  nth_rewrite 1 [hval]
  push_cast
  ring

end Decimal

namespace Numeral

open Text Decimal Binary64

def toRat (n : Numeral) : ℚ :=
  (decimalNumber (n.whole ++ n.fraction) : ℚ) * 10 ^ (n.exponent - n.fraction.length)

theorem value_eq {n : Numeral} {d : Decimal} (hd : d.digits ≠ 0) (h : n.toRat = d.toRat) :
    n.value = .ofDecimal n.negative d.digits d.exponent := by
  refine ofDecimal_congr n.negative ?_ hd h
  intro hz
  have hpos : (0 : ℚ) < d.digits := by positivity
  rw [toRat, hz, Nat.cast_zero, zero_mul, Decimal.toRat] at h
  exact absurd h.symm (by positivity)

end Numeral

namespace Decimal

open Text Numeral Binary64

theorem significant_ne_nil {n : ℕ} (hn : n ≠ 0) : significant n ≠ [] := by
  intro hnil
  obtain ⟨k, hk⟩ := digitChars_eq_significant n
  have h := decimalNumber_digitChars n
  rw [hk, hnil, List.nil_append, decimalNumber_replicate_zero] at h
  exact hn h.symm

/-- The characters after a sign make a numeral of the given value. -/
def Denotes (negative : Bool) (cs : List Char) (value : ℚ) : Prop :=
  ∃ n, Numeral.ofChars? (signChars negative ++ cs) = some n ∧ n.negative = negative ∧
    n.toRat = value

section

variable {digits : List Char} (negative : Bool) (hdigit : ∀ c ∈ digits, c.isDigit = true)
  (hne : digits ≠ []) (leading : ℤ)

include hdigit

theorem isDigit_of_mem_padded {k : ℕ} {c : Char}
    (h : c ∈ digits ∨ c ∈ List.replicate k '0') : c.isDigit = true := by
  rcases h with h | h
  · exact hdigit c h
  · rw [List.eq_of_mem_replicate h]
    rfl

theorem denotes_fraction (hlead : leading < 0) :
    Denotes negative ('0' :: '.' :: List.replicate (-leading - 1).toNat '0' ++ digits)
      (decimalNumber digits * 10 ^ (leading + 1 - digits.length)) := by
  have hf : ∀ c ∈ List.replicate (-leading - 1).toNat '0' ++ digits, c.isDigit = true :=
    fun c hc ↦ isDigit_of_mem_padded hdigit (List.mem_append.1 hc).symm
  have hw : ∀ c ∈ ['0'], c.isDigit = true := List.all_eq_true.1 rfl
  refine ⟨⟨negative, ['0'], List.replicate (-leading - 1).toNat '0' ++ digits, 0⟩,
    ofChars?_point negative hw (List.cons_ne_nil _ _) hf, rfl, ?_⟩
  have hexp : (0 : ℤ) - (List.replicate (-leading - 1).toNat '0' ++ digits).length =
      leading + 1 - digits.length := by
    rw [List.length_append, List.length_replicate]
    omega
  have hval : decimalNumber (['0'] ++ (List.replicate (-leading - 1).toNat '0' ++ digits)) =
      decimalNumber digits := by
    rw [← List.append_assoc, List.singleton_append, ← List.replicate_succ, decimalNumber_append,
      decimalNumber_replicate_zero, Nat.zero_mul, Nat.zero_add]
  simp only [Numeral.toRat, hexp, hval]

include hne

theorem denotes_scientific :
    Denotes negative (digits.take 1 ++ (if 1 < digits.length then '.' :: digits.drop 1 else []) ++
      'e' :: exponentChars leading)
      (decimalNumber digits * 10 ^ (leading + 1 - digits.length)) := by
  obtain ⟨c, cs, rfl⟩ := List.exists_cons_of_ne_nil hne
  have hw : ∀ c' ∈ [c], c'.isDigit = true := by simpa using hdigit c List.mem_cons_self
  by_cases h1 : 1 < (c :: cs).length
  · have hf : ∀ c' ∈ cs, c'.isDigit = true := fun c' hc ↦ hdigit c' (List.mem_cons_of_mem c hc)
    refine ⟨⟨negative, [c], cs, leading⟩, ?_, rfl, ?_⟩
    · rw [if_pos h1, List.append_assoc]
      exact ofChars?_point_exponent negative hw (List.cons_ne_nil c []) hf leading
    · simp only [Numeral.toRat, List.singleton_append, List.length_cons, Nat.cast_succ,
        add_sub_add_right_eq_sub]
  · obtain rfl : cs = [] := by simpa using h1
    refine ⟨⟨negative, [c], [], leading⟩, ?_, rfl, ?_⟩
    · rw [if_neg h1, List.append_nil]
      exact ofChars?_whole_exponent negative hw (List.cons_ne_nil c []) leading
    · simp [Numeral.toRat]

theorem denotes_positional (hlead : 0 ≤ leading) :
    Denotes negative (digits.take (leading.toNat + 1) ++
      List.replicate (leading.toNat + 1 - digits.length) '0' ++ '.' ::
        (if leading.toNat + 1 < digits.length then digits.drop (leading.toNat + 1) else ['0']))
      (decimalNumber digits * 10 ^ (leading + 1 - digits.length)) := by
  obtain ⟨p, hp⟩ : ∃ p : ℕ, leading + 1 = p := ⟨leading.toNat + 1, by omega⟩
  have hplaces : leading.toNat + 1 = p := by omega
  rw [hplaces, hp]
  by_cases h : p < digits.length
  · -- The point stands among the digits.
    have hw : ∀ c ∈ digits.take p, c.isDigit = true := fun c hc ↦ hdigit c (List.mem_of_mem_take hc)
    have hf : ∀ c ∈ digits.drop p, c.isDigit = true := fun c hc ↦ hdigit c (List.mem_of_mem_drop hc)
    have hwne : digits.take p ≠ [] := by
      rw [← List.length_pos_iff, List.length_take]
      omega
    refine ⟨⟨negative, digits.take p, digits.drop p, 0⟩, ?_, rfl, ?_⟩
    · rw [if_pos h, Nat.sub_eq_zero_of_le h.le, List.replicate_zero, List.append_nil]
      exact ofChars?_point negative hw hwne hf
    · have hexp : (0 : ℤ) - (digits.drop p).length = p - digits.length := by
        rw [List.length_drop]
        omega
      simp only [Numeral.toRat, List.take_append_drop, hexp]
  · -- Zeros fill the places up to the point.
    have hlen : digits.length ≤ p := not_lt.1 h
    have hw : ∀ c ∈ digits ++ List.replicate (p - digits.length) '0', c.isDigit = true :=
      fun c hc ↦ isDigit_of_mem_padded hdigit (List.mem_append.1 hc)
    refine ⟨⟨negative, digits ++ List.replicate (p - digits.length) '0', ['0'], 0⟩, ?_, rfl, ?_⟩
    · rw [if_neg h, List.take_of_length_le hlen]
      exact ofChars?_point negative hw (List.append_ne_nil_of_left_ne_nil hne _)
        (List.all_eq_true.1 rfl)
    · have hval : decimalNumber (digits ++ List.replicate (p - digits.length) '0' ++ ['0']) =
          decimalNumber digits * 10 ^ (p - digits.length + 1) := by
        rw [List.append_assoc, ← List.replicate_succ', decimalNumber_append,
          decimalNumber_replicate_zero, List.length_replicate, Nat.add_zero]
      have hexp : (p : ℤ) - digits.length = ((p - digits.length + 1 : ℕ) : ℤ) + (0 - 1) := by
        omega
      simp only [Numeral.toRat, hval, List.length_singleton, Nat.cast_one]
      rw [hexp, zpow_add₀ (by norm_num), zpow_natCast]
      push_cast
      ring

end

theorem denotes_chars (negative : Bool) (d : Decimal) (hd : d.digits ≠ 0) :
    Denotes negative d.chars d.toRat := by
  have hne := significant_ne_nil hd
  have hdigit : ∀ c ∈ significant d.digits, c.isDigit = true :=
    fun c hc ↦ isDigit_of_mem_significant hc
  simp only [chars, toRat_eq_significant d]
  split
  case isTrue => exact denotes_scientific negative hdigit hne _
  case isFalse =>
    split
    case isTrue h => exact denotes_fraction negative hdigit _ h
    case isFalse h => exact denotes_positional negative hdigit hne _ (not_lt.1 h)

end Decimal

namespace Binary64

open Text Decimal

theorem equal_self (negative : Bool) (x : Magnitude) :
    equal (.finite negative x) (.finite negative x) = true := by
  simp [equal]

theorem print_integer {negative : Bool} {x : Magnitude} (h : x.numerator % x.denominator = 0) :
    ∃ sign, (negative = sign ∨ x.mantissa = 0) ∧
      print (.finite negative x) =
        signChars sign ++ digitChars (x.numerator / x.denominator) := by
  generalize hq : x.numerator / x.denominator = q
  have hint : integer? (.finite negative x) = some (if negative then -(q : ℤ) else q) := by
    simp only [integer?, h, if_true, hq]
  have habs : (if negative then -(q : ℤ) else q).natAbs = q := by split <;> simp
  refine ⟨decide ((if negative then -(q : ℤ) else q) < 0), ?_, ?_⟩
  · rcases Nat.eq_zero_or_pos q with rfl | hpos
    · have hnum : x.numerator = 0 := by
        rw [← Nat.div_add_mod x.numerator x.denominator, hq, h, Nat.mul_zero]
      exact .inr (by simpa [Magnitude.numerator] using hnum)
    · refine .inl ?_
      cases negative <;> simp [hpos]
  · simp only [print, hint, intChars, habs]

theorem print_fraction {negative : Bool} {x : Magnitude} (h : x.numerator % x.denominator ≠ 0) :
    x.mantissa ≠ 0 ∧ x.exponent < 0 ∧
      print (.finite negative x) = signChars negative ++ (shortest x).chars := by
  have hm : x.mantissa ≠ 0 := by
    rintro hm
    exact h (by simp [Magnitude.numerator, hm])
  have he : x.exponent < 0 := by
    by_contra he
    have hz : (-x.exponent).toNat = 0 := by omega
    exact h (by simp [Magnitude.denominator, hz, Nat.mod_one])
  refine ⟨hm, he, ?_⟩
  simp only [print, integer?, h, if_false, describe, hm]

theorem ofChars?_print (negative : Bool) (x : Magnitude) :
    ∃ n, Numeral.ofChars? (print (.finite negative x)) = some n ∧
      n.value.equal (.finite negative x) = true := by
  by_cases h : x.numerator % x.denominator = 0
  · obtain ⟨sign, hsign, htext⟩ := @print_integer negative x h
    have hw : ∀ c ∈ digitChars (x.numerator / x.denominator), c.isDigit = true :=
      fun c hc ↦ isDigit_of_mem_digitChars hc
    refine ⟨_, by rw [htext]; exact Numeral.ofChars?_whole sign hw Nat.toDigits_ne_nil, ?_⟩
    simp only [Numeral.value, List.append_nil, decimalNumber_digitChars, List.length_nil,
      Nat.cast_zero, sub_zero]
    by_cases hm : x.mantissa = 0
    · have hq : x.numerator / x.denominator = 0 := by simp [Magnitude.numerator, hm]
      simp [hq, ofDecimal, equal, zero, hm, Magnitude.zero]
    · obtain rfl : negative = sign := hsign.resolve_right hm
      have hval : ((x.numerator / x.denominator : ℕ) : ℚ) * 10 ^ (0 : ℤ) = x.toRat := by
        rw [zpow_zero, mul_one, ← x.numerator_div_denominator,
          eq_div_iff (by have := x.denominator_pos; positivity)]
        exact_mod_cast Nat.div_mul_cancel (Nat.dvd_of_mod_eq_zero h)
      rw [ofDecimal_toRat negative x hm hval]
      exact equal_self negative x
  · obtain ⟨hm, he, htext⟩ := @print_fraction negative x h
    have hd := digits_shortest_ne_zero hm he
    obtain ⟨n, hn, hneg, hval⟩ := denotes_chars negative (shortest x) hd
    refine ⟨n, by rw [htext]; exact hn, ?_⟩
    rw [Numeral.value_eq hd hval, hneg, ofDecimal_sign negative hd (ofDecimal_shortest hm he)]
    exact equal_self negative x

theorem print_eq_of_equal {x y : Binary64} (h : x.equal y = true) : x.print = y.print := by
  cases x with
  | nan => cases h
  | infinite a =>
    cases y with
    | infinite b => rw [of_decide_eq_true h]
    | nan | finite => cases h
  | finite a x =>
    cases y with
    | nan | infinite => cases h
    | finite b y =>
      simp only [equal, Bool.or_eq_true, Bool.and_eq_true, beq_iff_eq, decide_eq_true_eq] at h
      rcases h with ⟨hx, hy⟩ | ⟨rfl, rfl⟩
      · simp [print, integer?, Magnitude.numerator, hx, hy]
      · rfl

end Binary64

end LittleLisp
