import LittleLisp.Number.Binary64
import Mathlib.Algebra.Order.Field.Power
import Mathlib.Data.Int.Log
import Mathlib.Data.Rat.Floor
import Mathlib.Tactic.FieldSimp
import Mathlib.Tactic.Linarith
import Mathlib.Tactic.Positivity

/-!
Rounding a ratio depends on its value only, and a ratio that has the value of a magnitude rounds to
that magnitude. The shortcuts for very large and very small decimals give what rounding gives.
-/

namespace LittleLisp

theorem zpow_eq_div (b : ℕ) (hb : 0 < b) (k : ℤ) :
    (b : ℚ) ^ k = (b : ℚ) ^ k.toNat / (b : ℚ) ^ (-k).toNat := by
  have hb' : (b : ℚ) ≠ 0 := by positivity
  obtain ⟨n, rfl | rfl⟩ := k.eq_nat_or_neg
  · simp
  · simp [zpow_neg]

theorem zpow_le_div_iff (b : ℕ) (hb : 0 < b) (k : ℤ) {num den : ℕ} (hd : 0 < den) :
    den * b ^ k.toNat ≤ num * b ^ (-k).toNat ↔ (b : ℚ) ^ k ≤ (num : ℚ) / den := by
  have hb' : (0 : ℚ) < b := by positivity
  rw [zpow_eq_div b hb, div_le_div_iff₀ (by positivity) (by positivity), mul_comm]
  exact_mod_cast Iff.rfl

namespace Magnitude

def toRat (x : Magnitude) : ℚ := (x.mantissa : ℚ) * 2 ^ x.exponent

theorem toRat_pos (x : Magnitude) (hx : x.mantissa ≠ 0) : 0 < x.toRat := by
  have hm : (0 : ℚ) < x.mantissa := by positivity
  unfold toRat
  positivity

theorem denominator_pos (x : Magnitude) : 0 < x.denominator := Nat.two_pow_pos _

theorem numerator_div_denominator (x : Magnitude) :
    (x.numerator : ℚ) / x.denominator = x.toRat := by
  have h := zpow_eq_div 2 (by norm_num) x.exponent
  simp only [Nat.cast_ofNat] at h
  simp only [numerator, denominator, toRat, h, Nat.cast_mul, Nat.cast_pow, Nat.cast_ofNat]
  ring

end Magnitude

namespace Binary64

theorem log_eq {r : ℚ} {k : ℤ} (h₁ : (2 : ℚ) ^ k ≤ r) (h₂ : r < (2 : ℚ) ^ (k + 1)) :
    Int.log 2 r = k := by
  have hr : 0 < r := lt_of_lt_of_le (by positivity) h₁
  have hle := (Int.zpow_le_iff_le_log (b := 2) (by norm_num) hr).1 (by exact_mod_cast h₁)
  have hlt := (Int.lt_zpow_iff_log_lt (b := 2) (by norm_num) hr).1 (by exact_mod_cast h₂)
  omega

theorem floorLog2_eq_log {num den : ℕ} (hn : 0 < num) (hd : 0 < den) :
    floorLog2 num den = Int.log 2 ((num : ℚ) / den) := by
  have hd' : (0 : ℚ) < den := by positivity
  have hn₁ : (2 : ℚ) ^ (num.log2 : ℤ) ≤ num := by
    exact_mod_cast Nat.log2_self_le hn.ne'
  have hn₂ : (num : ℚ) < 2 ^ ((num.log2 : ℤ) + 1) := by
    exact_mod_cast Nat.lt_log2_self
  have hd₁ : (2 : ℚ) ^ (den.log2 : ℤ) ≤ den := by
    exact_mod_cast Nat.log2_self_le hd.ne'
  have hd₂ : (den : ℚ) < 2 ^ ((den.log2 : ℤ) + 1) := by
    exact_mod_cast Nat.lt_log2_self
  have hupper : (num : ℚ) / den < 2 ^ ((num.log2 : ℤ) - den.log2 + 1) := by
    rw [div_lt_iff₀ hd']
    calc (num : ℚ) < 2 ^ ((num.log2 : ℤ) + 1) := hn₂
      _ = 2 ^ ((num.log2 : ℤ) - den.log2 + 1) * 2 ^ (den.log2 : ℤ) := by
        rw [← zpow_add₀ (by norm_num)]; congr 1; ring
      _ ≤ _ := by gcongr
  have hlower : (2 : ℚ) ^ ((num.log2 : ℤ) - den.log2 - 1) ≤ (num : ℚ) / den := by
    rw [le_div_iff₀ hd']
    calc (2 : ℚ) ^ ((num.log2 : ℤ) - den.log2 - 1) * den
        ≤ 2 ^ ((num.log2 : ℤ) - den.log2 - 1) * 2 ^ ((den.log2 : ℤ) + 1) := by gcongr
      _ = 2 ^ (num.log2 : ℤ) := by rw [← zpow_add₀ (by norm_num)]; congr 1; ring
      _ ≤ _ := hn₁
  have htest := @zpow_le_div_iff 2 (by norm_num) ((num.log2 : ℤ) - den.log2) num den hd
  simp only [floorLog2]
  split
  case isTrue h => exact (log_eq (by exact_mod_cast htest.1 h) hupper).symm
  case isFalse h =>
    refine (log_eq hlower ?_).symm
    rw [sub_add_cancel]
    exact lt_of_not_ge fun hge ↦ h (htest.2 (by exact_mod_cast hge))

theorem roundQuotient_mul (k num den : ℕ) (hk : 0 < k) :
    roundQuotient (k * num) (k * den) = roundQuotient num den := by
  simp only [roundQuotient, Nat.mul_div_mul_left num den hk, Nat.mul_mod_mul_left]
  have hlt : 2 * (k * (num % den)) < k * den ↔ 2 * (num % den) < den := by
    rw [Nat.mul_left_comm, Nat.mul_lt_mul_left hk]
  have heq : 2 * (k * (num % den)) = k * den ↔ 2 * (num % den) = den := by
    rw [Nat.mul_left_comm, Nat.mul_right_inj hk.ne']
  simp only [hlt, heq]

theorem roundQuotient_of_mul (q den : ℕ) (hd : 0 < den) : roundQuotient (q * den) den = q := by
  simp [roundQuotient, hd]

theorem roundQuotient_eq_zero {num den : ℕ} (h : 2 * num < den) : roundQuotient num den = 0 := by
  have hlt : num < den := by omega
  simp [roundQuotient, Nat.div_eq_of_lt hlt, Nat.mod_eq_of_lt hlt, h]

theorem ofRatio_mul (negative : Bool) (k num den : ℕ) (scale : ℤ) (hk : 0 < k) (hd : 0 < den) :
    ofRatio negative (k * num) (k * den) scale = ofRatio negative num den scale := by
  by_cases hn : num = 0
  · simp [ofRatio, hn]
  have hlog : floorLog2 (k * num) (k * den) = floorLog2 num den := by
    have hk' : (k : ℚ) ≠ 0 := by positivity
    rw [floorLog2_eq_log (by positivity) (by positivity), floorLog2_eq_log (by positivity) hd]
    push_cast
    rw [mul_div_mul_left _ _ hk']
  have hkn : k * num ≠ 0 := by positivity
  simp only [ofRatio, hn, hkn, if_false, hlog, Nat.mul_assoc, roundQuotient_mul _ _ _ hk]

theorem ofRatio_congr (negative : Bool) {num den num' den' : ℕ} (scale : ℤ) (hd : 0 < den)
    (hd' : 0 < den') (h : (num : ℚ) / den = (num' : ℚ) / den') :
    ofRatio negative num den scale = ofRatio negative num' den' scale := by
  have hcross : den' * num = den * num' := by
    rw [div_eq_div_iff (by positivity) (by positivity)] at h
    have h' : num * den' = num' * den := by exact_mod_cast h
    rw [Nat.mul_comm, h', Nat.mul_comm]
  rw [← ofRatio_mul negative den' num den scale hd' hd,
    ← ofRatio_mul negative den num' den' scale hd hd', hcross, Nat.mul_comm den' den]

theorem log_toRat_lt (x : Magnitude) (hx : x.mantissa ≠ 0) :
    Int.log 2 x.toRat < 53 + x.exponent := by
  refine (Int.lt_zpow_iff_log_lt (b := 2) (by norm_num) (x.toRat_pos hx)).1 ?_
  have hlt : (x.mantissa : ℚ) < 2 ^ 53 := by exact_mod_cast x.canonical.1
  rw [Nat.cast_ofNat, zpow_add₀ (by norm_num), Magnitude.toRat]
  gcongr
  exact_mod_cast hlt

theorem le_log_toRat (x : Magnitude) (hx : 2 ^ 52 ≤ x.mantissa) :
    52 + x.exponent ≤ Int.log 2 x.toRat := by
  have hle : (2 : ℚ) ^ 52 ≤ x.mantissa := by exact_mod_cast hx
  have hne : x.mantissa ≠ 0 := by omega
  refine (Int.zpow_le_iff_le_log (b := 2) (by norm_num) (x.toRat_pos hne)).1 ?_
  rw [Nat.cast_ofNat, zpow_add₀ (by norm_num), Magnitude.toRat]
  gcongr
  exact_mod_cast hle

theorem ofRatio_toRat (negative : Bool) (x : Magnitude) (hx : x.mantissa ≠ 0) {num den : ℕ}
    (hd : 0 < den) (h : (num : ℚ) / den = x.toRat) :
    ofRatio negative num den 0 = .finite negative x := by
  rw [ofRatio_congr negative 0 hd x.denominator_pos (h.trans x.numerator_div_denominator.symm)]
  have hnum : x.numerator ≠ 0 := by simp [Magnitude.numerator, hx]
  have hlog : floorLog2 x.numerator x.denominator = Int.log 2 x.toRat := by
    rw [floorLog2_eq_log (Nat.pos_of_ne_zero hnum) x.denominator_pos,
      x.numerator_div_denominator]
  obtain ⟨hm, hlo, hhi, hform⟩ := x.canonical
  have hexp : max (floorLog2 x.numerator x.denominator + 0 - 52) (-1074) = x.exponent := by
    have hlt := log_toRat_lt x hx
    rw [hlog]
    rcases hform with hform | hform
    · have hle := le_log_toRat x hform
      omega
    · omega
  have hround : roundQuotient (x.numerator * 2 ^ (0 - x.exponent).toNat)
      (x.denominator * 2 ^ (-(0 - x.exponent)).toNat) = x.mantissa := by
    have he : x.numerator * 2 ^ (0 - x.exponent).toNat =
        x.mantissa * (x.denominator * 2 ^ (-(0 - x.exponent)).toNat) := by
      simp only [Magnitude.numerator, Magnitude.denominator, zero_sub, neg_neg]
      ring
    rw [he, roundQuotient_of_mul _ _ (by have := x.denominator_pos; positivity)]
  have hne : x.mantissa ≠ 2 ^ 53 := hm.ne
  simp only [ofRatio, hnum, if_false, hexp, hround, hne, pack]
  rw [dif_pos x.canonical]

theorem ofRatio_sign {num den : ℕ} {scale : ℤ} {x : Magnitude} (negative : Bool)
    (h : ofRatio false num den scale = .finite false x) :
    ofRatio negative num den scale = .finite negative x := by
  have hpack {m : ℕ} {e : ℤ} (hp : pack false m e = .finite false x) :
      pack negative m e = .finite negative x := by
    by_cases hc : Canonical m e
    · simp only [pack, hc, dite_true, finite.injEq, true_and] at hp ⊢
      exact hp
    · simp [pack, hc] at hp
  by_cases hn : num = 0
  · simp only [ofRatio, hn, if_true] at h ⊢
    cases h
    rfl
  · simp only [ofRatio, hn, if_false] at h ⊢
    split at h
    case isTrue hm => rw [if_pos hm]; exact hpack h
    case isFalse hm => rw [if_neg hm]; exact hpack h

theorem ofRatio_huge (negative : Bool) {num : ℕ} (h : 2 ^ 1024 ≤ num) :
    ofRatio negative num 1 0 = .infinite negative := by
  have hpos : 0 < num := lt_of_lt_of_le (by positivity) h
  have hlog : 1024 ≤ floorLog2 num 1 := by
    rw [floorLog2_eq_log hpos one_pos]
    refine (Int.zpow_le_iff_le_log (b := 2) (by norm_num) (by positivity)).1 ?_
    rw [Nat.cast_one, div_one]
    exact_mod_cast h
  have hpack {m : ℕ} {e : ℤ} (he : 971 < e) : pack negative m e = .infinite negative :=
    dif_neg fun hc ↦ absurd hc.2.2.1 (by omega)
  simp only [ofRatio, hpos.ne', if_false]
  split <;> exact hpack (by omega)

theorem ofRatio_tiny (negative : Bool) {num den : ℕ} (hn : num ≠ 0)
    (h : num * 2 ^ 1075 < den) : ofRatio negative num den 0 = zero negative := by
  have hd : 0 < den := by omega
  have hlog : floorLog2 num den < -1022 := by
    rw [floorLog2_eq_log (Nat.pos_of_ne_zero hn) hd]
    refine (Int.lt_zpow_iff_log_lt (b := 2) (by norm_num) (by positivity)).1 ?_
    have h' : (num : ℚ) * 2 ^ (1075 : ℤ) < den := by exact_mod_cast h
    have hden : (0 : ℚ) < den := by positivity
    calc (num : ℚ) / den < 2 ^ (-1075 : ℤ) := by
          rw [zpow_neg, div_lt_iff₀ hden, lt_inv_mul_iff₀ (by positivity), mul_comm]
          exact h'
      _ ≤ ((2 : ℕ) : ℚ) ^ (-1022 : ℤ) := zpow_le_zpow_right₀ (by norm_num) (by norm_num)
  have hexp : max (floorLog2 num den + 0 - 52) (-1074) = -1074 := by omega
  have hden : den * 2 ^ 0 = den := Nat.mul_one den
  simp only [ofRatio, hn, if_false, hexp]
  rw [show (0 - (-1074) : ℤ).toNat = 1074 from rfl, show (-(0 - (-1074)) : ℤ).toNat = 0 from rfl,
    hden, roundQuotient_eq_zero (by omega)]
  rfl

theorem ofDecimal_eq_ofRatio (negative : Bool) (digits : ℕ) (exponent : ℤ) (h : digits ≠ 0) :
    ofDecimal negative digits exponent =
      ofRatio negative (digits * 10 ^ exponent.toNat) (10 ^ (-exponent).toNat) 0 := by
  have hpos : 0 < digits := Nat.pos_of_ne_zero h
  simp only [ofDecimal, h, if_false]
  split
  case isTrue hbig =>
    have hz : (-exponent).toNat = 0 := by omega
    rw [hz, pow_zero, ofRatio_huge]
    calc 2 ^ 1024 ≤ 10 ^ 311 := by decide +kernel
      _ ≤ 10 ^ exponent.toNat := Nat.pow_le_pow_right (by norm_num) (by omega)
      _ ≤ digits * 10 ^ exponent.toNat := Nat.le_mul_of_pos_left _ hpos
  case isFalse =>
    split
    case isTrue hsmall =>
      have hz : exponent.toNat = 0 := by omega
      rw [hz, pow_zero, mul_one, ofRatio_tiny negative h]
      have hlog : digits < 2 ^ (digits.log2 + 1) := Nat.lt_log2_self
      calc digits * 2 ^ 1075 < 2 ^ (digits.log2 + 1) * 2 ^ 1075 := by gcongr
        _ = 2 ^ 1076 * 2 ^ digits.log2 := by rw [← pow_add, ← pow_add]; congr 1; omega
        _ ≤ 10 ^ 401 * 10 ^ digits.log2 :=
          Nat.mul_le_mul (by decide +kernel) (Nat.pow_le_pow_left (by norm_num) _)
        _ = 10 ^ (401 + digits.log2) := (pow_add ..).symm
        _ ≤ 10 ^ (-exponent).toNat := Nat.pow_le_pow_right (by norm_num) (by omega)
    case isFalse =>
      split
      case isTrue hz =>
        have hz : (-exponent).toNat = 0 := by omega
        rw [hz, pow_zero]
      case isFalse hz =>
        have hz : exponent.toNat = 0 := by omega
        rw [hz, pow_zero, mul_one]

theorem decimal_ratio (digits : ℕ) (exponent : ℤ) :
    ((digits * 10 ^ exponent.toNat : ℕ) : ℚ) / ((10 ^ (-exponent).toNat : ℕ) : ℚ) =
      (digits : ℚ) * 10 ^ exponent := by
  have h := zpow_eq_div 10 (by norm_num) exponent
  simp only [Nat.cast_ofNat] at h
  rw [h]
  push_cast
  ring

theorem ofDecimal_congr (negative : Bool) {d d' : ℕ} {e e' : ℤ} (hd : d ≠ 0) (hd' : d' ≠ 0)
    (h : (d : ℚ) * 10 ^ e = (d' : ℚ) * 10 ^ e') :
    ofDecimal negative d e = ofDecimal negative d' e' := by
  rw [ofDecimal_eq_ofRatio _ _ _ hd, ofDecimal_eq_ofRatio _ _ _ hd']
  refine ofRatio_congr negative 0 (by positivity) (by positivity) ?_
  rw [decimal_ratio, decimal_ratio, h]

theorem ofDecimal_toRat (negative : Bool) (x : Magnitude) (hx : x.mantissa ≠ 0) {d : ℕ} {e : ℤ}
    (h : (d : ℚ) * 10 ^ e = x.toRat) : ofDecimal negative d e = .finite negative x := by
  have hd : d ≠ 0 := by
    rintro rfl
    exact absurd h (by simpa using (x.toRat_pos hx).ne)
  rw [ofDecimal_eq_ofRatio _ _ _ hd]
  exact ofRatio_toRat negative x hx (by positivity) ((decimal_ratio d e).trans h)

theorem ofDecimal_sign {d : ℕ} {e : ℤ} {x : Magnitude} (negative : Bool) (hd : d ≠ 0)
    (h : ofDecimal false d e = .finite false x) :
    ofDecimal negative d e = .finite negative x := by
  rw [ofDecimal_eq_ofRatio _ _ _ hd] at h ⊢
  exact ofRatio_sign negative h

theorem pack_ne_nan (negative : Bool) (m : ℕ) (e : ℤ) : pack negative m e ≠ .nan := by
  unfold pack
  split <;> nofun

theorem ofRatio_ne_nan (negative : Bool) (num den : ℕ) (scale : ℤ) :
    ofRatio negative num den scale ≠ .nan := by
  simp only [ofRatio]
  split
  · nofun
  · split <;> exact pack_ne_nan _ _ _

theorem ofDecimal_ne_nan (negative : Bool) (digits : ℕ) (exponent : ℤ) :
    ofDecimal negative digits exponent ≠ .nan := by
  by_cases h : digits = 0
  · simp [ofDecimal, h, zero]
  · rw [ofDecimal_eq_ofRatio _ _ _ h]
    exact ofRatio_ne_nan _ _ _ _

end Binary64

end LittleLisp
