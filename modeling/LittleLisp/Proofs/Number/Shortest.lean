import LittleLisp.Number.Shortest
import LittleLisp.Proofs.Number.Rounding

/-!
The search for the shortest decimal ends, and what it finds reads back. A magnitude below `2 ^ 52`
is itself a decimal with at most 1074 places, so at the latest the grid of that many places has a
decimal that reads back.
-/

namespace LittleLisp.Decimal

open Binary64

variable {x : Magnitude} {d : Decimal}

theorem readsBack_of_onGrid? {exponent : ℤ} (h : onGrid? x exponent = some d) :
    readsBack x d = true := by
  simp only [onGrid?] at h
  split at h
  case isTrue hr => cases h; exact hr
  case isFalse =>
    split at h
    case isTrue hr => cases h; exact hr
    case isFalse =>
      split at h
      case isTrue hr => cases h; exact hr
      case isFalse => cases h

theorem readsBack_of_search {fuel : ℕ} {exponent : ℤ} (h : search x fuel exponent = some d) :
    readsBack x d = true := by
  induction fuel generalizing exponent with
  | zero => cases h
  | succ fuel ih =>
    simp only [search] at h
    split at h
    case h_1 hg => cases h; exact readsBack_of_onGrid? hg
    case h_2 => exact ih h

/-- A grid at least as fine as the last binary place holds the magnitude itself. -/
theorem onGrid?_isSome (hx : x.mantissa ≠ 0) {exponent : ℤ} (he : exponent ≤ x.exponent)
    (hneg : x.exponent ≤ 0) : (onGrid? x exponent).isSome = true := by
  have hz : exponent.toNat = 0 := by omega
  have hxz : x.exponent.toNat = 0 := by omega
  obtain ⟨j, hj⟩ : ∃ j, (-exponent).toNat = (-x.exponent).toNat + j :=
    ⟨(-exponent).toNat - (-x.exponent).toNat, by omega⟩
  -- The factor that turns the binary places into decimal ones.
  let q := x.mantissa * (5 ^ (-x.exponent).toNat * 10 ^ j)
  have hnum : x.numerator * 10 ^ (-exponent).toNat = q * (x.denominator * 10 ^ exponent.toNat) := by
    simp only [q, Magnitude.numerator, Magnitude.denominator, hz, hxz, hj, pow_zero, mul_one]
    rw [pow_add, show (10 : ℕ) = 2 * 5 from rfl, mul_pow]
    ring
  have hden : 0 < x.denominator * 10 ^ exponent.toNat := by
    have := x.denominator_pos
    positivity
  have hval : (q : ℚ) * 10 ^ exponent = x.toRat := by
    have hp := zpow_eq_div 10 (by norm_num) exponent
    have hr := x.numerator_div_denominator
    rw [div_eq_iff (by have := x.denominator_pos; positivity)] at hr
    have hn : (x.numerator : ℚ) * 10 ^ (-exponent).toNat = q * x.denominator := by
      rw [hz, pow_zero, mul_one] at hnum
      exact_mod_cast hnum
    have hd : (x.denominator : ℚ) ≠ 0 := by have := x.denominator_pos; positivity
    simp only [Nat.cast_ofNat, hz, pow_zero] at hp
    rw [hp, mul_one_div, div_eq_iff (by positivity)]
    rw [hr] at hn
    exact mul_right_cancel₀ hd (by linarith)
  have hback : readsBack x ⟨roundQuotient (x.numerator * 10 ^ (-exponent).toNat)
      (x.denominator * 10 ^ exponent.toNat), exponent⟩ = true := by
    rw [hnum, roundQuotient_of_mul _ _ hden, readsBack, decide_eq_true_eq]
    exact ofDecimal_toRat false x hx hval
  simp only [onGrid?, hback, if_true, Option.isSome_some]

theorem search_isSome (hx : x.mantissa ≠ 0) (hneg : x.exponent ≤ 0) (fuel : ℕ) (exponent : ℤ)
    (hf : exponent - x.exponent < fuel) (hpos : 0 < fuel) :
    (search x fuel exponent).isSome = true := by
  induction fuel generalizing exponent with
  | zero => omega
  | succ fuel ih =>
    simp only [search]
    split
    case h_1 => rfl
    case h_2 hg =>
      have hlt : x.exponent < exponent := by
        by_contra hle
        have h := onGrid?_isSome hx (not_lt.1 hle) hneg
        rw [hg] at h
        cases h
      exact ih (exponent - 1) (by omega) (by omega)

theorem floorLog10_le (num den : ℕ) :
    floorLog10 num den ≤ floorLog2 num den * 30103 / 100000 + 1 := by
  simp only [floorLog10]
  split
  · exact le_rfl
  · split <;> omega

/-- A magnitude with binary places is below `2 ^ 52`, so its first digit is not far left. -/
theorem floorLog10_numerator_le (hx : x.mantissa ≠ 0) (hneg : x.exponent < 0) :
    floorLog10 x.numerator x.denominator ≤ 16 := by
  have hnum : 0 < x.numerator := by
    have := Nat.pos_of_ne_zero hx
    unfold Magnitude.numerator
    positivity
  have hlog : floorLog2 x.numerator x.denominator ≤ 51 := by
    rw [floorLog2_eq_log hnum x.denominator_pos, x.numerator_div_denominator]
    have := log_toRat_lt x hx
    omega
  have hle := floorLog10_le x.numerator x.denominator
  omega

/-- The shortest decimal of a magnitude with binary places reads back as the magnitude. -/
theorem ofDecimal_shortest (hx : x.mantissa ≠ 0) (hneg : x.exponent < 0) :
    ofDecimal false (shortest x).digits (shortest x).exponent = .finite false x := by
  have hlo := x.canonical.2.1
  have hstart := floorLog10_numerator_le hx hneg
  have hsome := search_isSome hx hneg.le 1100 (floorLog10 x.numerator x.denominator) (by omega)
    (by omega)
  obtain ⟨d, hd⟩ := Option.isSome_iff_exists.1 hsome
  have hback := readsBack_of_search hd
  simpa only [shortest, hd, Option.getD_some, readsBack, decide_eq_true_eq] using hback

theorem digits_shortest_ne_zero (hx : x.mantissa ≠ 0) (hneg : x.exponent < 0) :
    (shortest x).digits ≠ 0 := by
  intro hz
  have h := ofDecimal_shortest hx hneg
  rw [hz] at h
  simp only [ofDecimal, if_true, zero, finite.injEq, true_and] at h
  exact hx (h ▸ rfl)

end LittleLisp.Decimal
