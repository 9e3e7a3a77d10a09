/-!
Floating-point numbers of 64 bits. A finite number is a sign and a magnitude `m · 2 ^ e`; every
magnitude has one canonical pair `(m, e)`, so magnitudes are equal exactly when their pairs are.
Signed zeros, the two infinities and a single not-a-number complete the type.
-/

namespace LittleLisp

/-- Powers of natural numbers, for every module of the library whatever else it imports. -/
instance (priority := high) powNat : Pow Nat Nat := instPowNat

/-- A pair stands for a number of the format in its only admissible form: 53 bits of which the
first is set, unless the exponent is the least one. -/
def Canonical (mantissa : Nat) (exponent : Int) : Prop :=
  mantissa < 2 ^ (53 : Nat) ∧ -1074 ≤ exponent ∧ exponent ≤ 971 ∧
    (2 ^ (52 : Nat) ≤ mantissa ∨ exponent = -1074)

instance (m : Nat) (e : Int) : Decidable (Canonical m e) :=
  inferInstanceAs (Decidable (_ ∧ _))

structure Magnitude where
  mantissa : Nat
  exponent : Int
  canonical : Canonical mantissa exponent
deriving DecidableEq

inductive Binary64 where
  | nan
  | infinite (negative : Bool)
  | finite (negative : Bool) (size : Magnitude)
deriving DecidableEq

namespace Magnitude

def zero : Magnitude := ⟨0, -1074, by decide⟩

instance : Inhabited Magnitude := ⟨zero⟩

def numerator (x : Magnitude) : Nat := x.mantissa * 2 ^ x.exponent.toNat

def denominator (x : Magnitude) : Nat := 2 ^ (-x.exponent).toNat

end Magnitude

namespace Binary64

def zero (negative : Bool) : Binary64 := .finite negative .zero

instance : Inhabited Binary64 := ⟨zero false⟩

/-- A magnitude that leaves the format at the upper end is infinite. -/
def pack (negative : Bool) (mantissa : Nat) (exponent : Int) : Binary64 :=
  if h : Canonical mantissa exponent then .finite negative ⟨mantissa, exponent, h⟩
  else .infinite negative

/-- The integer nearest to `num / den`; a half goes to the even neighbour. -/
def roundQuotient (num den : Nat) : Nat :=
  let q := num / den
  let r := num % den
  if 2 * r < den ∨ (2 * r = den ∧ q % 2 = 0) then q else q + 1

/-- The integer `k` with `2 ^ k ≤ num / den < 2 ^ (k + 1)`, for positive `num` and `den`. -/
def floorLog2 (num den : Nat) : Int :=
  let k : Int := num.log2 - den.log2
  if den * 2 ^ k.toNat ≤ num * 2 ^ (-k).toNat then k else k - 1

/-- The number nearest to `± num / den · 2 ^ scale`; of two nearest ones, that with the even
mantissa. -/
def ofRatio (negative : Bool) (num den : Nat) (scale : Int) : Binary64 :=
  if num = 0 then zero negative
  else
    let exponent := max (floorLog2 num den + scale - 52) (-1074)
    let shift := scale - exponent
    let mantissa := roundQuotient (num * 2 ^ shift.toNat) (den * 2 ^ (-shift).toNat)
    if mantissa = 2 ^ (53 : Nat) then pack negative (2 ^ (52 : Nat)) (exponent + 1)
    else pack negative mantissa exponent

def ofNat (n : Nat) : Binary64 := ofRatio false n 1 0

/-- The number nearest to `± digits · 10 ^ exponent`. Exponents far outside the format's range are
decided without computing the power. -/
def ofDecimal (negative : Bool) (digits : Nat) (exponent : Int) : Binary64 :=
  if digits = 0 then zero negative
  else if 310 < exponent then .infinite negative
  else if exponent < -(400 + digits.log2 : Int) then zero negative
  else if 0 ≤ exponent then ofRatio negative (digits * 10 ^ exponent.toNat) 1 0
  else ofRatio negative digits (10 ^ (-exponent).toNat) 0

/-- Equality of values: the two zeros are equal, and nothing equals not-a-number. -/
def equal : Binary64 → Binary64 → Bool
  | .infinite a, .infinite b => a == b
  | .finite a x, .finite b y =>
    (x.mantissa == 0 && y.mantissa == 0) || (a == b && decide (x = y))
  | _, _ => false

def integer? : Binary64 → Option Int
  | .finite negative x =>
    if x.numerator % x.denominator = 0 then
      let n : Int := (x.numerator / x.denominator : Nat)
      some (if negative then -n else n)
    else none
  | _ => none

end Binary64

end LittleLisp
