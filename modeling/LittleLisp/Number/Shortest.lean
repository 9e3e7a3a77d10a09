import LittleLisp.Number.Binary64

/-!
The shortest decimal that reads back: among the decimals with the fewest significant digits whose
nearest number is the given one, that nearest to it, and of two equally near ones that with the
even last digit.
-/

namespace LittleLisp

/-- The decimal `digits · 10 ^ exponent`. -/
structure Decimal where
  digits : Nat
  exponent : Int
deriving DecidableEq

namespace Decimal

def powerAtMost (k : Int) (num den : Nat) : Bool :=
  den * 10 ^ k.toNat ≤ num * 10 ^ (-k).toNat

/-- The integer `k` with `10 ^ k ≤ num / den < 10 ^ (k + 1)`: the binary logarithm determines it up
to one. -/
def floorLog10 (num den : Nat) : Int :=
  let guess := Binary64.floorLog2 num den * 30103 / 100000
  if powerAtMost (guess + 1) num den then guess + 1
  else if powerAtMost guess num den then guess
  else guess - 1

def readsBack (x : Magnitude) (d : Decimal) : Bool :=
  Binary64.ofDecimal false d.digits d.exponent = .finite false x

/-- The best decimal for `x` with the last digit at `10 ^ exponent`, if one reads back. -/
def onGrid? (x : Magnitude) (exponent : Int) : Option Decimal :=
  let num := x.numerator * 10 ^ (-exponent).toNat
  let den := x.denominator * 10 ^ exponent.toNat
  let below : Decimal := ⟨num / den, exponent⟩
  let above : Decimal := ⟨num / den + 1, exponent⟩
  let nearest : Decimal := ⟨Binary64.roundQuotient num den, exponent⟩
  if readsBack x nearest then some nearest
  else if readsBack x below then some below
  else if readsBack x above then some above
  else none

/-- Tries the grids from `exponent` downwards, each with one more digit. -/
def search (x : Magnitude) : Nat → Int → Option Decimal
  | 0, _ => none
  | fuel + 1, exponent =>
    match onGrid? x exponent with
    | some d => some d
    | none => search x fuel (exponent - 1)

/-- Every magnitude is a decimal of fewer than 1100 places, so the search ends. -/
def shortest (x : Magnitude) : Decimal :=
  (search x 1100 (floorLog10 x.numerator x.denominator)).getD ⟨0, 0⟩

end Decimal

end LittleLisp
