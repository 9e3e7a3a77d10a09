import LittleLisp.Number.Binary64

/-!
The four operations. Each is the exact result on the rational numbers, rounded once; the sign of
an exact zero and the results on infinities and not-a-number are those of the standard.
-/

namespace LittleLisp.Binary64

def neg : Binary64 → Binary64
  | .nan => .nan
  | .infinite a => .infinite !a
  | .finite a x => .finite (!a) x

/-- The signed integer `± m · 2 ^ (e - base)`, for an exponent `e` that is at least `base`. -/
def signedAt (base : Int) (negative : Bool) (x : Magnitude) : Int :=
  let n : Int := (x.mantissa * 2 ^ (x.exponent - base).toNat : Nat)
  if negative then -n else n

def add : Binary64 → Binary64 → Binary64
  | .nan, _ => .nan
  | _, .nan => .nan
  | .infinite a, .infinite b => if a = b then .infinite a else .nan
  | .infinite a, .finite _ _ => .infinite a
  | .finite _ _, .infinite b => .infinite b
  | .finite a x, .finite b y =>
    let base := min x.exponent y.exponent
    let sum := signedAt base a x + signedAt base b y
    if sum = 0 then zero (a && b) else ofRatio (sum < 0) sum.natAbs 1 base

def sub (x y : Binary64) : Binary64 := add x y.neg

def mul : Binary64 → Binary64 → Binary64
  | .nan, _ => .nan
  | _, .nan => .nan
  | .infinite a, .infinite b => .infinite (a ^^ b)
  | .infinite a, .finite b y => if y.mantissa = 0 then .nan else .infinite (a ^^ b)
  | .finite a x, .infinite b => if x.mantissa = 0 then .nan else .infinite (a ^^ b)
  | .finite a x, .finite b y =>
    ofRatio (a ^^ b) (x.mantissa * y.mantissa) 1 (x.exponent + y.exponent)

def div : Binary64 → Binary64 → Binary64
  | .nan, _ => .nan
  | _, .nan => .nan
  | .infinite _, .infinite _ => .nan
  | .infinite a, .finite b _ => .infinite (a ^^ b)
  | .finite a _, .infinite b => zero (a ^^ b)
  | .finite a x, .finite b y =>
    if y.mantissa = 0 then if x.mantissa = 0 then .nan else .infinite (a ^^ b)
    else ofRatio (a ^^ b) x.mantissa y.mantissa (x.exponent - y.exponent)

end LittleLisp.Binary64
