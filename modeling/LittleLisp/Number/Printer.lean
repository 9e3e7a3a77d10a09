import LittleLisp.Number.Shortest

/-!
The two texts of a number. Printed, an integral number is its exact integer; described, every
number shows that it is not an integer: by a point, an exponent, or a word.
-/

namespace LittleLisp

namespace Decimal

def digitChars (n : Nat) : List Char := Nat.toDigits 10 n

/-- Significant digits: no zero at the end. -/
def significant (n : Nat) : List Char :=
  ((digitChars n).reverse.dropWhile (· = '0')).reverse

def exponentChars (e : Int) : List Char :=
  let digits := digitChars e.natAbs
  (if e < 0 then '-' else '+') :: (if digits.length < 2 then '0' :: digits else digits)

/-- Positional notation when the leading digit stands at `10 ^ -4` up to `10 ^ 15`, else one digit
before the point and an exponent. -/
def chars (d : Decimal) : List Char :=
  let digits := significant d.digits
  let leading : Int := d.exponent + (digitChars d.digits).length - 1
  if leading < -4 ∨ 16 ≤ leading then
    digits.take 1 ++ (if 1 < digits.length then '.' :: digits.drop 1 else [])
      ++ 'e' :: exponentChars leading
  else if leading < 0 then
    '0' :: '.' :: List.replicate (-leading - 1).toNat '0' ++ digits
  else
    let places := leading.toNat + 1
    digits.take places ++ List.replicate (places - digits.length) '0' ++ '.'
      :: (if places < digits.length then digits.drop places else ['0'])

end Decimal

namespace Binary64

def signChars (negative : Bool) : List Char := if negative then ['-'] else []

def intChars (n : Int) : List Char :=
  signChars (n < 0) ++ Decimal.digitChars n.natAbs

def describe : Binary64 → List Char
  | .nan => ['n', 'a', 'n']
  | .infinite negative => signChars negative ++ ['i', 'n', 'f']
  | .finite negative x =>
    signChars negative ++
      (if x.mantissa = 0 then ['0', '.', '0'] else (Decimal.shortest x).chars)

def print (x : Binary64) : List Char :=
  match x.integer? with
  | some n => intChars n
  | none => describe x

end Binary64

end LittleLisp
