import LittleLisp.Number.Binary64
import LittleLisp.Text.Literal
import LittleLisp.Text.Quoted

/-!
Numerals: an optional sign, then digits with an optional point among or after them or a point and
digits, then an optional exponent. A digit is a decimal digit of any script.
-/

namespace LittleLisp

structure Numeral where
  negative : Bool
  whole : List Char
  fraction : List Char
  exponent : Int

namespace Numeral

open Text

def takeSign : List Char → Bool × List Char
  | '+' :: cs => (false, cs)
  | '-' :: cs => (true, cs)
  | cs => (false, cs)

/-- The digits before the point and those after it; `none` if there are none at all. -/
def takeDigits (cs : List Char) : Option (List Char × List Char × List Char) :=
  let whole := cs.takeWhile isDecimal
  match cs.dropWhile isDecimal with
  | '.' :: rest =>
    let fraction := rest.takeWhile isDecimal
    if whole = [] ∧ fraction = [] then none
    else some (whole, fraction, rest.dropWhile isDecimal)
  | rest => if whole = [] then none else some (whole, [], rest)

/-- What follows the digits: nothing, or an exponent up to the end. -/
def exponent? : List Char → Option Int
  | [] => some 0
  | c :: cs =>
    if c = 'e' ∨ c = 'E' then
      let (negative, digits) := takeSign cs
      if digits ≠ [] ∧ digits.all isDecimal then
        let n : Int := decimalNumber digits
        some (if negative then -n else n)
      else none
    else none

def ofChars? (cs : List Char) : Option Numeral := do
  let (negative, cs) := takeSign cs
  let (whole, fraction, cs) ← takeDigits cs
  let exponent ← exponent? cs
  return { negative, whole, fraction, exponent }

def value (n : Numeral) : Binary64 :=
  .ofDecimal n.negative (decimalNumber (n.whole ++ n.fraction)) (n.exponent - n.fraction.length)

end Numeral

namespace Binary64

/-- A numeral, or the name of an infinity or of not-a-number with an optional sign. -/
def ofChars? (cs : List Char) : Option Binary64 :=
  match Numeral.ofChars? cs with
  | some n => some n.value
  | none =>
    let (negative, word) := Numeral.takeSign (cs.map Char.toLower)
    match String.ofList word with
    | "inf" | "infinity" => some (.infinite negative)
    | "nan" => some .nan
    | _ => none

def ofText? (text : String) : Option Binary64 :=
  (Text.ungroup? false (Text.trimLiteral text.toList)).bind ofChars?

def notNumericMessage (text : String) : String :=
  "could not convert string to float: " ++ Text.quotedString text

end Binary64

end LittleLisp
