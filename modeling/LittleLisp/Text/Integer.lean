import LittleLisp.Text.Literal
import LittleLisp.Text.Quoted

/-!
Integer literals: an optional sign and decimal digits of any script, with single underscores
allowed between digits and blanks allowed around the whole. Very long literals are refused.
-/

namespace LittleLisp.Text

inductive IntegerFault where
  | invalid (text : String)
  | tooManyDigits (count : Nat)

namespace IntegerFault

def message : IntegerFault → String
  | .invalid text =>
    "invalid literal for int() with base 10: " ++ .ofList ((quoted text).take 200)
  | .tooManyDigits count =>
    "Exceeds the limit (4300 digits) for integer string conversion: value has " ++
      toString count ++ " digits; use sys.set_int_max_str_digits() to increase the limit"

end IntegerFault

def maxDigits : Nat := 4300

/-- Digits with single underscores between them; `afterDigit` says whether one may come next. -/
def wellGrouped (afterDigit : Bool) : List Char → Bool
  | [] => afterDigit
  | c :: cs => if c = '_' then afterDigit && wellGrouped false cs else wellGrouped true cs

def parseInteger (text : String) : Except IntegerFault Int :=
  let body := text.toList.dropWhile isLiteralBlank
  let (negative, body) :=
    match body with
    | '-' :: cs => (true, cs)
    | '+' :: cs => (false, cs)
    | cs => (false, cs)
  let isPart (c : Char) : Bool := isDecimal c || c = '_'
  let part := body.takeWhile isPart
  let digits := part.filter isDecimal
  if !wellGrouped false part then .error (.invalid text)
  else if maxDigits < digits.length then .error (.tooManyDigits digits.length)
  else if !(body.dropWhile isPart).all isLiteralBlank then .error (.invalid text)
  else
    let n : Int := decimalNumber digits
    .ok (if negative then -n else n)

end LittleLisp.Text
