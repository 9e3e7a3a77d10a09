import LittleLisp.Text.Blank
import LittleLisp.Text.Digit

namespace LittleLisp.Text

/-- The blanks around a literal; the separators of files, groups, records and units are none. -/
def isLiteralBlank (c : Char) : Bool := isBlank c && !(0x1c ≤ c.toNat && c.toNat ≤ 0x1f)

def trimLiteral (cs : List Char) : List Char := trimWith isLiteralBlank cs

/-- Drops the underscores between digits; `none` if one stands elsewhere. `afterDigit` says whether
a digit comes before. -/
def ungroup? (afterDigit : Bool) : List Char → Option (List Char)
  | [] => some []
  | ['_'] => none
  | '_' :: c :: cs => if afterDigit && isDecimal c then (ungroup? true cs).map (c :: ·) else none
  | c :: cs => (ungroup? (isDecimal c) cs).map (c :: ·)

end LittleLisp.Text
