import LittleLisp.Datum.Basic
import LittleLisp.Number.Printer

/-! Canonical text of data: single spaces, no comments, escapes only where the reader needs them. -/

namespace LittleLisp.Datum

def escaped (p : CodePoint) : Text := if p = '\\' ∨ p = '"' then ['\\', p] else [p]

def stringLiteral (t : Text) : Text := "\"" ++ t.flatMap escaped ++ "\""

mutual

def print : Datum → Text
  | .atom name => name
  | .number value => .ofChars value.print
  | .str text => stringLiteral text
  | .bool flag => if flag then "#t" else "#f"
  | .quoted inner => "\x27" ++ print inner
  | .list items => "(" ++ printItems items ++ ")"
  | .mark (.function name) => "#" ++ name
  | .mark .elided => "(...)"
  | .mark .absent => []

def printItems : List Datum → Text
  | [] => []
  | [d] => print d
  | d :: ds => print d ++ " " ++ printItems ds

end

end LittleLisp.Datum
