import LittleLisp.Number.Binary64
import LittleLisp.Text.CodePoint
import LittleLisp.Text.Integer

namespace LittleLisp

inductive Json where
  | null
  | bool (flag : Bool)
  | integer (value : Int)
  | real (value : Binary64)
  | string (text : Text)
  | array (items : List Json)
  | object (members : List (Text × Json))

namespace Json

instance : Inhabited Json := ⟨.null⟩

/-- Of members with one name, the last one counts. -/
def lastMember? (name : Text) (members : List (Text × Json)) : Option Json :=
  members.reverse.lookup name

inductive Problem where
  | value
  | memberName
  | colon
  | comma
  | unterminatedString
  | controlCharacter
  | escape
  | unicodeEscape
  | extraData
  | byteOrderMark
deriving DecidableEq

def Problem.text : Problem → String
  | .value => "Expecting value"
  | .memberName => "Expecting property name enclosed in double quotes"
  | .colon => "Expecting \x27:\x27 delimiter"
  | .comma => "Expecting \x27,\x27 delimiter"
  | .unterminatedString => "Unterminated string starting at"
  | .controlCharacter => "Invalid control character at"
  | .escape => "Invalid \\escape"
  | .unicodeEscape => "Invalid \\uXXXX escape"
  | .extraData => "Extra data"
  | .byteOrderMark => "Unexpected UTF-8 BOM (decode using utf-8-sig)"

inductive Fault where
  /-- Where the text goes wrong is told by the number of characters from there to the end. -/
  | malformed (problem : Problem) (remaining : Nat)
  | integer (fault : Text.IntegerFault)
  | tooDeep

def Fault.message (text : List Char) : Fault → String
  | .malformed problem remaining =>
    let position := text.length - remaining
    let before := text.take position
    let line := before.count '\n' + 1
    let column := (before.reverse.takeWhile (· ≠ '\n')).length + 1
    problem.text ++ ": line " ++ toString line ++ " column " ++ toString column ++
      " (char " ++ toString position ++ ")"
  | .integer fault => fault.message
  | .tooDeep => "maximum recursion depth exceeded"

end Json

end LittleLisp
