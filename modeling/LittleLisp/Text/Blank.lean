import LittleLisp.Text.CodePoint
import LittleLisp.Text.Range

namespace LittleLisp.Text

def blankRanges : List (Nat × Nat) := [
  (0x9, 0xd), (0x1c, 0x20), (0x85, 0x85), (0xa0, 0xa0), (0x1680, 0x1680), (0x2000, 0x200a),
  (0x2028, 0x2029), (0x202f, 0x202f), (0x205f, 0x205f), (0x3000, 0x3000)]

def isBlank (c : Char) : Bool := inRanges blankRanges c

def trimWith {α : Type} (p : α → Bool) (l : List α) : List α :=
  ((l.dropWhile p).reverse.dropWhile p).reverse

end LittleLisp.Text

namespace LittleLisp.CodePoint

def isBlank : CodePoint → Bool
  | .scalar c => Text.isBlank c
  | .surrogate _ => false

end LittleLisp.CodePoint

namespace LittleLisp.Text

def trim (t : Text) : Text := trimWith CodePoint.isBlank t

def isBlankText (t : Text) : Bool := t.all CodePoint.isBlank

end LittleLisp.Text
