/-!
Texts as sequences of code points. An escape in JSON may name half of a surrogate pair without the
other half. Such a half is no character, yet programs may hold it and print it.
-/

namespace LittleLisp

inductive CodePoint where
  | scalar (c : Char)
  /-- Half of a surrogate pair, by its place among all such halves. -/
  | surrogate (index : Fin 0x800)
deriving DecidableEq

abbrev Text := List CodePoint

namespace CodePoint

instance : Coe Char CodePoint := ⟨.scalar⟩

def toNat : CodePoint → Nat
  | .scalar c => c.toNat
  | .surrogate index => 0xd800 + index

def ofNat (n : Nat) : CodePoint :=
  if h : 0xd800 ≤ n ∧ n < 0xe000 then .surrogate ⟨n - 0xd800, by omega⟩
  else .scalar (Char.ofNat n)

def char? : CodePoint → Option Char
  | .scalar c => some c
  | .surrogate _ => none

end CodePoint

namespace Text

def ofChars (cs : List Char) : Text := cs.map .scalar

def ofString (s : String) : Text := ofChars s.toList

instance : Coe String Text := ⟨ofString⟩

def join (separator : Text) (ts : List Text) : Text := separator.intercalate ts

def chars? (t : Text) : Option (List Char) := t.mapM CodePoint.char?

/-- The text for an output that takes characters only; anything else is replaced. -/
def shown (t : Text) : String := .ofList (t.map fun p ↦ p.char?.getD '�')

end Text

end LittleLisp
