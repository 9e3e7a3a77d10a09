import LittleLisp.Text.CodePoint
import LittleLisp.Text.Printable

/-!
Quoted texts: a text between quotes on one line, with every code point that cannot be shown
written as an escape. Apostrophes are the quotes unless the text has an apostrophe and no double
quote.
-/

namespace LittleLisp.Text

def hexDigits (width n : Nat) : List Char :=
  (List.range width).reverse.map fun i ↦ Nat.digitChar (n >>> (4 * i) % 16)

def codePointEscape (n : Nat) : List Char :=
  if n < 0x100 then '\\' :: 'x' :: hexDigits 2 n
  else if n < 0x10000 then '\\' :: 'u' :: hexDigits 4 n
  else '\\' :: 'U' :: hexDigits 8 n

def quotedChar (quote c : Char) : List Char :=
  if c = quote ∨ c = '\\' then ['\\', c]
  else if c = '\n' then ['\\', 'n']
  else if c = '\r' then ['\\', 'r']
  else if c = '\t' then ['\\', 't']
  else if isPrintable c then [c]
  else codePointEscape c.toNat

def quotedPoint (quote : Char) : CodePoint → List Char
  | .scalar c => quotedChar quote c
  | p => codePointEscape p.toNat

def quoteFor (t : Text) : Char :=
  if .scalar '\x27' ∈ t ∧ .scalar '"' ∉ t then '"' else '\x27'

def quoted (t : Text) : List Char :=
  let quote := quoteFor t
  quote :: t.flatMap (quotedPoint quote) ++ [quote]

def quotedString (t : Text) : String := .ofList (quoted t)

def quotedNames (names : List Text) : String :=
  "[" ++ ", ".intercalate (names.map quotedString) ++ "]"

end LittleLisp.Text
