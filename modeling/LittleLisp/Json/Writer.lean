import LittleLisp.Json.Basic
import LittleLisp.Number.Printer

/-!
Writing JSON in ASCII: what is neither printable ASCII nor has a short escape is written by its
UTF-16 code units.
-/

namespace LittleLisp.Json

def unitEscape (n : Nat) : List Char := '\\' :: 'u' :: Text.hexDigits 4 n

def escapedChar (c : Char) : List Char :=
  if c = '"' ∨ c = '\\' then ['\\', c]
  else if c = '\n' then ['\\', 'n']
  else if c = '\r' then ['\\', 'r']
  else if c = '\t' then ['\\', 't']
  else if c = '\x08' then ['\\', 'b']
  else if c = '\x0c' then ['\\', 'f']
  else
    let n := c.toNat
    if 0x20 ≤ n ∧ n ≤ 0x7e then [c]
    else if n < 0x10000 then unitEscape n
    else
      unitEscape (0xd800 + (n - 0x10000) / 0x400) ++ unitEscape (0xdc00 + (n - 0x10000) % 0x400)

def escapedPoint : CodePoint → List Char
  | .scalar c => escapedChar c
  | p => unitEscape p.toNat

def stringLiteral (t : Text) : List Char := '"' :: t.flatMap escapedPoint ++ ['"']

def realChars : Binary64 → List Char
  | .nan => "NaN".toList
  | .infinite negative => Binary64.signChars negative ++ "Infinity".toList
  | x => x.describe

mutual

def write : Json → List Char
  | .null => "null".toList
  | .bool flag => (if flag then "true" else "false").toList
  | .integer value => Binary64.intChars value
  | .real value => realChars value
  | .string text => stringLiteral text
  | .array items => '[' :: writeItems items ++ [']']
  | .object members => '{' :: writeMembers members ++ ['}']

def writeItems : List Json → List Char
  | [] => []
  | [v] => write v
  | v :: vs => write v ++ ',' :: ' ' :: writeItems vs

def writeMembers : List (Text × Json) → List Char
  | [] => []
  | [(name, v)] => stringLiteral name ++ ':' :: ' ' :: write v
  | (name, v) :: ms => stringLiteral name ++ ':' :: ' ' :: write v ++ ',' :: ' ' :: writeMembers ms

end

end LittleLisp.Json
