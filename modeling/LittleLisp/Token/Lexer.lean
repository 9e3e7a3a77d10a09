import LittleLisp.Fault
import LittleLisp.Text.Blank
import LittleLisp.Token.Basic

/-!
Tokens of a source text. Between tokens stand gaps: blanks, and comments from a semicolon to the
end of the line. A string literal runs to the next double quote that no backslash escapes; a
symbol runs as far as its code points go.
-/

namespace LittleLisp

structure Lexed where
  tokens : List Token
  fault : Option Fault

def Lexed.prepend (ts : List Token) (l : Lexed) : Lexed := { l with tokens := ts ++ l.tokens }

namespace Lexer

def isDelimiter (c : CodePoint) : Bool :=
  c = '(' || c = ')' || c = '\x27' || c = '"' || c = ';'

def isSymbolPoint (c : CodePoint) : Bool := !c.isBlank && !isDelimiter c

/-- What the lexer is in the middle of; what has been read so far is in reverse order. -/
inductive Mode where
  | gap
  | comment
  | symbol (read : Text)
  | string (start : Nat) (read : Text)
  /-- In a string, after a backslash. -/
  | escape (start : Nat) (read : Text)

def token (kind : TokenKind) (read : Text) : Token := ⟨kind, read.reverse⟩

/-- The effect of a code point outside a token: the token that it is, if it is one by itself, and
the mode that it starts. -/
def start (position : Nat) (c : CodePoint) : Option Token × Mode :=
  if c.isBlank then (none, .gap)
  else if c = ';' then (none, .comment)
  else if c = '\x27' then (some (token .quote [c]), .gap)
  else if c = '(' then (some (token .open [c]), .gap)
  else if c = ')' then (some (token .close [c]), .gap)
  else if c = '"' then (none, .string position [c])
  else (none, .symbol [c])

def step (position : Nat) (c : CodePoint) : Mode → List Token × Mode
  | .gap => let (t, mode) := start position c; (t.toList, mode)
  | .comment => ([], if c = '\n' then .gap else .comment)
  | .symbol read =>
    if isSymbolPoint c then ([], .symbol (c :: read))
    else let (t, mode) := start position c; (token .symbol read :: t.toList, mode)
  | .string opened read =>
    if c = '"' then ([token .string (c :: read)], .gap)
    else if c = '\\' then ([], .escape opened (c :: read))
    else ([], .string opened (c :: read))
  | .escape opened read => ([], .string opened (c :: read))

def finish : Mode → Lexed
  | .gap | .comment => ⟨[], none⟩
  | .symbol read => ⟨[token .symbol read], none⟩
  | .string opened _ | .escape opened _ => ⟨[], some (.unterminatedString opened)⟩

def run (position : Nat) (mode : Mode) : Text → Lexed
  | [] => finish mode
  | c :: cs =>
    match step position c mode with
    | ([], next) => run (position + 1) next cs
    | (done, next) => (run (position + 1) next cs).prepend done

end Lexer

def lex (source : Text) : Lexed := Lexer.run 0 .gap source

end LittleLisp
