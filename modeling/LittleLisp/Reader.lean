import LittleLisp.Number.Numeral
import LittleLisp.Token.Stream

/-!
Reading data from tokens. The reader keeps a stack of what is open, a quote or a list, and handles
one token at a time, so a fault is always that of the leftmost token that cannot stand where it
stands. Reading goes as deep as the text does, and so do printing and describing: the recursion
limit of the host is left out of them, and only evaluation and comparison have a budget.
-/

namespace LittleLisp

namespace Datum

def ofSymbol (text : Text) : Datum :=
  match text.chars?.bind Numeral.ofChars? with
  | some n => .number n.value
  | none =>
    if text = "#t" then .bool true
    else if text = "#f" then .bool false
    else .atom text

def unescape : Text → Text
  | .scalar '\\' :: c :: cs => c :: unescape cs
  | c :: cs => c :: unescape cs
  | [] => []

def ofLiteral (text : Text) : Datum := .str (unescape (text.drop 1).dropLast)

end Datum

namespace Reader

/-- Something open: a quote that awaits its datum, or a list with its items in reverse order. -/
inductive Frame where
  | quote
  | list (items : List Datum)

inductive Step where
  | continue (stack : List Frame)
  | finished (d : Datum)
  | fault (f : Fault)

def place (d : Datum) : List Frame → Step
  | [] => .finished d
  | .quote :: stack => place (.quoted d) stack
  | .list items :: stack => .continue (.list (d :: items) :: stack)

def step (stack : List Frame) (t : Token) : Step :=
  match t.kind, stack with
  | .symbol, _ => place (.ofSymbol t.text) stack
  | .string, _ => place (.ofLiteral t.text) stack
  | .quote, _ => .continue (.quote :: stack)
  | .open, _ => .continue (.list [] :: stack)
  | .close, [] => .fault .unmatchedClose
  | .close, .quote :: _ => .fault .nothingToQuote
  | .close, .list items :: stack => place (.list items.reverse) stack
  | .other name, _ => .fault (.unknownToken name t.text)

def atEnd : List Frame → Option Fault
  | [] => none
  | .quote :: _ => some .nothingToQuote
  | .list _ :: _ => some .unmatchedOpen

def one (fault : Option Fault) (stack : List Frame) :
    List Token → Except Fault (Option Datum) × TokenStream
  | [] =>
    match fault.or (atEnd stack) with
    | some f => (.error f, .ended)
    | none => (.ok none, .ended)
  | t :: ts =>
    match step stack t with
    | .continue stack => one fault stack ts
    | .finished d => (.ok (some d), ⟨none, ts, fault⟩)
    | .fault f => (.error f, ⟨some t, ts, fault⟩)

def all (fault : Option Fault) (stack : List Frame) :
    List Token → List Datum × Option Fault × TokenStream
  | [] => ([], fault.or (atEnd stack), .ended)
  | t :: ts =>
    match step stack t with
    | .continue stack => all fault stack ts
    | .finished d =>
      let (ds, f, s) := all fault [] ts
      (d :: ds, f, s)
    | .fault f => ([], some f, ⟨some t, ts, fault⟩)

end Reader

namespace TokenStream

def expr (s : TokenStream) : Except Fault (Option Datum) × TokenStream :=
  Reader.one s.fault [] s.pending

/-- Reads all expressions that are left: those before the first fault, and the fault. -/
def all (s : TokenStream) : List Datum × Option Fault × TokenStream :=
  Reader.all s.fault [] s.pending

end TokenStream

structure Program where
  text : Text
  entry : Option Datum

namespace Program

def parse (source : Text) : Except Fault Program := do
  let text := source.trim
  let (entry, stream) := (TokenStream.ofLexed (lex text)).expr
  let entry ← entry
  match ← stream.peek.1 with
  | none => return ⟨text, entry⟩
  | some t => throw (if t.kind = .close then .unmatchedClose else .extraExpression)

end Program

end LittleLisp
