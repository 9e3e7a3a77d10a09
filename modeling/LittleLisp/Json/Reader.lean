import LittleLisp.Json.Basic
import LittleLisp.Number.Numeral

/-!
Reading JSON. Every function reads from the front of a text and gives back what is left of it.
Not-a-number and the infinities are accepted by their names.
-/

namespace LittleLisp.Json

def isBlank (c : Char) : Bool := c = ' ' || c = '\t' || c = '\n' || c = '\r'

def skipBlanks (cs : List Char) : List Char := cs.dropWhile isBlank

def hexValue? (c : Char) : Option Nat :=
  if c.isDigit then some (c.toNat - '0'.toNat)
  else if 'a' ≤ c ∧ c ≤ 'f' then some (c.toNat - 'a'.toNat + 10)
  else if 'A' ≤ c ∧ c ≤ 'F' then some (c.toNat - 'A'.toNat + 10)
  else none

def codeUnit? (a b c d : Char) : Option Nat := do
  return (((← hexValue? a) * 16 + (← hexValue? b)) * 16 + (← hexValue? c)) * 16 + (← hexValue? d)

def isHighSurrogate (n : Nat) : Bool := 0xd800 ≤ n && n ≤ 0xdbff

def isLowSurrogate (n : Nat) : Bool := 0xdc00 ≤ n && n ≤ 0xdfff

def pairPoint (high low : Nat) : CodePoint :=
  .ofNat (0x10000 + (high - 0xd800) * 0x400 + (low - 0xdc00))

/-- Joins surrogate pairs; the first argument is a high surrogate that awaits its other half. A half
that stays alone is a code point of its own. -/
def joinUnits : Option Nat → List Nat → Text
  | none, [] => []
  | some high, [] => [.ofNat high]
  | none, n :: ns =>
    if isHighSurrogate n then joinUnits (some n) ns else .ofNat n :: joinUnits none ns
  | some high, n :: ns =>
    if isLowSurrogate n then pairPoint high n :: joinUnits none ns
    else if isHighSurrogate n then .ofNat high :: joinUnits (some n) ns
    else .ofNat high :: .ofNat n :: joinUnits none ns

def escaped? : Char → Option Char
  | '"' => some '"'
  | '\\' => some '\\'
  | '/' => some '/'
  | 'b' => some '\x08'
  | 'f' => some '\x0c'
  | 'n' => some '\n'
  | 'r' => some '\r'
  | 't' => some '\t'
  | _ => none

/-- The code points of a string after its opening quote, with escaped surrogates as they stand;
`opened` is the number of characters from that quote to the end. -/
def stringUnits (opened : Nat) : List Char → Except Fault (List Nat × List Char)
  | [] => .error (.malformed .unterminatedString opened)
  | '"' :: rest => .ok ([], rest)
  | ['\\'] => .error (.malformed .unterminatedString opened)
  | '\\' :: 'u' :: a :: b :: c :: d :: rest =>
    match codeUnit? a b c d with
    | some n =>
      if rest = [] then .error (.malformed .unicodeEscape 5)
      else prepend n (stringUnits opened rest)
    | none => .error (.malformed .unicodeEscape (rest.length + 5))
  | '\\' :: 'u' :: rest => .error (.malformed .unicodeEscape (rest.length + 1))
  | '\\' :: c :: rest =>
    match escaped? c with
    | some c => prepend c.toNat (stringUnits opened rest)
    | none => .error (.malformed .escape (rest.length + 2))
  | c :: rest =>
    if c.toNat < 0x20 then .error (.malformed .controlCharacter (rest.length + 1))
    else prepend c.toNat (stringUnits opened rest)
where
  prepend (n : Nat) (r : Except Fault (List Nat × List Char)) :
      Except Fault (List Nat × List Char) :=
    r.map fun p ↦ (n :: p.1, p.2)

def stringRest (opened : Nat) (cs : List Char) : Except Fault (Text × List Char) := do
  let (units, rest) ← stringUnits opened cs
  return (joinUnits none units, rest)

/-- The fraction of a number, which is there only if a digit follows the point. -/
def takeFraction (cs : List Char) : List Char × List Char :=
  match cs with
  | '.' :: rest =>
    let digits := rest.takeWhile Char.isDigit
    if digits = [] then ([], cs) else ('.' :: digits, rest.dropWhile Char.isDigit)
  | _ => ([], cs)

/-- The exponent of a number, which is there only if it has a digit. -/
def takeExponent (cs : List Char) : List Char × List Char :=
  match cs with
  | c :: rest =>
    if c = 'e' ∨ c = 'E' then
      let sign := rest.takeWhile (fun c ↦ c = '+' || c = '-') |>.take 1
      let rest := rest.drop sign.length
      let digits := rest.takeWhile Char.isDigit
      if digits = [] then ([], cs) else (c :: sign ++ digits, rest.dropWhile Char.isDigit)
    else ([], cs)
  | [] => ([], cs)

/-- The digits of a number before its point: a single zero, or digits that do not start with one. -/
def takeWhole (cs : List Char) : List Char × List Char :=
  match cs with
  | '0' :: rest => (['0'], rest)
  | _ => (cs.takeWhile Char.isDigit, cs.dropWhile Char.isDigit)

def number (cs : List Char) : Except Fault (Json × List Char) := do
  let (sign, rest) := if cs.head? = some '-' then (['-'], cs.drop 1) else ([], cs)
  let (whole, rest) := takeWhole rest
  if whole = [] then throw (.malformed .value cs.length)
  let (fraction, rest) := takeFraction rest
  let (exponent, rest) := takeExponent rest
  let text := sign ++ whole ++ fraction ++ exponent
  if fraction = [] ∧ exponent = [] then
    match Text.parseInteger (.ofList text) with
    | .ok n => return (.integer n, rest)
    | .error f => throw (.integer f)
  else
    return (.real ((Numeral.ofChars? text).map Numeral.value |>.getD .nan), rest)

mutual

/-- Reads a value that may open `depth` arrays and objects inside one another. Of two nested calls
at least one gets past a character: the items of an array are read from where its bracket ends. So
twice the length of the text is fuel enough. -/
def value (depth : Nat) : Nat → List Char → Except Fault (Json × List Char)
  | 0, cs => .error (.malformed .value cs.length)
  | fuel + 1, cs =>
    match cs with
    | '"' :: rest => do
      let (text, rest) ← stringRest cs.length rest
      return (.string text, rest)
    | '{' :: rest =>
      match depth with
      | 0 => .error .tooDeep
      | depth + 1 =>
        match skipBlanks rest with
        | '}' :: rest => .ok (.object [], rest)
        | rest => do
          let (ms, rest) ← members depth fuel rest
          return (.object ms, rest)
    | '[' :: rest =>
      match depth with
      | 0 => .error .tooDeep
      | depth + 1 =>
        match skipBlanks rest with
        | ']' :: rest => .ok (.array [], rest)
        | rest => do
          let (vs, rest) ← elements depth fuel rest
          return (.array vs, rest)
    | 'n' :: 'u' :: 'l' :: 'l' :: rest => .ok (.null, rest)
    | 't' :: 'r' :: 'u' :: 'e' :: rest => .ok (.bool true, rest)
    | 'f' :: 'a' :: 'l' :: 's' :: 'e' :: rest => .ok (.bool false, rest)
    | 'N' :: 'a' :: 'N' :: rest => .ok (.real .nan, rest)
    | 'I' :: 'n' :: 'f' :: 'i' :: 'n' :: 'i' :: 't' :: 'y' :: rest =>
      .ok (.real (.infinite false), rest)
    | '-' :: 'I' :: 'n' :: 'f' :: 'i' :: 'n' :: 'i' :: 't' :: 'y' :: rest =>
      .ok (.real (.infinite true), rest)
    | _ => number cs

def members (depth : Nat) : Nat → List Char → Except Fault (List (Text × Json) × List Char)
  | 0, cs => .error (.malformed .value cs.length)
  | fuel + 1, cs =>
    match cs with
    | '"' :: rest => do
      let (name, rest) ← stringRest cs.length rest
      match skipBlanks rest with
      | ':' :: rest =>
        let (v, rest) ← value depth fuel (skipBlanks rest)
        match skipBlanks rest with
        | '}' :: rest => return ([(name, v)], rest)
        | ',' :: rest =>
          let (ms, rest) ← members depth fuel (skipBlanks rest)
          return ((name, v) :: ms, rest)
        | rest => throw (.malformed .comma rest.length)
      | rest => throw (.malformed .colon rest.length)
    | _ => .error (.malformed .memberName cs.length)

def elements (depth : Nat) : Nat → List Char → Except Fault (List Json × List Char)
  | 0, cs => .error (.malformed .value cs.length)
  | fuel + 1, cs => do
    let (v, rest) ← value depth fuel cs
    match skipBlanks rest with
    | ']' :: rest => return ([v], rest)
    | ',' :: rest =>
      let (vs, rest) ← elements depth fuel (skipBlanks rest)
      return (v :: vs, rest)
    | rest => throw (.malformed .comma rest.length)

end

def parseWithin (depth : Nat) (text : List Char) : Except Fault Json := do
  if text.head? = some '\ufeff' then throw (.malformed .byteOrderMark text.length)
  let (v, rest) ← value depth (2 * text.length + 2) (skipBlanks text)
  match skipBlanks rest with
  | [] => return v
  | rest => throw (.malformed .extraData rest.length)

/-- Reads a text however deep it goes; it goes no deeper than it is long. -/
def parse (text : List Char) : Except Fault Json := parseWithin text.length text

end LittleLisp.Json
