import LittleLisp.Text.Quoted

/-!
Decoding of UTF-8, one byte at a time. The first byte of a character says how many bytes follow and
which values the next one may have; a fault covers the bytes of the character that were acceptable.
-/

namespace LittleLisp.Text.Utf8

inductive Problem where
  | invalidStart
  | invalidContinuation
  | unexpectedEnd
deriving DecidableEq

structure Fault where
  problem : Problem
  /-- Where the character starts, and its first byte. -/
  position : Nat
  first : Nat
  /-- How many bytes the fault covers. -/
  length : Nat

def Problem.text : Problem → String
  | .invalidStart => "invalid start byte"
  | .invalidContinuation => "invalid continuation byte"
  | .unexpectedEnd => "unexpected end of data"

def Fault.message (f : Fault) : String :=
  let place :=
    if f.length = 1 then
      "byte 0x" ++ .ofList (hexDigits 2 f.first) ++ " in position " ++ toString f.position
    else
      "bytes in position " ++ toString f.position ++ "-" ++ toString (f.position + f.length - 1)
  "\x27utf-8\x27 codec can\x27t decode " ++ place ++ ": " ++ f.problem.text

structure Pending where
  position : Nat
  first : Nat
  read : Nat
  owed : Nat
  /-- The least and the greatest value of the next byte. -/
  low : Nat
  high : Nat
  value : Nat

def Pending.fault (p : Pending) (problem : Problem) : Fault :=
  ⟨problem, p.position, p.first, p.read⟩

def begin? (position b : Nat) : Option Pending :=
  let pending (owed low high value : Nat) : Option Pending :=
    some ⟨position, b, 1, owed, low, high, value⟩
  if b < 0xc2 then none
  else if b < 0xe0 then pending 1 0x80 0xbf (b - 0xc0)
  else if b < 0xf0 then
    pending 2 (if b = 0xe0 then 0xa0 else 0x80) (if b = 0xed then 0x9f else 0xbf) (b - 0xe0)
  else if b < 0xf5 then
    pending 3 (if b = 0xf0 then 0x90 else 0x80) (if b = 0xf4 then 0x8f else 0xbf) (b - 0xf0)
  else none

def decodeFrom (position : Nat) : Option Pending → List UInt8 → Except Fault (List Char)
  | none, [] => .ok []
  | some p, [] => .error (p.fault .unexpectedEnd)
  | none, byte :: bytes =>
    let b := byte.toNat
    if b < 0x80 then (Char.ofNat b :: ·) <$> decodeFrom (position + 1) none bytes
    else
      match begin? position b with
      | some p => decodeFrom (position + 1) (some p) bytes
      | none => .error ⟨.invalidStart, position, b, 1⟩
  | some p, byte :: bytes =>
    let b := byte.toNat
    if b < p.low ∨ p.high < b then .error (p.fault .invalidContinuation)
    else
      let value := p.value * 64 + (b - 0x80)
      if p.owed = 1 then (Char.ofNat value :: ·) <$> decodeFrom (position + 1) none bytes
      else
        decodeFrom (position + 1)
          (some { p with read := p.read + 1, owed := p.owed - 1, low := 0x80, high := 0xbf, value })
          bytes

def decode (bytes : List UInt8) : Except Fault (List Char) := decodeFrom 0 none bytes

end LittleLisp.Text.Utf8
