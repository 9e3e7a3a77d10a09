import LittleLisp.Evaluator.Machine
import LittleLisp.Number.Arithmetic
import LittleLisp.Store.Equality

namespace LittleLisp.Builtin

open EvalM

def numbers (op : Builtin) : List CellId → EvalM (List Binary64) :=
  readAll Cell.number? (.notNumeric op)

def number (x : Binary64) : EvalM CellId := change (·.addCell (.number x))

def emptyList : EvalM CellId := change (·.addList [])

def fold (op : Builtin) (start : Binary64) (f : Binary64 → Binary64 → Binary64)
    (args : List CellId) : EvalM CellId := do
  number ((← numbers op args).foldl f start)

def foldFirst (op : Builtin) (f : Binary64 → Binary64 → Binary64) (args : List CellId) :
    EvalM CellId := do
  match ← numbers op args with
  | [] => throw (.operandsMissing op)
  | x :: xs => number (xs.foldl f x)

def listOperand (op : Builtin) (c : CellId) : EvalM HandleId := do
  match ← cell c with
  | .list h => return h
  | _ => reject (.operandNotList op) c

def applyPush : List CellId → EvalM CellId
  | [v, l] => do
    let h ← listOperand .push l
    change fun s ↦ (l, s.push h v)
  | args => throw (.operandCount .push 2 args.length)

/-- The first item itself; the first item of an empty list is an empty list. -/
def applyCar : List CellId → EvalM CellId
  | [l] => do
    let h ← listOperand .car l
    match (← getStore).split? h with
    | some (first, _) => return first
    | none => emptyList
  | args => throw (.operandCount .car 1 args.length)

/-- The items after the first, as a list that shares its nodes with the operand. -/
def applyCdr : List CellId → EvalM CellId
  | [l] => do
    let h ← listOperand .cdr l
    match (← getStore).split? h with
    | some (_, some rest) => change (·.addListFrom (some rest))
    | _ => emptyList
  | args => throw (.operandCount .cdr 1 args.length)

def applyEq (compareDepth : Nat) : List CellId → EvalM CellId
  | [a, b] => do
    match (← getStore).same? compareDepth a b with
    | some r => change (·.addCell (.bool r))
    | none => throw .tooDeep
  | args => throw (.comparandCount args.length)

def apply (compareDepth : Nat) (op : Builtin) (args : List CellId) : EvalM CellId :=
  match op with
  | .add => fold .add (.zero false) .add args
  | .sub => foldFirst .sub .sub args
  | .mul => fold .mul (.ofNat 1) .mul args
  | .div => foldFirst .div .div args
  | .list => change (·.addList args)
  | .push => applyPush args
  | .car => applyCar args
  | .cdr => applyCdr args
  | .eq => applyEq compareDepth args

end LittleLisp.Builtin
