import LittleLisp.Evaluator.Basic
import LittleLisp.Store.Equality

/-!
Operations on cells for a program that embeds the language. They are the list operations of the
language with faults of their own, and the count of distinct cells.
-/

namespace LittleLisp.Host

def handle (operation : String) (s : Store) (c : CellId) : Except Fault HandleId :=
  match s.cell c with
  | .list h => .ok h
  | _ => .error (.listExpected operation (s.snapshot c))

def pushBack (list value : CellId) (s : Store) : Except Fault Store := do
  return s.push (← handle "push" s list) value

def split (list : CellId) (s : Store) : Except Fault (CellId × Option CellId × Store) := do
  match s.split? (← handle "split" s list) with
  | none => throw .splitOfEmpty
  | some (first, none) => return (first, none, s)
  | some (first, some rest) =>
    let (c, s) := s.addListFrom (some rest)
    return (first, some c, s)

def toSequence (list : CellId) (s : Store) : Except Fault (List CellId) := do
  return s.items (← handle "to_sequence" s list)

def isEmptyList (s : Store) (c : CellId) : Bool :=
  match s.cell c with
  | .list h => (s.head h).isNone
  | _ => false

/-- A cell is counted once, and so are cells that are equal. -/
def distinctFrom (s : Store) (seen : List CellId) : List CellId → Except Fault Nat
  | [] => return seen.length
  | c :: cs =>
    match s.cell c with
    | .quoted _ | .list _ => throw (.unhashable (s.cell c).variant)
    | _ =>
      if seen.any fun d ↦ s.same? 1 c d == some true then distinctFrom s seen cs
      else distinctFrom s (c :: seen) cs

def distinct (s : Store) (cs : List CellId) : Except Fault Nat := distinctFrom s [] cs

end LittleLisp.Host
