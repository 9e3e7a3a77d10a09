import LittleLisp.Fault
import LittleLisp.Store.Scope
import LittleLisp.Store.Unfold

/-!
What evaluation runs on: the store, the events noted so far, and faults that leave both as they
are at the moment of the fault.
-/

namespace LittleLisp

inductive Event where
  | lookup (name : Text)
  | call (name : Text) (kind : Kind) (arguments : Nat)
  | returned (name : Text) (value : Datum)

def Event.message : Event → Text
  | .lookup name => "looking up symbol " ++ name
  | .call name kind arguments =>
    "calling " ++ name ++ " (" ++ kind.name ++ ") with " ++ toString arguments ++ " argument(s)"
  | .returned name value => name ++ " returned " ++ value.described

structure Settings where
  /-- How many evaluations may be nested. -/
  evalDepth : Nat := 2000
  /-- How many comparisons may be nested. -/
  compareDepth : Nat := 2000
  traced : Bool := false

structure Machine where
  store : Store
  trace : Array Event

abbrev EvalM := ExceptT Fault (StateM Machine)

namespace EvalM

variable {α : Type}

def getStore : EvalM Store := return (← get).store

def change (f : Store → α × Store) : EvalM α :=
  modifyGet fun m ↦ let (a, s) := f m.store; (a, { m with store := s })

def cell (c : CellId) : EvalM Cell := return (← getStore).cell c

def items (h : HandleId) : EvalM (List CellId) := return (← getStore).items h

def snapshot (c : CellId) : EvalM Datum := return (← getStore).snapshot c

/-- Fails with a fault about the present value of a cell. -/
def reject (fault : Datum → Fault) (c : CellId) : EvalM α := do
  throw (fault (← snapshot c))

/-- What each of the cells holds, up to the first one that holds nothing of the kind. -/
def readAll (content? : Cell → Option α) (fault : Datum → Fault) : List CellId → EvalM (List α)
  | [] => return []
  | c :: cs => do
    match content? (← cell c) with
    | some a => return a :: (← readAll content? fault cs)
    | none => reject fault c

def note (event : Event) : EvalM Unit :=
  modify fun m ↦ { m with trace := m.trace.push event }

def execute (x : EvalM α) (m : Machine) : Except Fault α × Machine := x.run m

end EvalM

end LittleLisp
