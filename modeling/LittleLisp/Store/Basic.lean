import LittleLisp.Number.Binary64
import LittleLisp.Operator
import LittleLisp.Text.CodePoint

/-!
The store of a running program. Cells are the values; a list cell refers to a handle, a handle to
the first node of a chain, and a node to a cell and to the next node. Several handles may reach one
chain, and several cells one handle. Everything is allocated at the end of its array and stays
there, and every reference that is not allocated reads as nothing.
-/

namespace LittleLisp

abbrev CellId := Nat
abbrev HandleId := Nat
abbrev NodeId := Nat
abbrev ScopeId := Nat

inductive Executor where
  | operator (op : Operator)
  | closure (captured : ScopeId) (params : List Text) (body : CellId)
deriving DecidableEq

structure FunctionValue where
  name : Text
  kind : Kind
  executor : Executor
deriving DecidableEq

inductive Cell where
  | absent
  | atom (name : Text)
  | number (value : Binary64)
  | str (text : Text)
  | bool (flag : Bool)
  | quoted (inner : CellId)
  | function (fn : FunctionValue)
  | list (items : HandleId)
deriving DecidableEq

def Cell.variant : Cell → String
  | .absent => "None"
  | .atom _ => "Atom"
  | .number _ => "Number"
  | .str _ => "Str"
  | .bool _ => "Bool"
  | .quoted _ => "Quoted"
  | .function _ => "Function"
  | .list _ => "ListCell"

def Cell.name? : Cell → Option Text
  | .atom name => some name
  | _ => none

def Cell.number? : Cell → Option Binary64
  | .number value => some value
  | _ => none

structure Node where
  value : CellId
  next : Option NodeId
deriving DecidableEq

structure Scope where
  /-- Names in the order of their first definition. -/
  bindings : List (Text × CellId)
  outer : Option ScopeId
deriving DecidableEq

structure Store where
  cells : Array Cell
  handles : Array (Option NodeId)
  nodes : Array Node
  scopes : Array Scope

namespace Store

def empty : Store := ⟨#[.absent], #[], #[], #[]⟩

/-- The cell of which there is only one: no value. -/
def absentId : CellId := 0

def cell (s : Store) (c : CellId) : Cell := s.cells[c]?.getD .absent

def addCell (c : Cell) (s : Store) : CellId × Store :=
  (s.cells.size, { s with cells := s.cells.push c })

end Store

end LittleLisp
