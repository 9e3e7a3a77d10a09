import LittleLisp.Datum.Printer
import LittleLisp.Fault
import LittleLisp.Store.Chain

/-!
Unfolding a cell into a tree. Lists may contain themselves, so a list that is met again on the path
from the root is cut off. Printing recognises a list by its first node, describing by its cell; both
are instances of one unfolding.
-/

namespace LittleLisp.Store

/-- How a list is recognised on a path: by a number, or never. -/
abbrev Identity := Store → CellId → HandleId → Option Nat

def byFirstNode : Identity := fun s _ h ↦ s.head h

def byCell : Identity := fun _ c _ ↦ some c

/-- The tree of a cell; `path` holds the lists around it. -/
def unfoldWith (identity : Identity) (s : Store) : Nat → List Nat → CellId → Datum
  | 0, _, _ => .mark .elided
  | fuel + 1, path, c =>
    match s.cell c with
    | .absent => .mark .absent
    | .atom name => .atom name
    | .number value => .number value
    | .str text => .str text
    | .bool flag => .bool flag
    | .function fn => .mark (.function fn.name)
    | .quoted inner => .quoted (unfoldWith identity s fuel path inner)
    | .list h =>
      match identity s c h with
      | none => .list ((s.items h).map (unfoldWith identity s fuel path))
      | some k =>
        if k ∈ path then .mark .elided
        else .list ((s.items h).map (unfoldWith identity s fuel (k :: path)))

/-- Every level either opens a list that is not on the path or goes to an older cell. -/
def unfoldFuel (s : Store) : Nat := (s.cells.size + s.nodes.size + 2) * (s.cells.size + 2)

def tree (s : Store) (c : CellId) : Datum := s.unfoldWith byFirstNode s.unfoldFuel [] c

def snapshot (s : Store) (c : CellId) : Datum := s.unfoldWith byCell s.unfoldFuel [] c

end LittleLisp.Store
