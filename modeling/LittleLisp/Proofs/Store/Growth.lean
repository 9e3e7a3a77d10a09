import LittleLisp.Proofs.Store.Chain
import LittleLisp.Store.Load
import LittleLisp.Store.Scope

/-!
How stores grow. Storing data only appends to the arrays of the store. Evaluation also links nodes
and changes bindings, but whatever is allocated stays, and no cell ever changes.
-/

namespace LittleLisp.Store

variable {s s' s'' : Store}

/-- All of `s` is there in `s'` as it was. -/
structure Appends (s s' : Store) : Prop where
  cells : ∀ {i : Nat} {x : Cell}, s.cells[i]? = some x → s'.cells[i]? = some x
  handles : ∀ {i : Nat} {x : Option NodeId}, s.handles[i]? = some x → s'.handles[i]? = some x
  nodes : ∀ {i : Nat} {x : Node}, s.nodes[i]? = some x → s'.nodes[i]? = some x
  scopes : s'.scopes = s.scopes

/-- All that is allocated in `s` is allocated in `s'`, and the cells are as they were. -/
structure Extends (s s' : Store) : Prop where
  cells : ∀ {i : Nat} {x : Cell}, s.cells[i]? = some x → s'.cells[i]? = some x
  handles : s.handles.size ≤ s'.handles.size
  nodes : s.nodes.size ≤ s'.nodes.size
  scopes : s.scopes.size ≤ s'.scopes.size

theorem size_le_of_getElem? {α : Type} {a b : Array α}
    (h : ∀ {i : Nat} {x : α}, a[i]? = some x → b[i]? = some x) : a.size ≤ b.size := by
  by_cases ha : a.size = 0
  · omega
  · have hlast : a[a.size - 1]? = some a[a.size - 1] := Array.getElem?_eq_getElem (by omega)
    have := (Array.getElem?_eq_some_iff.1 (h hlast)).1
    omega

theorem cell_eq_of_getElem? {c : Nat} {x : Cell} (h : s.cells[c]? = some x) : s.cell c = x := by
  rw [cell, h, Option.getD_some]

theorem lt_of_cell_ne_absent {c : Nat} (h : s.cell c ≠ .absent) : c < s.cells.size := by
  refine Nat.lt_of_not_ge fun hc ↦ h ?_
  rw [cell, Array.getElem?_eq_none hc]
  rfl

namespace Appends

theorem refl (s : Store) : Appends s s := ⟨id, id, id, rfl⟩

theorem trans (h : Appends s s') (h' : Appends s' s'') : Appends s s'' :=
  ⟨h'.cells ∘ h.cells, h'.handles ∘ h.handles, h'.nodes ∘ h.nodes, h'.scopes.trans h.scopes⟩

theorem cells_size (h : Appends s s') : s.cells.size ≤ s'.cells.size := size_le_of_getElem? h.cells

theorem handles_size (h : Appends s s') : s.handles.size ≤ s'.handles.size :=
  size_le_of_getElem? h.handles

theorem nodes_size (h : Appends s s') : s.nodes.size ≤ s'.nodes.size := size_le_of_getElem? h.nodes

theorem toExtends (h : Appends s s') : Extends s s' :=
  ⟨h.cells, h.handles_size, h.nodes_size, Nat.le_of_eq (by rw [h.scopes])⟩

theorem read_node (h : Appends s s') {n : Nat} (hn : n < s.nodes.size) :
    s'.nodes[n]? = s.nodes[n]? := by
  have hread : s.nodes[n]? = some s.nodes[n] := Array.getElem?_eq_getElem hn
  rw [hread, h.nodes hread]

theorem links (h : Appends s s') {o : Option NodeId} {ns : List NodeId} (hl : Links s o ns) :
    Links s' o ns :=
  hl.congr fun _ hn ↦ h.read_node (hl.mem_lt hn)

theorem nodeValue_eq (h : Appends s s') {n : Nat} (hn : n < s.nodes.size) :
    s'.nodeValue n = s.nodeValue n := by
  simp only [nodeValue, h.read_node hn]

end Appends

theorem getElem?_push_of_some {α : Type} {a : Array α} {i : Nat} {x y : α} (h : a[i]? = some x) :
    (a.push y)[i]? = some x := by
  have hi := (Array.getElem?_eq_some_iff.1 h).1
  rw [Array.getElem?_push, if_neg (Nat.ne_of_lt hi), h]

theorem cell_addCell (x : Cell) (s : Store) : (s.addCell x).2.cell s.cells.size = x := by
  simp [cell, addCell]

theorem appends_addCell (c : Cell) (s : Store) : Appends s (s.addCell c).2 :=
  ⟨getElem?_push_of_some, id, id, rfl⟩

theorem appends_addListFrom (head : Option NodeId) (s : Store) :
    Appends s (s.addListFrom head).2 :=
  ⟨getElem?_push_of_some, getElem?_push_of_some, id, rfl⟩

theorem appends_addChain (vs : List CellId) (s : Store) : Appends s (addChain vs s).2 where
  cells h := by simpa using h
  handles h := by simpa using h
  nodes h := by rw [addChain_nodes_old _ _ (Array.getElem?_eq_some_iff.1 h).1, h]
  scopes := addChain_scopes vs s

theorem appends_addList (vs : List CellId) (s : Store) : Appends s (addList vs s).2 :=
  (appends_addChain vs s).trans (appends_addListFrom _ _)

namespace Extends

theorem refl (s : Store) : Extends s s := (Appends.refl s).toExtends

theorem trans (h : Extends s s') (h' : Extends s' s'') : Extends s s'' :=
  ⟨h'.cells ∘ h.cells, Nat.le_trans h.handles h'.handles, Nat.le_trans h.nodes h'.nodes,
    Nat.le_trans h.scopes h'.scopes⟩

theorem cells_size (h : Extends s s') : s.cells.size ≤ s'.cells.size := size_le_of_getElem? h.cells

theorem cell_eq (h : Extends s s') {c : Nat} (hc : c < s.cells.size) : s'.cell c = s.cell c := by
  have hread : s.cells[c]? = some s.cells[c] := Array.getElem?_eq_getElem hc
  rw [cell, cell, hread, h.cells hread]

theorem cell_eq_of_ne_absent (h : Extends s s') {c : Nat} {x : Cell} (hc : s.cell c = x)
    (hx : x ≠ .absent) : s'.cell c = x := by
  rw [h.cell_eq (lt_of_cell_ne_absent (hc ▸ hx)), hc]

end Extends

theorem extends_push (h : HandleId) (v : CellId) (s : Store) : Extends s (s.push h v) where
  cells := by simp
  handles := by simp
  nodes := by simp
  scopes := by simp

theorem extends_define (e : ScopeId) (name : Text) (c : CellId) (s : Store) :
    Extends s (s.define e name c) where
  cells := id
  handles := Nat.le_refl _
  nodes := Nat.le_refl _
  scopes := by simp [define]

theorem extends_addScope (outer : Option ScopeId) (s : Store) : Extends s (s.addScope outer).2 where
  cells := id
  handles := Nat.le_refl _
  nodes := Nat.le_refl _
  scopes := by simp [addScope]

end LittleLisp.Store
