import LittleLisp.Proofs.Store.Built
import LittleLisp.Proofs.Store.Holding

/-!
The tree that is printed. A cell is unrolled along its quotes and lists, and a list that is entered
again below itself is cut off; lists are told apart by their first nodes, so a list is recognised
through whatever handle it is met. Every cell of a store that can be built has exactly one such
tree, which is the one that is printed.
-/

namespace LittleLisp.Store

variable {s : Store} {c : CellId} {path : List NodeId} {d d' : Datum}

/-- The cell is unrolled to the datum, inside lists whose first nodes are in `path`. A list is cut
off where `stops` says so of the lists around it and its first node. -/
inductive Unrolls (s : Store) (stops : List NodeId → NodeId → Prop) :
    List NodeId → CellId → Datum → Prop
  | atom {path c name} (cell : s.cell c = .atom name) : Unrolls s stops path c (.atom name)
  | number {path c value} (cell : s.cell c = .number value) :
      Unrolls s stops path c (.number value)
  | str {path c text} (cell : s.cell c = .str text) : Unrolls s stops path c (.str text)
  | bool {path c flag} (cell : s.cell c = .bool flag) : Unrolls s stops path c (.bool flag)
  | function {path c fn} (cell : s.cell c = .function fn) :
      Unrolls s stops path c (.mark (.function fn.name))
  | quoted {path c i d} (cell : s.cell c = .quoted i) (inner : Unrolls s stops path i d) :
      Unrolls s stops path c (.quoted d)
  | empty {path c h} (cell : s.cell c = .list h) (head : s.head h = none) :
      Unrolls s stops path c (.list [])
  | cut {path c h n} (cell : s.cell c = .list h) (head : s.head h = some n)
      (stop : stops path n) : Unrolls s stops path c (.mark .elided)
  | list {path c h n} {f : CellId → Datum} (cell : s.cell c = .list h) (head : s.head h = some n)
      (new : ¬ stops path n) (items : ∀ i ∈ s.items h, Unrolls s stops (n :: path) i (f i)) :
      Unrolls s stops path c (.list ((s.items h).map f))

def entered (path : List NodeId) (n : NodeId) : Prop := n ∈ path

def never (_ : List NodeId) (_ : NodeId) : Prop := False

namespace Unrolls

variable {stops : List NodeId → NodeId → Prop}

theorem unique (h : s.Unrolls stops path c d) (h' : s.Unrolls stops path c d') : d = d' := by
  induction h generalizing d' with
  | quoted cell _ ih =>
    cases h' with
    | quoted cell' inner =>
      cases cell.symm.trans cell'
      rw [ih inner]
    | _ => simp_all
  | list cell head new _ ih =>
    cases h' with
    | list cell' head' _ items =>
      cases cell.symm.trans cell'
      cases head.symm.trans head'
      exact congrArg Datum.list (List.map_congr_left fun i hi ↦ ih i hi (items i hi))
    | _ => simp_all
  | _ => cases h' <;> simp_all

theorem complete (h : s.Unrolls stops path c d) : d.complete = true := by
  induction h with
  | quoted _ _ ih => exact ih
  | list _ _ _ _ ih =>
    rw [Datum.complete, allComplete_iff]
    intro d hd
    obtain ⟨i, hi, rfl⟩ := List.mem_map.1 hd
    exact ih i hi
  | _ => rfl

end Unrolls

/-- The fuel of an unfolding lasts as long as every list on the path is new. -/
theorem unrolls_unfoldWith (hs : s.Whole) {fuel : Nat} (hc : s.Present (.cell c))
    (hnodup : path.Nodup) (hpath : ∀ n ∈ path, n < s.nodes.size)
    (hf : s.unfoldSteps s.nodes.size path.length c ≤ fuel) :
    s.Unrolls entered path c (s.unfoldWith byFirstNode fuel path c) := by
  induction fuel generalizing path c with
  | zero => simp [unfoldSteps] at hf
  | succ fuel ih =>
    rw [unfoldWith]
    split
    case h_1 hcell => exact absurd hcell (Present.cell_iff.1 hc)
    case h_2 hcell => exact .atom hcell
    case h_3 hcell => exact .number hcell
    case h_4 hcell => exact .str hcell
    case h_5 hcell => exact .bool hcell
    case h_6 hcell => exact .function hcell
    case h_7 i hcell =>
      have hlt : c < s.cells.size := lt_of_cell_ne_absent (Present.cell_iff.1 hc)
      have hsteps : s.unfoldSteps s.nodes.size path.length i <
          s.unfoldSteps s.nodes.size path.length c :=
        unfoldSteps_quoted (hs.wellFormed.inner_lt hcell) hlt
      exact .quoted hcell (ih (hs.quoted hcell) hnodup hpath (by omega))
    case h_8 h hcell =>
      have hbounded := bounded_byFirstNode hs.wellFormed
      split
      case h_1 hnone =>
        rw [hbounded.nil (c := c) hnone, List.map_nil]
        exact .empty hcell hnone
      case h_2 n hhead =>
        split
        case isTrue hmem => exact .cut hcell hhead hmem
        case isFalse hmem =>
          have hnodup' : (n :: path).Nodup := List.nodup_cons.2 ⟨hmem, hnodup⟩
          have hpath' : ∀ m ∈ n :: path, m < s.nodes.size :=
            List.forall_mem_cons.2 ⟨hbounded.lt hcell hhead, hpath⟩
          have hopen := length_lt_of_nodup hnodup' hpath'
          refine .list hcell hhead hmem fun i hi ↦ ih (hs.item hi) hnodup' hpath' ?_
          have hsteps := unfoldSteps_item (s := s) hopen c i
          rw [List.length_cons]
          omega

theorem unrolls_tree (hs : s.Whole) (hc : s.Present (.cell c)) :
    s.Unrolls entered [] c (s.tree c) := by
  refine unrolls_unfoldWith hs hc List.nodup_nil nofun ?_
  exact unfoldSteps_le_unfoldFuel (Nat.le_add_left _ _) c

theorem print_tree (hs : s.Whole) (hc : s.Present (.cell c)) :
    s.print c = .ok (s.tree c).print := by
  rw [print_eq, if_pos (unrolls_tree hs hc).complete]

end LittleLisp.Store
