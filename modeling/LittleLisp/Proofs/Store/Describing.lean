import LittleLisp.Proofs.Store.WellFormed

/-!
The tree that is described. A cell is followed along its quotes and lists, and a list cell that is
met again inside itself is elided. Lists are told apart by their cells here, so another cell over
the same chain is followed once more; still this comes to an end, since there are only so many cells
to be inside of, and quotes lead to older cells.
-/

namespace LittleLisp.Store

/-- The description of a cell inside the list cells in `path`. -/
inductive Describes (s : Store) : List CellId → CellId → Datum → Prop
  | absent {path c} (cell : s.cell c = .absent) : Describes s path c (.mark .absent)
  | atom {path c name} (cell : s.cell c = .atom name) : Describes s path c (.atom name)
  | number {path c value} (cell : s.cell c = .number value) : Describes s path c (.number value)
  | str {path c text} (cell : s.cell c = .str text) : Describes s path c (.str text)
  | bool {path c flag} (cell : s.cell c = .bool flag) : Describes s path c (.bool flag)
  | function {path c fn} (cell : s.cell c = .function fn) :
      Describes s path c (.mark (.function fn.name))
  | quoted {path c i d} (cell : s.cell c = .quoted i) (inner : Describes s path i d) :
      Describes s path c (.quoted d)
  | again {path c h} (cell : s.cell c = .list h) (around : c ∈ path) :
      Describes s path c (.mark .elided)
  | list {path c h} {f : CellId → Datum} (cell : s.cell c = .list h) (new : c ∉ path)
      (items : ∀ i ∈ s.items h, Describes s (c :: path) i (f i)) :
      Describes s path c (.list ((s.items h).map f))

variable {s : Store} {c : CellId} {path : List CellId} {d d' : Datum}

theorem Describes.unique (h : s.Describes path c d) (h' : s.Describes path c d') : d = d' := by
  induction h generalizing d' with
  | quoted cell _ ih =>
    cases h' with
    | quoted cell' inner =>
      cases cell.symm.trans cell'
      rw [ih inner]
    | _ => simp_all
  | list cell new _ ih =>
    cases h' with
    | list cell' _ items =>
      cases cell.symm.trans cell'
      exact congrArg Datum.list (List.map_congr_left fun i hi ↦ ih i hi (items i hi))
    | _ => simp_all
  | _ => cases h' <;> simp_all

theorem describes_unfoldWith (hs : s.WellFormed) {fuel : Nat} (hnodup : path.Nodup)
    (hpath : ∀ k ∈ path, k < s.cells.size)
    (hf : s.unfoldSteps s.cells.size path.length c ≤ fuel) :
    s.Describes path c (s.unfoldWith byCell fuel path c) := by
  induction fuel generalizing path c with
  | zero => simp [unfoldSteps] at hf
  | succ fuel ih =>
    rw [unfoldWith]
    split
    case h_1 hcell => exact .absent hcell
    case h_2 hcell => exact .atom hcell
    case h_3 hcell => exact .number hcell
    case h_4 hcell => exact .str hcell
    case h_5 hcell => exact .bool hcell
    case h_6 hcell => exact .function hcell
    case h_7 i hcell =>
      have hlt : c < s.cells.size := lt_of_cell_ne_absent (by simp [hcell])
      have hsteps : s.unfoldSteps s.cells.size path.length i <
          s.unfoldSteps s.cells.size path.length c :=
        unfoldSteps_quoted (hs.inner_lt hcell) hlt
      exact .quoted hcell (ih hnodup hpath (by omega))
    case h_8 h hcell =>
      simp only [byCell]
      split
      case isTrue hmem => exact .again hcell hmem
      case isFalse hmem =>
        have hnodup' : (c :: path).Nodup := List.nodup_cons.2 ⟨hmem, hnodup⟩
        have hpath' : ∀ k ∈ c :: path, k < s.cells.size :=
          List.forall_mem_cons.2 ⟨(bounded_byCell s).lt hcell rfl, hpath⟩
        have hopen := length_lt_of_nodup hnodup' hpath'
        refine .list hcell hmem fun i _ ↦ ih hnodup' hpath' ?_
        have hsteps := unfoldSteps_item (s := s) hopen c i
        rw [List.length_cons]
        omega

/-- Every cell has exactly one description, the one that is taken of it. -/
theorem describes_iff (hs : s.WellFormed) (c : CellId) (d : Datum) :
    s.Describes [] c d ↔ d = s.snapshot c := by
  have hsnapshot : s.Describes [] c (s.snapshot c) :=
    describes_unfoldWith hs List.nodup_nil nofun
      (unfoldSteps_le_unfoldFuel (Nat.le_add_right _ _) c)
  constructor
  · intro h
    exact h.unique hsnapshot
  · rintro rfl
    exact hsnapshot

end LittleLisp.Store
