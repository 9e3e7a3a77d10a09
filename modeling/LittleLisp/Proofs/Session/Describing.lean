import LittleLisp.Proofs.Session.Safety
import LittleLisp.Proofs.Store.Describing
import LittleLisp.Proofs.Store.Structure
import LittleLisp.Store.Description

namespace LittleLisp

namespace Datum

/-- The part of a tree at an address, which says at each step down which item to take. -/
def subtree? : Datum → List Nat → Option Datum
  | d, [] => some d
  | .quoted d, k :: ks => if k = 0 then d.subtree? ks else none
  | .list ds, k :: ks => ds[k]?.bind (·.subtree? ks)
  | _, _ :: _ => none

theorem subtree?_nil (d : Datum) : d.subtree? [] = some d := by cases d <;> rfl

end Datum

namespace Store

/-- The way down from a cell that is inside the list cells in `path`: along the address `ks` it leads
to the cell `x`, which is inside those in `path'`. It enters no list cell a second time. -/
inductive Way (s : Store) : List CellId → CellId → List Nat → List CellId → CellId → Prop
  | here (path c) : Way s path c [] path c
  | inner {path c i ks path' x} (cell : s.cell c = .quoted i) (way : Way s path i ks path' x) :
      Way s path c (0 :: ks) path' x
  | item {path c h k i ks path' x} (cell : s.cell c = .list h) (new : c ∉ path)
      (item : (s.items h)[k]? = some i) (way : Way s (c :: path) i ks path' x) :
      Way s path c (k :: ks) path' x

def NeverInsideItself (s : Store) (c : CellId) : Prop :=
  ∀ ks path x h, s.Way [] c ks path x → s.cell x = .list h → x ∉ path

variable {s : Store} {c x : CellId} {path path' : List CellId} {ks : List Nat} {d d' t : Datum}

namespace Describes

theorem subtree?_eq_some_iff (h : s.Describes path c d) :
    d.subtree? ks = some d' ↔ ∃ path' x, s.Way path c ks path' x ∧ s.Describes path' x d' := by
  induction ks generalizing path c d with
  | nil =>
    rw [Datum.subtree?_nil]
    constructor
    · rintro ⟨⟩
      exact ⟨path, c, .here path c, h⟩
    · rintro ⟨_, _, hway, hd⟩
      cases hway
      rw [h.unique hd]
  | cons k ks ih =>
    cases h with
    | @quoted _ _ i e cell inner =>
      rw [Datum.subtree?]
      constructor
      · intro hsub
        split at hsub
        case isTrue hk =>
          obtain ⟨path', x, hway, hd⟩ := (ih inner).1 hsub
          exact ⟨path', x, hk ▸ .inner cell hway, hd⟩
        case isFalse => cases hsub
      · rintro ⟨_, _, hway, hd⟩
        cases hway with
        | inner cell' way =>
          cases cell.symm.trans cell'
          exact (ih inner).2 ⟨_, _, way, hd⟩
        | item cell' => cases cell.symm.trans cell'
    | @list _ _ h f cell new items =>
      rw [Datum.subtree?, List.getElem?_map, Option.bind_eq_some_iff]
      constructor
      · rintro ⟨e, he, hsub⟩
        obtain ⟨i, hi, rfl⟩ := Option.map_eq_some_iff.1 he
        obtain ⟨path', x, hway, hd⟩ := (ih (items i (List.mem_of_getElem? hi))).1 hsub
        exact ⟨path', x, .item cell new hi hway, hd⟩
      · rintro ⟨_, _, hway, hd⟩
        cases hway with
        | inner cell' => cases cell.symm.trans cell'
        | @item _ _ _ _ i _ _ _ cell' _ item way =>
          cases cell.symm.trans cell'
          refine ⟨f i, by rw [item]; rfl, ?_⟩
          exact (ih (items i (List.mem_of_getElem? item))).2 ⟨_, _, way, hd⟩
    | again cell around =>
      constructor
      · intro hsub
        cases hsub
      · rintro ⟨_, _, hway, -⟩
        cases hway with
        | inner cell' => cases cell.symm.trans cell'
        | item _ new => exact absurd around new
    | absent cell | atom cell | number cell | str cell | bool cell | function cell =>
      -- Nothing is below a leaf.
      constructor
      · intro hsub
        cases hsub
      · rintro ⟨_, _, hway, -⟩
        cases hway with
        | inner cell' => cases cell.symm.trans cell'
        | item cell' => cases cell.symm.trans cell'

theorem elided_iff (hd : s.Describes path c d) :
    d = .mark .elided ↔ ∃ h, s.cell c = .list h ∧ c ∈ path := by
  constructor
  · rintro rfl
    cases hd with
    | again cell around => exact ⟨_, cell, around⟩
  · rintro ⟨h, hcell, hmem⟩
    exact hd.unique (.again hcell hmem)

/-- The mark stands at just those list cells that are among the list cells around them. -/
theorem subtree?_eq_elided_iff (hd : s.Describes [] c d) :
    d.subtree? ks = some (.mark .elided) ↔
      ∃ path x h, s.Way [] c ks path x ∧ s.cell x = .list h ∧ x ∈ path := by
  rw [hd.subtree?_eq_some_iff]
  constructor
  · rintro ⟨path, x, hway, hx⟩
    obtain ⟨h, hcell, hmem⟩ := hx.elided_iff.1 rfl
    exact ⟨path, x, h, hway, hcell, hmem⟩
  · rintro ⟨path, x, h, hway, hcell, hmem⟩
    exact ⟨path, x, hway, .again hcell hmem⟩

theorem unfolds (hd : s.Describes path c d) (hnever : ∀ ks path' x h, s.Way path c ks path' x →
    s.cell x = .list h → x ∉ path') : s.Unfolds c d := by
  induction hd with
  | quoted cell _ ih =>
    exact .quoted cell (ih fun ks path' x h hway ↦ hnever _ path' x h (.inner cell hway))
  | again cell around => exact absurd around (hnever [] _ _ _ (.here _ _) cell)
  | list cell new _ ih =>
    refine .list cell fun i hi ↦ ih i hi fun ks path' x h hway ↦ ?_
    obtain ⟨k, hk⟩ := List.mem_iff_getElem?.1 hi
    exact hnever _ path' x h (.item cell new hk hway)
  | absent cell => exact .absent cell
  | atom cell => exact .atom cell
  | number cell => exact .number cell
  | str cell => exact .str cell
  | bool cell => exact .bool cell
  | function cell => exact .function cell

end Describes

/-- Further down the trees get smaller than those of all the list cells on the way. -/
theorem Way.shrinks (hway : s.Way path c ks path' x) (ht : s.Unfolds c t)
    (hpath : ∀ p ∈ path, ∀ u, s.Unfolds p u → sizeOf t < sizeOf u) :
    ∃ t', s.Unfolds x t' ∧ ∀ p ∈ path', ∀ u, s.Unfolds p u → sizeOf t' < sizeOf u := by
  induction hway generalizing t with
  | here => exact ⟨t, ht, hpath⟩
  | inner cell _ ih =>
    cases ht with
    | quoted cell' inner =>
      cases cell.symm.trans cell'
      refine ih inner fun p hp u hu ↦ Nat.lt_trans ?_ (hpath p hp u hu)
      simp
    | _ => simp_all
  | @item _ c h _ i _ _ _ cell _ item _ ih =>
    cases ht with
    | @list _ _ f cell' items =>
      have hi := List.mem_of_getElem? item
      cases cell.symm.trans cell'
      have hsmaller : sizeOf (f i) < sizeOf (Datum.list ((s.items h).map f)) := by
        have hmem := List.sizeOf_lt_of_mem (List.mem_map_of_mem (f := f) hi)
        rw [Datum.list.sizeOf_spec]
        omega
      refine ih (items i hi) (List.forall_mem_cons.2 ⟨fun u hu ↦ ?_, fun p hp u hu ↦ ?_⟩)
      · -- The list cell just entered has no other tree than this one.
        rw [← (Unfolds.list cell' items).unique hu]
        exact hsmaller
      · exact Nat.lt_trans hsmaller (hpath p hp u hu)
    | _ => simp_all

theorem Unfolds.neverInsideItself (ht : s.Unfolds c t) : s.NeverInsideItself c := by
  intro ks path x h hway _ hmem
  obtain ⟨t', ht', hless⟩ := hway.shrinks ht (by simp)
  exact Nat.lt_irrefl _ (hless x hmem t' ht')

end Store

open Store

/-- What is written of a cell when it is described, at every moment of every session and in every
well-formed store, also where several cells share a chain. The cell has one description, and this is
written. It is cut off exactly where the way down comes to a list cell that is already around it. If
there is no such place the description is the plain unfolding of the cell, and only then is there a
plain unfolding. -/
theorem descriptions_cut_reentered_cells :
    (∀ cfg es s, Session.Moment cfg es s → s.WellFormed) ∧
    (Datum.mark .elided).described = "ListCell(...)" ∧
    ∀ (s : Store) (c : CellId), s.WellFormed →
      ∃ d, s.describe c = d.described ∧ (∀ d', s.Describes [] c d' ↔ d' = d) ∧
        (∀ ks, d.subtree? ks = some (.mark .elided) ↔
          ∃ path x h, s.Way [] c ks path x ∧ s.cell x = .list h ∧ x ∈ path) ∧
        (s.NeverInsideItself c → s.Unfolds c d ∧ ∀ ks, d.subtree? ks ≠ some (.mark .elided)) ∧
        ∀ t, s.Unfolds c t → s.NeverInsideItself c ∧ t = d := by
  refine ⟨fun cfg es s h ↦ h.built.whole.wellFormed, rfl, ?_⟩
  intro s c hs
  have hd : s.Describes [] c (s.snapshot c) := (describes_iff hs c _).2 rfl
  refine ⟨s.snapshot c, rfl, describes_iff hs c, fun ks ↦ hd.subtree?_eq_elided_iff, ?_, ?_⟩
  · intro hnever
    refine ⟨hd.unfolds hnever, fun ks hmark ↦ ?_⟩
    obtain ⟨path, x, h, hway, hcell, hmem⟩ := hd.subtree?_eq_elided_iff.1 hmark
    exact hnever ks path x h hway hcell hmem
  · intro t ht
    have hnever := ht.neverInsideItself
    exact ⟨hnever, ht.unique (hd.unfolds hnever)⟩

/-- The list 3 holds two cells over its own tail, and the list 6 holds one item. -/
def tailsInside : Store :=
  let s := ((Store.empty.addCell (.bool true)).2.addCell (.bool false)).2
  let s := (s.addList [1, 2]).2
  let s := (s.addListFrom (some 1)).2.push 0 4
  let s := (s.addListFrom (some 1)).2.push 0 5
  (s.addList [1]).2

theorem built_tailsInside : tailsInside.Built := by
  have htrue : (Store.empty.addCell (.bool true)).2.Built := Built.empty.addCell nofun nofun nofun
  have hleaves : (addCell (.bool false) _).2.Built := htrue.addCell nofun nofun nofun
  have hlist : (addList [1, 2] _).2.Built :=
    (hleaves.addList (by simpa using ⟨⟨_, rfl, nofun⟩, _, rfl, nofun⟩)).1
  have htail : (addListFrom (some 1) _).2.Built := hlist.addListFrom fun n hn ↦ by
    cases hn
    exact ⟨_, rfl, nofun⟩
  have hpush : (push 0 4 _).Built := htail.push ⟨_, rfl, nofun⟩ ⟨_, rfl, nofun⟩
  have htail' : (addListFrom (some 1) _).2.Built := hpush.addListFrom fun n hn ↦ by
    cases hn
    exact ⟨_, rfl, nofun⟩
  have hpush' : (push 0 5 _).Built := htail'.push ⟨_, rfl, nofun⟩ ⟨_, rfl, nofun⟩
  exact (hpush'.addList (by simpa using ⟨_, rfl, nofun⟩)).1

/-- Each of the two cells over the tail is written out inside the other before it is cut off. -/
theorem descriptions_cut_tailsInside :
    tailsInside.WellFormed ∧
      tailsInside.describe 3 = "ListCell([Bool(True), Bool(False), ListCell([Bool(False), " ++
        "ListCell(...), ListCell([Bool(False), ListCell(...), ListCell(...)])]), " ++
        "ListCell([Bool(False), ListCell([Bool(False), ListCell(...), ListCell(...)]), " ++
        "ListCell(...)])])" ∧
      tailsInside.Way [] 3 [2, 2, 1] [5, 4, 3] 4 ∧
      (tailsInside.snapshot 3).subtree? [2, 2, 1] = some (.mark .elided) ∧
      ¬ tailsInside.NeverInsideItself 3 ∧ tailsInside.NeverInsideItself 6 ∧
      tailsInside.describe 6 = "ListCell([Bool(True)])" := by
  obtain ⟨-, -, hdescribe⟩ := descriptions_cut_reentered_cells
  have hs := built_tailsInside.whole.wellFormed
  have hitems : tailsInside.items 0 = [1, 2, 4, 5] := by decide +kernel
  have htail : tailsInside.items 1 = [2, 4, 5] := by decide +kernel
  have htail' : tailsInside.items 2 = [2, 4, 5] := by decide +kernel
  have hway : tailsInside.Way [] 3 [2, 2, 1] [5, 4, 3] 4 := by
    refine .item (h := 0) (i := 4) rfl (by simp) (by rw [hitems]; rfl) ?_
    refine .item (h := 1) (i := 5) rfl (by simp) (by rw [htail]; rfl) ?_
    exact .item (h := 2) rfl (by simp) (by rw [htail']; rfl) (.here _ _)
  have hplain : tailsInside.Unfolds 6 (.list ((tailsInside.items 3).map fun _ ↦ .bool true)) := by
    refine .list rfl fun i hi ↦ ?_
    have hitem : tailsInside.items 3 = [1] := by decide +kernel
    obtain rfl : i = 1 := by simpa [hitem] using hi
    exact .bool rfl
  obtain ⟨d, -, hunique, hmarks, -⟩ := hdescribe tailsInside 3 hs
  obtain ⟨_, -, -, -, -, hnever⟩ := hdescribe tailsInside 6 hs
  obtain rfl := (hunique _).1 ((describes_iff hs 3 _).2 rfl)
  refine ⟨hs, by decide +kernel, hway, (hmarks _).2 ⟨_, _, _, hway, rfl, by simp⟩, fun h ↦ ?_,
    (hnever _ hplain).1, by decide +kernel⟩
  exact h _ _ _ _ hway rfl (by simp)

end LittleLisp
