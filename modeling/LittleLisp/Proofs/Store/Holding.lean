import LittleLisp.Proofs.Store.Loading
import LittleLisp.Proofs.Store.Writing

/-!
Cells that unfold to a finite tree. Such a tree is unique, and it is the tree that is printed: no
list on a path of it can be met again further down, for it would then hold itself, and a path has
no more cells than the store.
-/

namespace LittleLisp.Store

variable {s : Store}

mutual

/-- The cell unfolds to the datum, whatever cells, handles and nodes its parts share. -/
def Holds (s : Store) : Datum → CellId → Prop
  | .atom name, c => s.cell c = .atom name
  | .number value, c => s.cell c = .number value
  | .str text, c => s.cell c = .str text
  | .bool flag, c => s.cell c = .bool flag
  | .quoted inner, c => ∃ i, s.cell c = .quoted i ∧ Holds s inner i
  | .list items, c => ∃ h, s.cell c = .list h ∧ HoldItems s items (s.items h)
  | .mark _, _ => False

def HoldItems (s : Store) : List Datum → List CellId → Prop
  | [], cs => cs = []
  | d :: ds, cs => ∃ c cs', cs = c :: cs' ∧ Holds s d c ∧ HoldItems s ds cs'

end

theorem holdItems_unique {ds ds' : List Datum} {cs : List CellId}
    (hd : ∀ d ∈ ds, ∀ {d' c}, s.Holds d c → s.Holds d' c → d = d')
    (h : s.HoldItems ds cs) (h' : s.HoldItems ds' cs) : ds = ds' := by
  induction ds generalizing ds' cs with
  | nil =>
    obtain rfl : cs = [] := h
    cases ds' with
    | nil => rfl
    | cons => obtain ⟨_, _, hnil, -⟩ := h'; cases hnil
  | cons d ds ih =>
    obtain ⟨c, cs, rfl, hc, hcs⟩ := h
    cases ds' with
    | nil => cases h'
    | cons d' ds' =>
      obtain ⟨_, _, heq, hc', hcs'⟩ := h'
      cases heq
      rw [hd d List.mem_cons_self hc hc',
        ih (fun e he ↦ hd e (List.mem_cons_of_mem d he)) hcs hcs']

theorem holds_unique {d d' : Datum} {c : CellId} (h : s.Holds d c) (h' : s.Holds d' c) :
    d = d' := by
  induction d using Datum.induction generalizing d' c with
  | atom | number | str | bool =>
    cases d' <;> simp_all [Holds]
  | quoted inner ih =>
    obtain ⟨i, hc, hi⟩ := h
    cases d' with
    | quoted inner' =>
      obtain ⟨i', hc', hi'⟩ := h'
      cases hc.symm.trans hc'
      rw [ih hi hi']
    | _ => simp_all [Holds]
  | list items ih =>
    obtain ⟨k, hc, hi⟩ := h
    cases d' with
    | list items' =>
      obtain ⟨k', hc', hi'⟩ := h'
      cases hc.symm.trans hc'
      rw [holdItems_unique (fun d hd ↦ ih d hd) hi hi']
    | _ => simp_all [Holds]
  | mark => cases h

theorem items_eq_of_head {h k : HandleId} (hh : s.head h = s.head k) : s.items h = s.items k := by
  simp only [items, chain, hh]

theorem lt_of_holds {d : Datum} {c : Nat} (h : s.Holds d c) : c < s.cells.size := by
  rcases Nat.lt_or_ge c s.cells.size with hc | hc
  · exact hc
  · have habsent : s.cell c = .absent := by simp [cell, hc]
    cases d <;> simp_all [Holds]

/-- On the way to `d` there is nothing that `d` can hold again, and the fuel suffices for what is
below it. -/
structure OnPath (s : Store) (d : Datum) (fuel : Nat) (path : List Nat) (visited : List CellId) :
    Prop where
  lists : ∀ k ∈ path, ∀ h, s.head h = some k → ∀ ds, s.HoldItems ds (s.items h) →
    sizeOf d < sizeOf (Datum.list ds)
  cells : ∀ c ∈ visited, c < s.cells.size ∧ ∀ d', s.Holds d' c → sizeOf d < sizeOf d'
  nodup : visited.Nodup
  fuel_lt : s.cells.size < fuel + visited.length

namespace OnPath

variable {d d' : Datum} {fuel : Nat} {path : List Nat} {visited : List CellId} {c : CellId}

theorem fuel_pos (h : OnPath s d fuel path visited) : 0 < fuel := by
  have hlen : visited.length ≤ (List.range s.cells.size).length :=
    h.nodup.length_le_of_subset fun c hc ↦ List.mem_range.2 (h.cells c hc).1
  have := h.fuel_lt
  rw [List.length_range] at hlen
  omega

theorem down (h : OnPath s d (fuel + 1) path visited) (hc : s.Holds d c)
    (hd : sizeOf d' < sizeOf d) : OnPath s d' fuel path (c :: visited) where
  lists k hk l hl ds hds := Nat.lt_trans hd (h.lists k hk l hl ds hds)
  cells := by
    refine List.forall_mem_cons.2 ⟨⟨lt_of_holds hc, fun e he ↦ ?_⟩, fun e he ↦ ?_⟩
    · rwa [holds_unique he hc]
    · exact ⟨(h.cells e he).1, fun e' he' ↦ Nat.lt_trans hd ((h.cells e he).2 e' he')⟩
  nodup := by
    refine List.nodup_cons.2 ⟨fun hmem ↦ ?_, h.nodup⟩
    exact Nat.lt_irrefl _ ((h.cells c hmem).2 d hc)
  fuel_lt := by
    have := h.fuel_lt
    rw [List.length_cons]
    omega

theorem into {ds : List Datum} {h k : Nat} (hp : OnPath s d fuel path visited)
    (hk : s.head h = some k) (hds : s.HoldItems ds (s.items h)) (hd : d ∈ ds) :
    OnPath s d fuel (k :: path) visited where
  lists := by
    refine List.forall_mem_cons.2 ⟨fun l hl ds' hds' ↦ ?_, hp.lists⟩
    rw [items_eq_of_head (hl.trans hk.symm)] at hds'
    have hsize := List.sizeOf_lt_of_mem hd
    rw [holdItems_unique (fun _ _ ↦ holds_unique) hds' hds, Datum.list.sizeOf_spec]
    omega
  cells := hp.cells
  nodup := hp.nodup
  fuel_lt := hp.fuel_lt

end OnPath

theorem map_of_holdItems {f : CellId → Datum} {ds : List Datum} {cs : List CellId}
    (h : s.HoldItems ds cs) (hf : ∀ d ∈ ds, ∀ c, s.Holds d c → f c = d) : cs.map f = ds := by
  induction ds generalizing cs with
  | nil =>
    obtain rfl : cs = [] := h
    rfl
  | cons d ds ih =>
    obtain ⟨c, cs, rfl, hc, hcs⟩ := h
    rw [List.map_cons, hf d List.mem_cons_self c hc,
      ih hcs fun e he ↦ hf e (List.mem_cons_of_mem d he)]

theorem unfoldWith_of_holds {d : Datum} {c : CellId} {fuel : Nat} {path : List Nat}
    {visited : List CellId} (h : s.Holds d c) (hp : OnPath s d fuel path visited) :
    s.unfoldWith byFirstNode fuel path c = d := by
  induction d using Datum.induction generalizing c fuel path visited with
  | atom | number | str | bool =>
    obtain ⟨fuel, rfl⟩ := Nat.exists_eq_add_one.2 hp.fuel_pos
    simp only [Holds] at h
    simp only [unfoldWith, h]
  | quoted inner ih =>
    obtain ⟨fuel, rfl⟩ := Nat.exists_eq_add_one.2 hp.fuel_pos
    obtain ⟨i, hc, hi⟩ := id h
    simp only [unfoldWith, hc, ih hi (hp.down h (by simp))]
  | list items ih =>
    obtain ⟨fuel, rfl⟩ := Nat.exists_eq_add_one.2 hp.fuel_pos
    obtain ⟨l, hc, hitems⟩ := id h
    have hdown : ∀ d ∈ items, OnPath s d fuel path (c :: visited) := fun d hd ↦
      hp.down h (by have := List.sizeOf_lt_of_mem hd; simp; omega)
    simp only [unfoldWith, hc, byFirstNode]
    cases hk : s.head l with
    | none => rw [map_of_holdItems hitems fun d hd c' hc' ↦ ih d hd hc' (hdown d hd)]
    | some k =>
      -- A list on the path would hold a larger tree than this one.
      have hnew : k ∉ path := fun hmem ↦ Nat.lt_irrefl _ (hp.lists k hmem l hk items hitems)
      simp only [hnew, if_false]
      rw [map_of_holdItems hitems fun d hd c' hc' ↦ ih d hd hc' ((hdown d hd).into hk hitems hd)]
  | mark => cases h

/-- The tree that is printed for a cell that unfolds to a datum is that datum. -/
theorem tree_of_holds {d : Datum} {c : CellId} (h : s.Holds d c) : s.tree c = d := by
  have hfuel : s.cells.size + s.nodes.size + 2 ≤ s.unfoldFuel := Nat.le_mul_of_pos_right _ (by omega)
  have hstart : OnPath s d s.unfoldFuel [] [] :=
    ⟨by simp, by simp, List.nodup_nil, by rw [List.length_nil]; omega⟩
  exact unfoldWith_of_holds h hstart

theorem exists_of_holdItems {ds : List Datum} {cs : List CellId} (h : s.HoldItems ds cs)
    {d : Datum} (hd : d ∈ ds) : ∃ c ∈ cs, s.Holds d c := by
  induction ds generalizing cs with
  | nil => cases hd
  | cons e ds ih =>
    obtain ⟨c, cs, rfl, hc, hcs⟩ := h
    rcases List.mem_cons.1 hd with rfl | hd
    · exact ⟨c, List.mem_cons_self, hc⟩
    · obtain ⟨c', hmem, hc'⟩ := ih hcs hd
      exact ⟨c', List.mem_cons_of_mem c hmem, hc'⟩

theorem exists_holds_of_mem {ds : List Datum} {cs : List CellId} (h : s.HoldItems ds cs)
    {c : CellId} (hc : c ∈ cs) : ∃ d ∈ ds, s.Holds d c := by
  induction ds generalizing cs with
  | nil =>
    obtain rfl : cs = [] := h
    cases hc
  | cons d ds ih =>
    obtain ⟨c', cs, rfl, hd, hds⟩ := h
    rcases List.mem_cons.1 hc with rfl | hc
    · exact ⟨d, List.mem_cons_self, hd⟩
    · obtain ⟨d', hmem, hd'⟩ := ih hds hc
      exact ⟨d', List.mem_cons_of_mem d hmem, hd'⟩

theorem allComplete_iff {ds : List Datum} :
    Datum.allComplete ds = true ↔ ∀ d ∈ ds, d.complete = true := by
  induction ds with
  | nil => simp [Datum.allComplete]
  | cons d ds ih => simp [Datum.allComplete, ih]

theorem complete_of_holds {d : Datum} {c : CellId} (h : s.Holds d c) : d.complete = true := by
  induction d using Datum.induction generalizing c with
  | atom | number | str | bool => rfl
  | quoted inner ih =>
    obtain ⟨i, -, hi⟩ := h
    exact ih hi
  | list items ih =>
    obtain ⟨l, -, hitems⟩ := h
    refine allComplete_iff.2 fun d hd ↦ ?_
    obtain ⟨c', -, hc'⟩ := exists_of_holdItems hitems hd
    exact ih d hd hc'
  | mark => cases h

theorem print_of_holds {d : Datum} {c : CellId} (h : s.Holds d c) : s.print c = .ok d.print := by
  rw [print_eq, tree_of_holds h, if_pos (complete_of_holds h)]

open Datum in
theorem holdItems_of_allStored {ds : List Datum} {lo hi : Extent} {cs : List CellId}
    (hd : ∀ d ∈ ds, ∀ {lo hi c}, d.Stored s lo hi c → s.Holds d c)
    (h : AllStored s ds lo hi cs) : s.HoldItems ds cs := by
  induction ds generalizing lo cs with
  | nil => exact h.1
  | cons d ds ih =>
    obtain ⟨mid, c, cs', hc, hcs, rfl⟩ := h
    exact ⟨c, cs', rfl, hd d List.mem_cons_self hc,
      ih (fun e he ↦ hd e (List.mem_cons_of_mem d he)) hcs⟩

theorem holds_of_stored {d : Datum} {lo hi : Extent} {c : CellId} (h : d.Stored s lo hi c) :
    s.Holds d c := by
  induction d using Datum.induction generalizing lo hi c with
  | atom | number | str | bool => exact cell_eq_of_getElem? h.1
  | quoted inner ih =>
    obtain ⟨mid, i, hi, hc, -⟩ := h
    exact ⟨i, cell_eq_of_getElem? hc, ih hi⟩
  | list items ih =>
    obtain ⟨mid, cs, hitems, hc, hrow, -⟩ := h
    refine ⟨mid.handles, cell_eq_of_getElem? hc, ?_⟩
    rw [hrow.items_eq]
    exact holdItems_of_allStored (fun d hd ↦ ih d hd) hitems
  | mark => cases h

theorem print_load {d : Datum} (h : d.Storable) (s : Store) :
    (load d s).2.print (load d s).1 = .ok d.print :=
  print_of_holds (holds_of_stored (Datum.storesWell h s).2)

end LittleLisp.Store
