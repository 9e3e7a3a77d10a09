import LittleLisp.Proofs.Store.Growth

/-!
What storing a datum leaves in the store. The parts of a datum take the next cells, handles and
nodes of the store, without a gap and without sharing: the items of a list first, then its nodes,
its handle and its cell. So every part has its own stretch of the store, and of two lists the one
with the later cell has the later handle and the later nodes.
-/

namespace LittleLisp

structure Extent where
  cells : Nat
  handles : Nat
  nodes : Nat

def Extent.next (e : Extent) : Extent := { e with cells := e.cells + 1 }

namespace Store

variable {s s' : Store}

def extent (s : Store) : Extent := ⟨s.cells.size, s.handles.size, s.nodes.size⟩

/-- The list behind a handle: `k` nodes in a row from `a` on, with the given values. -/
structure HasRow (s : Store) (h a : Nat) (cs : List CellId) : Prop where
  links : ∃ o, s.handles[h]? = some o ∧ Links s o (List.range' a cs.length)
  values : (List.range' a cs.length).map s.nodeValue = cs

namespace HasRow

variable {h a : Nat} {cs : List CellId}

theorem chain_eq (hr : s.HasRow h a cs) : s.chain h = List.range' a cs.length := by
  obtain ⟨o, ho, hl⟩ := hr.links
  have hhead : s.head h = o := by simp [head, ho]
  refine Links.chain_eq (hhead ▸ hl) ?_
  rw [List.length_range']
  by_cases hk : cs.length = 0
  · omega
  · have hlast : a + (cs.length - 1) ∈ List.range' a cs.length := by
      rw [List.mem_range'_1]
      omega
    have := hl.mem_lt hlast
    omega

theorem items_eq (hr : s.HasRow h a cs) : s.items h = cs := by
  rw [items, hr.chain_eq, hr.values]

theorem mono (hr : s.HasRow h a cs) (hs : Appends s s') : s'.HasRow h a cs := by
  obtain ⟨o, ho, hl⟩ := hr.links
  refine ⟨⟨o, hs.handles ho, hs.links hl⟩, ?_⟩
  rw [List.map_congr_left fun n hn ↦ hs.nodeValue_eq (hl.mem_lt hn), hr.values]

end HasRow

theorem hasRow_addList (vs : List CellId) (s : Store) :
    (addList vs s).2.HasRow s.handles.size s.nodes.size vs where
  links := ⟨_, by simp, links_addList vs s⟩
  values := nodeValue_addChain vs s

theorem getLast?_row (a : Nat) {k i : Nat} :
    (List.range' a k).getLast? = some (a + i) ↔ i + 1 = k := by
  rw [List.getLast?_range']
  split
  · simp
    omega
  · simp
    omega

theorem addChain_concat (vs : List CellId) (v : CellId) (s : Store) :
    (addChain (vs ++ [v]) s).2.nodes = ((addList vs s).2.push s.handles.size v).nodes := by
  have hchain := (hasRow_addList vs s).chain_eq
  refine Array.ext_getElem? fun i ↦ ?_
  rcases Nat.lt_or_ge i s.nodes.size with hi | hi
  · have hi' : i < (addList vs s).2.nodes.size := by
      rw [addList_nodes, addChain_nodes_size]
      omega
    have hlast : (List.range' s.nodes.size vs.length).getLast? ≠ some i := by
      intro h
      have := List.mem_range'_1.1 (List.mem_of_getLast? h)
      omega
    rw [push_nodes _ _ _ hi', hchain, if_neg hlast, addList_nodes, addChain_nodes_old _ _ hi,
      addChain_nodes_old _ _ hi]
  · obtain ⟨j, rfl⟩ := Nat.exists_eq_add_of_le hi
    rcases Nat.lt_trichotomy j vs.length with hj | rfl | hj
    · have hread : vs[j]? = some vs[j] := List.getElem?_eq_getElem hj
      have hread' : (vs ++ [v])[j]? = some vs[j] := by rw [List.getElem?_append_left hj, hread]
      have hj' : s.nodes.size + j < (addList vs s).2.nodes.size := by
        rw [addList_nodes, addChain_nodes_size]
        omega
      rw [push_nodes _ _ _ hj', hchain, addList_nodes, addChain_nodes_size,
        addChain_nodes_new _ _ hread', addChain_nodes_new _ _ hread, List.length_append,
        List.length_singleton, if_pos (by omega)]
      by_cases hlast : j + 1 = vs.length
      · rw [if_pos ((getLast?_row _).2 hlast), Option.map_some, ← hlast]
        rfl
      · rw [if_neg (mt (getLast?_row _).1 hlast), if_pos (by omega)]
    · have hread : (vs ++ [v])[vs.length]? = some v := List.getElem?_concat_length
      have hnew := push_nodes_new (addList vs s).2 s.handles.size v
      rw [addList_nodes, addChain_nodes_size] at hnew
      rw [hnew, addChain_nodes_new _ _ hread, List.length_append, List.length_singleton,
        if_neg (by omega)]
    · rw [Array.getElem?_eq_none, Array.getElem?_eq_none]
      all_goals
        simp only [addChain_nodes_size, push_nodes_size, addList_nodes, List.length_append,
          List.length_singleton]
        omega

attribute [ext] Store

theorem addList_concat (vs : List CellId) (v : CellId) (s : Store) :
    (addList (vs ++ [v]) s).2 = (addList vs s).2.push s.handles.size v := by
  refine Store.ext ?_ ?_ ?_ ?_
  · simp
  · rw [push_handles, (hasRow_addList vs s).chain_eq, addList_handles, addList_handles,
      addChain_fst, addChain_fst]
    cases vs with
    | nil =>
      refine Array.ext_getElem? fun i ↦ ?_
      by_cases hi : i = s.handles.size
      · simp [hi]
      · simp [hi, Ne.symm hi, Array.getElem?_push]
    | cons => simp
  · exact addChain_concat vs v s
  · simp

theorem addList_append (us vs : List CellId) (s : Store) :
    (addList (us ++ vs) s).2 = vs.foldl (fun s' v ↦ s'.push s.handles.size v) (addList us s).2 := by
  induction vs generalizing us with
  | nil => rw [List.append_nil, List.foldl_nil]
  | cons v vs ih => rw [List.append_cons, ih, addList_concat, List.foldl_cons]

end Store

open Store

namespace Datum

mutual

/-- The datum stands in the store between two extents, and its cell is the last one there. -/
def Stored (s : Store) : Datum → Extent → Extent → CellId → Prop
  | .atom name, lo, hi, c => s.cells[c]? = some (.atom name) ∧ c = lo.cells ∧ hi = lo.next
  | .number value, lo, hi, c => s.cells[c]? = some (.number value) ∧ c = lo.cells ∧ hi = lo.next
  | .str text, lo, hi, c => s.cells[c]? = some (.str text) ∧ c = lo.cells ∧ hi = lo.next
  | .bool flag, lo, hi, c => s.cells[c]? = some (.bool flag) ∧ c = lo.cells ∧ hi = lo.next
  | .quoted inner, lo, hi, c => ∃ mid i, inner.Stored s lo mid i ∧
    s.cells[c]? = some (.quoted i) ∧ c = mid.cells ∧ hi = mid.next
  | .list items, lo, hi, c => ∃ mid cs, AllStored s items lo mid cs ∧
    s.cells[c]? = some (.list mid.handles) ∧ s.HasRow mid.handles mid.nodes cs ∧
    c = mid.cells ∧ hi = ⟨mid.cells + 1, mid.handles + 1, mid.nodes + cs.length⟩
  | .mark _, _, _, _ => False

def AllStored (s : Store) : List Datum → Extent → Extent → List CellId → Prop
  | [], lo, hi, cs => cs = [] ∧ hi = lo
  | d :: ds, lo, hi, cs => ∃ mid c cs', d.Stored s lo mid c ∧ AllStored s ds mid hi cs' ∧
    cs = c :: cs'

end

mutual

/-- Without marks, which are not stored as they are. -/
def Storable : Datum → Prop
  | .quoted inner => inner.Storable
  | .list items => AllStorable items
  | .mark _ => False
  | .atom _ | .number _ | .str _ | .bool _ => True

def AllStorable : List Datum → Prop
  | [] => True
  | d :: ds => d.Storable ∧ AllStorable ds

end

@[simp] theorem allStorable_iff {ds : List Datum} : AllStorable ds ↔ ∀ d ∈ ds, d.Storable := by
  induction ds with
  | nil => simp [AllStorable]
  | cons d ds ih => simp [AllStorable, ih]

section

variable {s s' : Store} {lo hi : Extent}

theorem AllStored.mono {ds : List Datum} {cs : List CellId}
    (hd : ∀ d ∈ ds, ∀ {lo hi c}, d.Stored s lo hi c → d.Stored s' lo hi c)
    (h : AllStored s ds lo hi cs) : AllStored s' ds lo hi cs := by
  induction ds generalizing lo cs with
  | nil => exact h
  | cons d ds ih =>
    obtain ⟨mid, c, cs', hc, hcs, rfl⟩ := h
    exact ⟨mid, c, cs', hd d List.mem_cons_self hc,
      ih (fun d' h ↦ hd d' (List.mem_cons_of_mem d h)) hcs, rfl⟩

theorem Stored.mono {d : Datum} {c : CellId} (hs : Appends s s') (h : d.Stored s lo hi c) :
    d.Stored s' lo hi c := by
  induction d using induction generalizing lo hi c with
  | atom | number | str | bool => exact ⟨hs.cells h.1, h.2⟩
  | quoted inner ih =>
    obtain ⟨mid, i, hi, hc, h⟩ := h
    exact ⟨mid, i, ih hi, hs.cells hc, h⟩
  | list items ih =>
    obtain ⟨mid, cs, hitems, hc, hrow, h⟩ := h
    exact ⟨mid, cs, hitems.mono fun d hd ↦ ih d hd, hs.cells hc, hrow.mono hs, h⟩
  | mark => exact h

def StoresWell (d : Datum) : Prop :=
  ∀ s, Appends s (load d s).2 ∧ d.Stored (load d s).2 s.extent (load d s).2.extent (load d s).1

theorem allStored_loadItems {ds : List Datum} (h : ∀ d ∈ ds, d.StoresWell) (s : Store) :
    Appends s (loadItems ds s).2 ∧
      AllStored (loadItems ds s).2 ds s.extent (loadItems ds s).2.extent (loadItems ds s).1 := by
  induction ds generalizing s with
  | nil => exact ⟨.refl s, rfl, rfl⟩
  | cons d ds ih =>
    obtain ⟨happ, hstored⟩ := h d List.mem_cons_self s
    obtain ⟨happs, hstoreds⟩ := ih (fun d' hd ↦ h d' (List.mem_cons_of_mem d hd)) (load d s).2
    exact ⟨happ.trans happs, _, _, _, hstored.mono happs, hstoreds, rfl⟩

theorem storesWell {d : Datum} (h : d.Storable) : d.StoresWell := by
  intro s
  induction d using induction generalizing s with
  | atom | number | str | bool =>
    refine ⟨appends_addCell _ s, ?_, rfl, ?_⟩
    · simp [load, addCell]
    · simp [load, addCell, extent, Extent.next]
  | quoted inner ih =>
    obtain ⟨happ, hstored⟩ := ih h s
    have hadd := appends_addCell (.quoted (load inner s).1) (load inner s).2
    refine ⟨happ.trans hadd, _, _, hstored.mono hadd, ?_, rfl, ?_⟩
    · simp [load, addCell]
    · simp [load, addCell, extent, Extent.next]
  | list items ih =>
    have hitems : ∀ d ∈ items, d.StoresWell := fun d hd s ↦ ih d hd (allStorable_iff.1 h d hd) s
    obtain ⟨happ, hstored⟩ := allStored_loadItems hitems s
    have hadd := appends_addList (loadItems items s).1 (loadItems items s).2
    refine ⟨happ.trans hadd, _, _, hstored.mono fun d _ ↦ Stored.mono hadd, ?_,
      hasRow_addList _ _, ?_, ?_⟩
    · simp [load, extent]
    · simp [load, extent]
    · simp [load, extent]
  | mark => cases h

theorem wellLinked_loadItems {ds : List Datum}
    (h : ∀ d ∈ ds, ∀ s : Store, s.WellLinked → (load d s).2.WellLinked) {s : Store}
    (hs : s.WellLinked) : (loadItems ds s).2.WellLinked := by
  induction ds generalizing s with
  | nil => exact hs
  | cons d ds ih =>
    exact ih (fun d' hd ↦ h d' (List.mem_cons_of_mem d hd)) (h d List.mem_cons_self s hs)

theorem wellLinked_load (d : Datum) {s : Store} (hs : s.WellLinked) :
    (load d s).2.WellLinked := by
  induction d using induction generalizing s with
  | atom | number | str | bool => exact hs.of_eq rfl rfl
  | quoted inner ih => exact (ih hs).of_eq rfl rfl
  | list items ih => exact (wellLinked_loadItems (fun d hd s hs ↦ ih d hd hs) hs).addList _
  | mark => exact hs

end

end Datum

end LittleLisp
