import LittleLisp.Proofs.Evaluator.Territory
import LittleLisp.Proofs.Session.History
import LittleLisp.Proofs.Store.Region

/-!
The code of a session: the skeletons of the expressions that it has read. They form a territory of
the store that an expression just stored extends by its own skeleton, and nothing else.
-/

namespace LittleLisp

open Store

namespace Call

def Skeleton (e : Call) (x : CellId) : Prop := e.machine.store.Skeleton e.cell x

def UnderQuote (e : Call) (x : CellId) : Prop := e.machine.store.UnderQuote e.cell x

/-- The lists of the skeleton have in `s` the handle, the nodes and the items with which they were
read. -/
def Unchanged (e : Call) (s : Store) : Prop :=
  ∀ x h, e.Skeleton x → e.machine.store.cell x = .list h →
    s.cell x = .list h ∧ s.head h = e.machine.store.head h ∧
      s.chain h = e.machine.store.chain h ∧ s.items h = e.machine.store.items h

end Call

def codeOf (es : List Call) : Territory where
  cell c := ∃ e ∈ es, e.Skeleton c
  handle h := ∃ e ∈ es, ∃ x, e.Skeleton x ∧ e.machine.store.cell x = .list h
  node n := ∃ e ∈ es, ∃ x h, e.Skeleton x ∧ e.machine.store.cell x = .list h ∧
    n ∈ e.machine.store.chain h

theorem codeOf_append_cell {es : List Call} {e : Call} {c : Nat} :
    (codeOf (es ++ [e])).cell c ↔ (codeOf es).cell c ∨ e.Skeleton c := by
  simp [codeOf, or_and_right, exists_or]

theorem codeOf_append_handle {es : List Call} {e : Call} {h : Nat} :
    (codeOf (es ++ [e])).handle h ↔
      (codeOf es).handle h ∨ ∃ x, e.Skeleton x ∧ e.machine.store.cell x = .list h := by
  simp [codeOf, or_and_right, exists_or]

theorem codeOf_append_node {es : List Call} {e : Call} {n : Nat} :
    (codeOf (es ++ [e])).node n ↔ (codeOf es).node n ∨
      ∃ x h, e.Skeleton x ∧ e.machine.store.cell x = .list h ∧ n ∈ e.machine.store.chain h := by
  simp [codeOf, or_and_right, exists_or]

/-- The expressions stand in the store, their code apart from all else and as it was read. -/
structure Parsed (es : List Call) (s : Store) : Prop where
  separates : (codeOf es).Separates s
  unchanged : ∀ e ∈ es, e.Unchanged s
  root : ∀ e ∈ es, e.Skeleton e.cell
  part_lt : ∀ e ∈ es, ∀ x : Nat, Part e.machine.store e.cell x → x < s.cells.size
  apart : ∀ e ∈ es, ∀ x, (codeOf es).cell x → ¬ e.UnderQuote x

section Load

variable {es : List Call} {s : Store} {d : Datum} {e : Call}

theorem codeOf_append_cell_of_le {x : Nat} (hs : (codeOf es).Separates s)
    (hx : s.cells.size ≤ x) : (codeOf (es ++ [e])).cell x ↔ e.Skeleton x := by
  rw [codeOf_append_cell]
  exact or_iff_right fun h ↦ Nat.not_lt.2 hx (hs.cell_lt h)

structure Added (s : Store) (e : Call) : Prop where
  appends : s.Appends e.machine.store
  region : Region e.machine.store s.extent e.machine.store.extent [e.cell]
  linked : e.machine.store.WellLinked

theorem added_ofDatum (hd : d.Storable) (root : ScopeId) {m : Machine} (hm : m.store.WellLinked) :
    Added m.store (.ofDatum root m d) where
  appends := (Datum.storesWell hd m.store).1
  region := Datum.region_load hd m.store
  linked := Datum.wellLinked_load d hm

namespace Added

variable (ha : Added s e)
include ha

theorem skeleton_iff {x : Nat} : e.Skeleton x ↔ Bare e.machine.store e.cell x :=
  ha.region.skeleton_iff List.mem_cons_self

theorem part_bounds {x : Nat} (hp : Part e.machine.store e.cell x) :
    s.cells.size ≤ x ∧ x < e.machine.store.cells.size :=
  ha.region.cell_lt List.mem_cons_self hp

theorem skeleton_bounds {x : Nat} (hx : e.Skeleton x) :
    s.cells.size ≤ x ∧ x < e.machine.store.cells.size :=
  ha.part_bounds hx.1

theorem part_of_bounds {x : Nat} (h : s.cells.size ≤ x) (h' : x < e.machine.store.cells.size) :
    Part e.machine.store e.cell x := by
  obtain ⟨c, hc, hp⟩ := (ha.region.part_iff x).2 ⟨h, h'⟩
  obtain rfl := List.mem_singleton.1 hc
  exact hp

theorem list_bounds {x h : Nat} (hx : e.Skeleton x) (hl : e.machine.store.cell x = .list h) :
    s.handles.size ≤ h ∧ h < e.machine.store.handles.size := by
  obtain ⟨hlo, hhi⟩ := ha.skeleton_bounds hx
  exact ha.region.handle x h hlo hhi hl

theorem node_bounds {x h n : Nat} (hx : e.Skeleton x) (hl : e.machine.store.cell x = .list h)
    (hn : n ∈ e.machine.store.chain h) : s.nodes.size ≤ n ∧ n < e.machine.store.nodes.size := by
  obtain ⟨hlo, hhi⟩ := ha.skeleton_bounds hx
  exact ha.region.node x h n hlo hhi hl hn

theorem continues (es : List Call) : (codeOf es).Continues (codeOf (es ++ [e])) s where
  cell {c} hc := by
    rw [codeOf_append_cell]
    refine or_iff_left fun hx ↦ ?_
    have := ha.skeleton_bounds hx
    omega
  handle {h} hh := by
    rw [codeOf_append_handle]
    refine or_iff_left ?_
    rintro ⟨x, hx, hl⟩
    have := ha.list_bounds hx hl
    omega
  node {n} hn := by
    rw [codeOf_append_node]
    refine or_iff_left ?_
    rintro ⟨x, h, hx, hl, hmem⟩
    have := ha.node_bounds hx hl hmem
    omega

section

variable (hs : (codeOf es).Separates s)
include hs

theorem handle_iff {x h : Nat} (hx : s.cells.size ≤ x) (hx' : x < e.machine.store.cells.size)
    (hl : e.machine.store.cell x = .list h) :
    (codeOf (es ++ [e])).handle h ↔ e.Skeleton x := by
  have hnew := ha.region.handle x h hx hx' hl
  rw [codeOf_append_handle]
  constructor
  · rintro (hold | ⟨y, hy, hyl⟩)
    · exact absurd (hs.handle_lt hold) (Nat.not_lt.2 hnew.1)
    · obtain rfl := ha.region.list_unique ⟨hx, hx'⟩ (ha.skeleton_bounds hy) hl hyl (.inl rfl)
      exact hy
  · exact fun h ↦ .inr ⟨x, h, hl⟩

theorem node_iff {x h n : Nat} (hx : s.cells.size ≤ x) (hx' : x < e.machine.store.cells.size)
    (hl : e.machine.store.cell x = .list h) (hn : n ∈ e.machine.store.chain h) :
    (codeOf (es ++ [e])).node n ↔ e.Skeleton x := by
  have hnew := ha.region.node x h n hx hx' hl hn
  rw [codeOf_append_node]
  constructor
  · rintro (hold | ⟨y, k, hy, hyl, hny⟩)
    · exact absurd (hs.node_lt hold) (Nat.not_lt.2 hnew.1)
    · obtain rfl := ha.region.list_unique ⟨hx, hx'⟩ (ha.skeleton_bounds hy) hl hyl
        (.inr ⟨n, hn, hny⟩)
      exact hy
  · exact fun h' ↦ .inr ⟨x, h, h', hl, hn⟩

theorem data_of_underQuote {x : Nat} (hx : e.UnderQuote x) :
    (codeOf (es ++ [e])).Data e.machine.store x := by
  obtain ⟨hlo, hhi⟩ := ha.part_bounds hx.part
  refine ⟨hhi, fun h _ hc ↦ ?_⟩
  exact ((codeOf_append_cell_of_le hs hlo).1 hc).2 hx

theorem fitsCell {x : Nat} (hx : s.cells.size ≤ x) (hx' : x < e.machine.store.cells.size) :
    (codeOf (es ++ [e])).FitsCell e.machine.store x (e.machine.store.cell x) := by
  cases hc : e.machine.store.cell x with
  | list h =>
    refine ⟨(ha.region.handle x h hx hx' hc).2, ?_⟩
    rw [ha.handle_iff hs hx hx' hc, codeOf_append_cell_of_le hs hx]
  | quoted i => exact ha.data_of_underQuote hs ⟨x, i, ha.part_of_bounds hx hx', hc, .self⟩
  | function fn => exact absurd hc (ha.region.plain x hx hx' fn)
  | absent | atom | number | str | bool => trivial

theorem fitsNode {n : Nat} {node : Node} (hn : s.nodes.size ≤ n)
    (hread : e.machine.store.nodes[n]? = some node) :
    (codeOf (es ++ [e])).FitsNode e.machine.store n node := by
  have hlt := (Array.getElem?_eq_some_iff.1 hread).1
  obtain ⟨x, h, hx, hx', hl, hmem⟩ := ha.region.node_owner n hn hlt
  have hitem : node.value ∈ e.machine.store.items h := by
    refine List.mem_map.2 ⟨n, hmem, ?_⟩
    rw [nodeValue, hread]
  have hnode := ha.node_iff hs hx hx' hl hmem
  refine ⟨fun k hk ↦ ?_, fun hcode ↦ ?_, fun hdata ↦ ?_⟩
  · have hk' := (ha.linked.links_chain h).mem_next hmem hread hk
    rw [ha.node_iff hs hx hx' hl hk', hnode]
  · have hbare := ha.skeleton_iff.1 (hnode.1 hcode)
    exact codeOf_append_cell.2 (.inr (ha.skeleton_iff.2 (hbare.item hl hitem)))
  · -- A list that is no code lies under a quote, and so do its items.
    have hpart := ha.part_of_bounds hx hx'
    rcases hpart.bare_or with hbare | ⟨q, i, hq, hcell, hi⟩
    · exact absurd (hnode.2 (ha.skeleton_iff.2 hbare)) hdata
    · exact ha.data_of_underQuote hs ⟨q, i, hq, hcell, hi.item hl hitem⟩

theorem separates : (codeOf (es ++ [e])).Separates e.machine.store := by
  refine hs.append ha.appends (ha.continues es) ha.linked ?_ ?_ ?_ ?_ ?_ ?_
  · intro c hc
    rcases codeOf_append_cell.1 hc with hc | hc
    · exact Nat.lt_of_lt_of_le (hs.cell_lt hc) ha.appends.cells_size
    · exact (ha.skeleton_bounds hc).2
  · intro h hh
    rcases codeOf_append_handle.1 hh with hh | ⟨x, hx, hl⟩
    · exact Nat.lt_of_lt_of_le (hs.handle_lt hh) ha.appends.handles_size
    · exact (ha.list_bounds hx hl).2
  · intro n hn
    rcases codeOf_append_node.1 hn with hn | ⟨x, h, hx, hl, hmem⟩
    · exact Nat.lt_of_lt_of_le (hs.node_lt hn) ha.appends.nodes_size
    · exact (ha.node_bounds hx hl hmem).2
  · exact fun c hc hc' ↦ ha.fitsCell hs hc hc'
  · intro h n hlt hh
    have hlt' : h < e.machine.store.handles.size := lt_of_head hh
    obtain ⟨x, hx, hx', hl⟩ := ha.region.handle_owner h hlt hlt'
    rw [ha.handle_iff hs hx hx' hl,
      ha.node_iff hs hx hx' hl (ha.linked.mem_chain_of_head hh)]
  · exact fun hlt hread ↦ ha.fitsNode hs hlt hread

end

end Added

end Load

namespace Parsed

variable {es : List Call} {s s' : Store} {e : Call}

theorem nil : Parsed [] Store.empty where
  separates := {
    linked := ⟨by simp [Store.head, Store.empty], by simp [Store.empty], by simp [Store.empty]⟩
    cell_lt := by simp [codeOf]
    handle_lt := by simp [codeOf]
    node_lt := by simp [codeOf]
    cell := by
      intro c
      have hcell : Store.empty.cell c = .absent := by
        cases c <;> rfl
      rw [hcell]
      trivial
    head := by simp [Store.head, Store.empty]
    node := by simp [Store.empty]
    bound := by simp [Store.empty] }
  unchanged := by simp
  root := by simp
  part_lt := by simp
  apart := by simp

theorem unchanged_of_intact (h : Parsed es s) (hi : (codeOf es).Intact s s') :
    ∀ e ∈ es, e.Unchanged s' := by
  intro e he x k hx hl
  obtain ⟨hcell, hhead, hchain, hitems⟩ := h.unchanged e he x k hx hl
  have hk : (codeOf es).handle k := ⟨e, he, x, hx, hl⟩
  obtain ⟨hchain', hitems'⟩ := h.separates.chain_eq hi hk
  exact ⟨hi.grows.cell_eq_of_ne_absent hcell nofun, (hi.head hk).trans hhead,
    hchain'.trans hchain, hitems'.trans hitems⟩

theorem guard (h : Parsed es s) : (codeOf es).Guarded s s := ⟨h.separates, .refl _ _⟩

theorem guarded (h : Parsed es s) (hg : (codeOf es).Guarded s s') : Parsed es s' where
  separates := hg.separates
  unchanged := h.unchanged_of_intact hg.intact
  root := h.root
  part_lt e he x hp := Nat.lt_of_lt_of_le (h.part_lt e he x hp) hg.intact.grows.cells_size
  apart := h.apart

theorem add (h : Parsed es s) (ha : Added s e) : Parsed (es ++ [e]) e.machine.store where
  separates := ha.separates h.separates
  unchanged e' he' := by
    rcases List.mem_append.1 he' with he' | he'
    · exact h.unchanged_of_intact (h.separates.intact_append ha.appends) e' he'
    · obtain rfl := List.mem_singleton.1 he'
      exact fun x k _ hl ↦ ⟨hl, rfl, rfl, rfl⟩
  root e' he' := by
    rcases List.mem_append.1 he' with he' | he'
    · exact h.root e' he'
    · obtain rfl := List.mem_singleton.1 he'
      exact ha.skeleton_iff.2 .self
  part_lt e' he' x hp := by
    rcases List.mem_append.1 he' with he' | he'
    · exact Nat.lt_of_lt_of_le (h.part_lt e' he' x hp) ha.appends.cells_size
    · obtain rfl := List.mem_singleton.1 he'
      exact (ha.part_bounds hp).2
  apart e' he' x hx hu := by
    rcases List.mem_append.1 he' with he' | he' <;>
      rcases codeOf_append_cell.1 hx with hcode | hskeleton
    · exact h.apart e' he' x hcode hu
    · have hlt := h.part_lt e' he' x hu.part
      exact Nat.not_lt.2 (ha.skeleton_bounds hskeleton).1 hlt
    · obtain rfl := List.mem_singleton.1 he'
      exact Nat.not_lt.2 (ha.part_bounds hu.part).1 (h.separates.cell_lt hcode)
    · obtain rfl := List.mem_singleton.1 he'
      exact hskeleton.2 hu

end Parsed

end LittleLisp
