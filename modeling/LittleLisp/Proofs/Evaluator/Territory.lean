import LittleLisp.Proofs.Evaluator.Discipline
import LittleLisp.Proofs.Store.Scope

/-!
Territories: a part of a store, given by its cells, handles and nodes, that no link enters or
leaves. The lists of a territory and those outside share no node, and no value that is kept outside
is a list of the territory, so that a push outside never reaches into it.
-/

namespace LittleLisp

open Store

structure Territory where
  cell : Nat → Prop
  handle : Nat → Prop
  node : Nat → Prop

namespace Territory

variable {T T' : Territory} {s s' : Store}

/-- A cell that may be kept outside: it is no list of the territory. -/
def Data (T : Territory) (s : Store) (c : Nat) : Prop :=
  c < s.cells.size ∧ ∀ h, s.cell c = .list h → ¬ T.cell c

/-- What a cell refers to is on its own side of the border. -/
def FitsCell (T : Territory) (s : Store) (c : Nat) : Cell → Prop
  | .list h => h < s.handles.size ∧ (T.handle h ↔ T.cell c)
  | .quoted i => T.Data s i
  | .function fn => fn.Callable T.cell fun _ ↦ True
  | _ => True

structure FitsNode (T : Territory) (s : Store) (n : Nat) (node : Node) : Prop where
  next : ∀ k, node.next = some k → (T.node k ↔ T.node n)
  code : T.node n → T.cell node.value
  data : ¬ T.node n → T.Data s node.value

/-- The territory lies in the store and no link crosses its border. -/
structure Separates (T : Territory) (s : Store) : Prop where
  linked : s.WellLinked
  cell_lt : ∀ {c : Nat}, T.cell c → c < s.cells.size
  handle_lt : ∀ {h : Nat}, T.handle h → h < s.handles.size
  node_lt : ∀ {n : Nat}, T.node n → n < s.nodes.size
  cell : ∀ c : Nat, T.FitsCell s c (s.cell c)
  head : ∀ {h n : Nat}, s.head h = some n → (T.node n ↔ T.handle h)
  node : ∀ {n : Nat} {node : Node}, s.nodes[n]? = some node → T.FitsNode s n node
  bound : ∀ {e : Nat} {scope : Scope} {p : Text × CellId}, s.scopes[e]? = some scope →
    p ∈ scope.bindings → T.Data s p.2

structure Intact (T : Territory) (s s' : Store) : Prop where
  grows : s.Extends s'
  head : ∀ {h : Nat}, T.handle h → s'.head h = s.head h
  node : ∀ {n : Nat}, T.node n → s'.nodes[n]? = s.nodes[n]?

/-- `T'` takes from `s` no more than `T` does. -/
structure Continues (T T' : Territory) (s : Store) : Prop where
  cell : ∀ {c : Nat}, c < s.cells.size → (T'.cell c ↔ T.cell c)
  handle : ∀ {h : Nat}, h < s.handles.size → (T'.handle h ↔ T.handle h)
  node : ∀ {n : Nat}, n < s.nodes.size → (T'.node n ↔ T.node n)

theorem Continues.refl (T : Territory) (s : Store) : T.Continues T s :=
  ⟨fun _ ↦ .rfl, fun _ ↦ .rfl, fun _ ↦ .rfl⟩

theorem Data.continues {c : Nat} (hd : T.Data s c) (hT : T.Continues T' s) (hs : s.Extends s') :
    T'.Data s' c := by
  refine ⟨Nat.lt_of_lt_of_le hd.1 hs.cells_size, ?_⟩
  intro h hcell
  rw [hs.cell_eq hd.1] at hcell
  rw [hT.cell hd.1]
  exact hd.2 h hcell

theorem Data.mono {c : Nat} (hd : T.Data s c) (hs : s.Extends s') : T.Data s' c :=
  hd.continues (.refl T s) hs

theorem FitsCell.continues {c : Nat} {x : Cell} (hx : T.FitsCell s c x) (hc : c < s.cells.size)
    (hlt : ∀ {c : Nat}, T.cell c → c < s.cells.size) (hT : T.Continues T' s)
    (hs : s.Extends s') : T'.FitsCell s' c x := by
  cases x with
  | list h =>
    refine ⟨Nat.lt_of_lt_of_le hx.1 hs.handles, ?_⟩
    rw [hT.handle hx.1, hT.cell hc]
    exact hx.2
  | quoted i => exact Data.continues hx hT hs
  | function fn =>
    refine FunctionValue.Callable.mono hx (fun c h ↦ ?_) fun _ _ ↦ trivial
    exact (hT.cell (hlt h)).2 h
  | absent | atom | number | str | bool => trivial

namespace Separates

section

variable (hs : T.Separates s)
include hs

theorem list {c h : Nat} (hc : s.cell c = .list h) :
    h < s.handles.size ∧ (T.handle h ↔ T.cell c) := by
  have hfit := hs.cell c
  rwa [hc] at hfit

theorem quoted {c i : Nat} (hc : s.cell c = .quoted i) : T.Data s i := by
  have hfit := hs.cell c
  rwa [hc] at hfit

theorem function {c : Nat} {fn : FunctionValue} (hc : s.cell c = .function fn) :
    fn.Callable T.cell fun _ ↦ True := by
  have hfit := hs.cell c
  rwa [hc] at hfit

theorem links_iff {n : Nat} {ns : List NodeId} (hl : Links s (some n) ns) :
    ∀ k ∈ ns, (T.node k ↔ T.node n) := by
  generalize ho : some n = o at hl
  induction hl generalizing n with
  | nil => cases ho
  | @cons n' node ns read rest ih =>
    cases ho
    intro k hk
    rcases List.mem_cons.1 hk with rfl | hk
    · exact .rfl
    · cases hnext : node.next with
      | none =>
        rw [hnext] at rest
        cases rest
        cases hk
      | some k' => exact (ih hnext.symm k hk).trans ((hs.node read).next k' hnext)

theorem chain_iff {h n : Nat} (hn : n ∈ s.chain h) : T.node n ↔ T.handle h := by
  have hl := hs.linked.links_chain h
  cases hh : s.head h with
  | none =>
    rw [hh] at hl
    rw [hl.unique .nil] at hn
    cases hn
  | some k =>
    rw [hh] at hl
    exact (hs.links_iff hl n hn).trans (hs.head hh)

end

theorem append (hs : T.Separates s) (happ : s.Appends s') (hT : T.Continues T' s)
    (hlinked : s'.WellLinked) (hcell_lt : ∀ {c : Nat}, T'.cell c → c < s'.cells.size)
    (hhandle_lt : ∀ {h : Nat}, T'.handle h → h < s'.handles.size)
    (hnode_lt : ∀ {n : Nat}, T'.node n → n < s'.nodes.size)
    (hcell : ∀ c : Nat, s.cells.size ≤ c → c < s'.cells.size → T'.FitsCell s' c (s'.cell c))
    (hhead : ∀ {h n : Nat}, s.handles.size ≤ h → s'.head h = some n →
      (T'.node n ↔ T'.handle h))
    (hnode : ∀ {n : Nat} {node : Node}, s.nodes.size ≤ n → s'.nodes[n]? = some node →
      T'.FitsNode s' n node) : T'.Separates s' where
  linked := hlinked
  cell_lt := hcell_lt
  handle_lt := hhandle_lt
  node_lt := hnode_lt
  cell c := by
    rcases Nat.lt_or_ge c s.cells.size with hc | hc
    · rw [happ.toExtends.cell_eq hc]
      exact (hs.cell c).continues hc hs.cell_lt hT happ.toExtends
    · rcases Nat.lt_or_ge c s'.cells.size with hc' | hc'
      · exact hcell c hc hc'
      · rw [Store.cell, Array.getElem?_eq_none hc']
        trivial
  head {h n} hh := by
    rcases Nat.lt_or_ge h s.handles.size with hlt | hlt
    · have hold : s.head h = some n := by
        rw [← hh, Store.head, Store.head, Array.getElem?_eq_getElem hlt,
          happ.handles (Array.getElem?_eq_getElem hlt)]
      rw [hT.node (hs.linked.head_lt hold), hT.handle hlt]
      exact hs.head hold
    · exact hhead hlt hh
  node {n node} hread := by
    rcases Nat.lt_or_ge n s.nodes.size with hlt | hlt
    · rw [happ.read_node hlt] at hread
      obtain ⟨hnext, hcode, hdata⟩ := hs.node hread
      refine ⟨fun k hk ↦ ?_, fun hn ↦ ?_, fun hn ↦ ?_⟩
      · rw [hT.node (hs.linked.next_lt hread hk), hT.node hlt]
        exact hnext k hk
      · have hval := hcode ((hT.node hlt).1 hn)
        exact (hT.cell (hs.cell_lt hval)).2 hval
      · exact (hdata fun h ↦ hn ((hT.node hlt).2 h)).continues hT happ.toExtends
    · exact hnode hlt hread
  bound hscope hp := by
    rw [happ.scopes] at hscope
    exact (hs.bound hscope hp).continues hT happ.toExtends

theorem append_data (hs : T.Separates s) (happ : s.Appends s') (hlinked : s'.WellLinked)
    (hcell : ∀ c : Nat, s.cells.size ≤ c → c < s'.cells.size → T.FitsCell s' c (s'.cell c))
    (hhead : ∀ {h n : Nat}, s.handles.size ≤ h → s'.head h = some n → ¬ T.node n)
    (hnode : ∀ {n : Nat} {node : Node}, s.nodes.size ≤ n → s'.nodes[n]? = some node →
      (∀ k, node.next = some k → ¬ T.node k) ∧ T.Data s' node.value) : T.Separates s' := by
  have hnew {n : Nat} (hn : s.nodes.size ≤ n) : ¬ T.node n := fun h ↦
    Nat.not_lt.2 hn (hs.node_lt h)
  refine hs.append happ (.refl T s) hlinked ?_ ?_ ?_ hcell ?_ ?_
  · exact fun hc ↦ Nat.lt_of_lt_of_le (hs.cell_lt hc) happ.cells_size
  · exact fun hh ↦ Nat.lt_of_lt_of_le (hs.handle_lt hh) happ.handles_size
  · exact fun hn ↦ Nat.lt_of_lt_of_le (hs.node_lt hn) happ.nodes_size
  · intro h n hlt hh
    exact iff_of_false (hhead hlt hh) fun h ↦ Nat.not_lt.2 hlt (hs.handle_lt h)
  · intro n node hlt hread
    obtain ⟨hnext, hdata⟩ := hnode hlt hread
    exact ⟨fun k hk ↦ iff_of_false (hnext k hk) (hnew hlt), fun h ↦ absurd h (hnew hlt),
      fun _ ↦ hdata⟩

theorem addCell (hs : T.Separates s) {x : Cell}
    (hx : T.FitsCell (s.addCell x).2 s.cells.size x) : T.Separates (s.addCell x).2 := by
  refine hs.append_data (appends_addCell x s) (hs.linked.of_eq rfl rfl) ?_ ?_ ?_
  · intro c hc hc'
    rw [Store.addCell, Array.size_push] at hc'
    obtain rfl : c = s.cells.size := by omega
    rwa [cell_addCell]
  · intro h n hlt hh
    exact absurd (lt_of_head hh) (Nat.not_lt.2 hlt)
  · intro n node hlt hread
    exact absurd (Array.getElem?_eq_some_iff.1 hread).1 (Nat.not_lt.2 hlt)

theorem addListFrom (hs : T.Separates s) {o : Option NodeId}
    (ho : ∀ n : Nat, o = some n → n < s.nodes.size ∧ ¬ T.node n) :
    T.Separates (s.addListFrom o).2 := by
  refine hs.append_data (appends_addListFrom o s) (hs.linked.addListFrom fun n h ↦ (ho n h).1)
    ?_ ?_ ?_
  · intro c hc hc'
    have hsize : (s.addListFrom o).2.cells.size = s.cells.size + 1 := Array.size_push _
    obtain rfl : c = s.cells.size := by omega
    have hcell : (s.addListFrom o).2.cell s.cells.size = .list s.handles.size := cell_addCell _ _
    rw [hcell]
    have hhandles : (s.addListFrom o).2.handles.size = s.handles.size + 1 := Array.size_push _
    refine ⟨Nat.lt_of_lt_of_eq (Nat.lt_succ_self _) hhandles.symm, iff_of_false ?_ ?_⟩
    · exact fun h ↦ Nat.lt_irrefl _ (hs.handle_lt h)
    · exact fun h ↦ Nat.lt_irrefl _ (hs.cell_lt h)
  · intro h n hlt hh
    have hread : (s.handles.push o)[h]?.join = some n := hh
    rw [Array.getElem?_push] at hread
    split at hread
    · exact (ho n hread).2
    · rw [Array.getElem?_eq_none hlt] at hread
      cases hread
  · intro n node hlt hread
    exact absurd (Array.getElem?_eq_some_iff.1 hread).1 (Nat.not_lt.2 hlt)

theorem addChain (hs : T.Separates s) {vs : List CellId} (hv : ∀ v ∈ vs, T.Data s v) :
    T.Separates (s.addChain vs).2 := by
  have happ := appends_addChain vs s
  refine hs.append_data happ (hs.linked.addChain vs) ?_ ?_ ?_
  · intro c hc hc'
    rw [addChain_cells] at hc'
    omega
  · intro h n hlt hh
    rw [Store.head, addChain_handles, Array.getElem?_eq_none hlt] at hh
    cases hh
  · intro n node hlt hread
    obtain hold | ⟨i, v, rfl, hi, rfl⟩ := addChain_node_cases vs s hread
    · rw [Array.getElem?_eq_none hlt] at hold
      cases hold
    · refine ⟨?_, (hv v (List.mem_of_getElem? hi)).mono happ.toExtends⟩
      intro k hk hT
      obtain ⟨-, ⟨⟩⟩ := Option.ite_none_right_eq_some.1 hk
      have := hs.node_lt hT
      omega

theorem addList (hs : T.Separates s) {vs : List CellId} (hv : ∀ v ∈ vs, T.Data s v) :
    T.Separates (s.addList vs).2 := by
  refine (hs.addChain hv).addListFrom ?_
  intro n hn
  rw [addChain_fst] at hn
  obtain ⟨hne, ⟨⟩⟩ := Option.ite_none_left_eq_some.1 hn
  have := List.length_pos_iff.2 hne
  refine ⟨by rw [addChain_nodes_size]; omega, ?_⟩
  exact fun h ↦ Nat.lt_irrefl _ (hs.node_lt h)

theorem push (hs : T.Separates s) {h v : Nat} (hh : ¬ T.handle h) (hv : T.Data s v) :
    T.Separates (s.push h v) := by
  have hg := extends_push h v s
  have hnew : ¬ T.node s.nodes.size := fun h ↦ Nat.lt_irrefl _ (hs.node_lt h)
  refine ⟨hs.linked.push h v, ?_, ?_, ?_, ?_, ?_, ?_, ?_⟩
  · intro c hc
    rw [push_cells]
    exact hs.cell_lt hc
  · intro k hk
    rw [push_handles_size]
    exact hs.handle_lt hk
  · intro n hn
    rw [push_nodes_size]
    exact Nat.lt_succ_of_lt (hs.node_lt hn)
  · intro c
    have hcell : (s.push h v).cell c = s.cell c := by simp [Store.cell]
    rw [hcell]
    rcases Nat.lt_or_ge c s.cells.size with hc | hc
    · exact (hs.cell c).continues hc hs.cell_lt (.refl T s) hg
    · rw [Store.cell, Array.getElem?_eq_none hc]
      trivial
  · intro k n hhead
    rw [push_head] at hhead
    split at hhead
    case isTrue hempty =>
      obtain ⟨rfl, -, -⟩ := hempty
      cases hhead
      exact iff_of_false hnew hh
    case isFalse => exact hs.head hhead
  · intro n node hread
    obtain ⟨rfl, rfl⟩ | ⟨old, hold, hlast, rfl⟩ | hold := push_node_cases s h v hread
    · refine ⟨?_, fun hn ↦ absurd hn hnew, fun _ ↦ hv.mono hg⟩
      intro k hk
      cases hk
    · -- The tail of a chain outside lies outside, as the new node does.
      have htail : ¬ T.node n := fun hn ↦
        hh ((hs.chain_iff (List.mem_of_getLast? hlast)).1 hn)
      refine ⟨?_, fun hn ↦ absurd hn htail, fun hn ↦ ((hs.node hold).data hn).mono hg⟩
      intro k hk
      cases hk
      exact iff_of_false hnew htail
    · obtain ⟨hnext, hcode, hdata⟩ := hs.node hold
      exact ⟨hnext, hcode, fun hn ↦ (hdata hn).mono hg⟩
  · intro e scope p hscope hp
    rw [push_scopes] at hscope
    exact (hs.bound hscope hp).mono hg

theorem withScopes (hs : T.Separates s) {scopes : Array Scope}
    (hb : ∀ {e : Nat} {scope : Scope} {p : Text × CellId}, scopes[e]? = some scope →
      p ∈ scope.bindings → T.Data s p.2) : T.Separates { s with scopes := scopes } where
  linked := hs.linked.of_eq rfl rfl
  cell_lt := hs.cell_lt
  handle_lt := hs.handle_lt
  node_lt := hs.node_lt
  cell := hs.cell
  head := hs.head
  node hread := ⟨(hs.node hread).next, (hs.node hread).code, (hs.node hread).data⟩
  bound := hb

theorem define (hs : T.Separates s) (e : ScopeId) (n : Text) {v : Nat} (hv : T.Data s v) :
    T.Separates (s.define e n v) := by
  refine hs.withScopes ?_
  intro e' scope p hscope hp
  rw [Array.getElem?_modify] at hscope
  split at hscope
  · obtain ⟨old, hold, rfl⟩ := Option.map_eq_some_iff.1 hscope
    rcases mem_bind hp with hp | hp
    · rw [hp]
      exact hv
    · exact hs.bound hold hp
  · exact hs.bound hscope hp

theorem addScope (hs : T.Separates s) (o : Option ScopeId) : T.Separates (s.addScope o).2 := by
  refine hs.withScopes ?_
  intro e scope p hscope hp
  rw [Array.getElem?_push] at hscope
  split at hscope
  · cases hscope
    cases hp
  · exact hs.bound hscope hp

end Separates

namespace Intact

theorem refl (T : Territory) (s : Store) : T.Intact s s := ⟨.refl s, fun _ ↦ rfl, fun _ ↦ rfl⟩

theorem trans {s'' : Store} (h : T.Intact s s') (h' : T.Intact s' s'') : T.Intact s s'' where
  grows := h.grows.trans h'.grows
  head hh := (h'.head hh).trans (h.head hh)
  node hn := (h'.node hn).trans (h.node hn)

end Intact

namespace Separates

theorem intact_append (hs : T.Separates s) (happ : s.Appends s') : T.Intact s s' where
  grows := happ.toExtends
  head hh := by
    have hread := Array.getElem?_eq_getElem (hs.handle_lt hh)
    rw [Store.head, Store.head, hread, happ.handles hread]
  node hn := happ.read_node (hs.node_lt hn)

theorem intact_push (hs : T.Separates s) {h : Nat} (hh : ¬ T.handle h) (v : CellId) :
    T.Intact s (s.push h v) where
  grows := extends_push h v s
  head {k} hk := by
    rw [push_head, if_neg]
    rintro ⟨rfl, -⟩
    exact hh hk
  node {n} hn := by
    rw [push_nodes _ _ _ (hs.node_lt hn), if_neg]
    intro hlast
    exact hh ((hs.chain_iff (List.mem_of_getLast? hlast)).1 hn)

theorem chain_eq (hs : T.Separates s) (hi : T.Intact s s') {h : Nat} (hh : T.handle h) :
    s'.chain h = s.chain h ∧ s'.items h = s.items h := by
  have hl := hs.linked.links_chain h
  have hnode : ∀ n ∈ s.chain h, s'.nodes[n]? = s.nodes[n]? := by
    intro n hn
    exact hi.node ((hs.chain_iff hn).2 hh)
  have hchain : s'.chain h = s.chain h := by
    refine Links.chain_eq ?_ ?_
    · rw [hi.head hh]
      exact hl.congr hnode
    · exact Nat.le_trans (hs.linked.chain_length h) hi.grows.nodes
  refine ⟨hchain, ?_⟩
  rw [Store.items, Store.items, hchain]
  refine List.map_congr_left ?_
  intro n hn
  rw [nodeValue, nodeValue, hnode n hn]

theorem item_data (hs : T.Separates s) {h n : Nat} (hh : ¬ T.handle h) (hn : n ∈ s.chain h) :
    T.Data s (s.nodeValue n) := by
  have hread := Array.getElem?_eq_getElem (mem_chain_lt hn)
  rw [nodeValue, hread]
  exact (hs.node hread).data fun h ↦ hh ((hs.chain_iff hn).1 h)

theorem item_code (hs : T.Separates s) {h i : Nat} (hh : T.handle h) (hi : i ∈ s.items h) :
    T.cell i := by
  obtain ⟨n, hn, rfl⟩ := List.mem_map.1 hi
  have hread := Array.getElem?_eq_getElem (mem_chain_lt hn)
  rw [nodeValue, hread]
  exact (hs.node hread).code ((hs.chain_iff hn).2 hh)

theorem not_handle (hs : T.Separates s) {c h : Nat} (hd : T.Data s c) (hc : s.cell c = .list h) :
    ¬ T.handle h := fun hh ↦ hd.2 h hc ((hs.list hc).2.1 hh)

theorem lookup (hs : T.Separates s) {e : ScopeId} {n : Text} {v : CellId}
    (hv : s.lookup? e n = some v) : T.Data s v := by
  obtain ⟨e', scope, hscope, hmem⟩ := exists_of_lookup? hv
  exact hs.bound hscope hmem

end Separates

structure Guarded (T : Territory) (s₀ s : Store) : Prop where
  separates : T.Separates s
  intact : T.Intact s₀ s

namespace Guarded

variable {s₀ : Store}

theorem append (hi : T.Guarded s₀ s) (happ : s.Appends s') (hs : T.Separates s')
    (hlt : s.cells.size < s'.cells.size) : T.Guarded s₀ s' ∧ T.Data s' s.cells.size := by
  refine ⟨⟨hs, hi.intact.trans (hi.separates.intact_append happ)⟩, hlt, ?_⟩
  intro h _ hc
  exact Nat.lt_irrefl _ (hi.separates.cell_lt hc)

theorem addCell (hi : T.Guarded s₀ s) {x : Cell}
    (hx : T.FitsCell (s.addCell x).2 s.cells.size x) :
    T.Guarded s₀ (s.addCell x).2 ∧ T.Data (s.addCell x).2 (s.addCell x).1 := by
  refine hi.append (appends_addCell x s) (hi.separates.addCell hx) ?_
  exact Nat.lt_of_lt_of_eq (Nat.lt_succ_self _) (Array.size_push _).symm

theorem addList (hi : T.Guarded s₀ s) {vs : List CellId} (hv : ∀ v ∈ vs, T.Data s v) :
    T.Guarded s₀ (s.addList vs).2 ∧ T.Data (s.addList vs).2 (s.addList vs).1 := by
  rw [addList_fst]
  refine hi.append (appends_addList vs s) (hi.separates.addList hv) ?_
  rw [addList_cells, Array.size_push]
  exact Nat.lt_succ_self _

theorem addRest (hi : T.Guarded s₀ s) {h v n : Nat} (hh : ¬ T.handle h)
    (hsplit : s.split? h = some (v, some n)) :
    T.Guarded s₀ (s.addListFrom (some n)).2 ∧
      T.Data (s.addListFrom (some n)).2 (s.addListFrom (some n)).1 := by
  obtain ⟨first, rest, hchain, -, hn⟩ := chain_of_split? hsplit
  have hmem : n ∈ s.chain h := by
    rw [hchain]
    exact List.mem_cons_of_mem _ (List.mem_of_head? hn.symm)
  refine hi.append (appends_addListFrom _ s) (hi.separates.addListFrom ?_) ?_
  · rintro k ⟨⟩
    exact ⟨mem_chain_lt hmem, fun hk ↦ hh ((hi.separates.chain_iff hmem).1 hk)⟩
  · exact Nat.lt_of_lt_of_eq (Nat.lt_succ_self _) (Array.size_push _).symm

theorem push (hi : T.Guarded s₀ s) {h v : Nat} (hh : ¬ T.handle h) (hv : T.Data s v) :
    T.Guarded s₀ (s.push h v) :=
  ⟨hi.separates.push hh hv, hi.intact.trans (hi.separates.intact_push hh v)⟩

theorem define (hi : T.Guarded s₀ s) (e : ScopeId) (n : Text) {v : Nat} (hv : T.Data s v) :
    T.Guarded s₀ (s.define e n v) := by
  refine ⟨hi.separates.define e n hv, hi.intact.trans ⟨extends_define e n v s, ?_, ?_⟩⟩
  · exact fun _ ↦ rfl
  · exact fun _ ↦ rfl

theorem addScope (hi : T.Guarded s₀ s) (o : Option ScopeId) :
    T.Guarded s₀ (s.addScope o).2 := by
  refine ⟨hi.separates.addScope o, hi.intact.trans ⟨extends_addScope o s, ?_, ?_⟩⟩
  · exact fun _ ↦ rfl
  · exact fun _ ↦ rfl

theorem addOperators (hi : T.Guarded s₀ s) (e : ScopeId) {fns : List FunctionValue}
    (hf : ∀ fn ∈ fns, fn.Callable T.cell fun _ ↦ True) :
    T.Guarded s₀ (fns.foldl (addOperator e) s) := by
  induction fns generalizing s with
  | nil => exact hi
  | cons fn fns ih =>
    obtain ⟨hadd, hdata⟩ := hi.addCell (x := .function fn) (hf fn List.mem_cons_self)
    exact ih (hadd.define e fn.name hdata) fun fn' h ↦ hf fn' (List.mem_cons_of_mem fn h)

theorem addRoot (hi : T.Guarded s₀ s) : T.Guarded s₀ s.addRoot.2 := by
  refine (hi.addScope none).addOperators _ ?_
  intro fn hfn
  rcases List.mem_append.1 hfn with hfn | hfn
  · obtain ⟨op, -, rfl⟩ := List.mem_map.1 hfn
    rfl
  · obtain ⟨op, -, rfl⟩ := List.mem_map.1 hfn
    exact nofun

end Guarded

/-- Evaluation of what lies in a territory, with values from outside. -/
def discipline (T : Territory) (s₀ : Store) : Discipline where
  inv := T.Guarded s₀
  code _ c := T.cell c
  value := T.Data
  scope _ _ := True
  code_mono _ hc := hc
  value_mono hg hv := hv.mono hg
  scope_mono _ he := he
  literal hi hc hl := ⟨hi.separates.cell_lt hc, fun h hcell ↦ absurd hcell (hl h)⟩
  quoted hi _ hcell := hi.separates.quoted hcell
  item hi hc hcell hmem := hi.separates.item_code ((hi.separates.list hcell).2.2 hc) hmem
  lookup hi _ hv := hi.separates.lookup hv
  callable hi _ hf := hi.separates.function hf
  first hi hl hcell hsplit := by
    obtain ⟨n, rest, hchain, rfl, -⟩ := chain_of_split? hsplit
    exact hi.separates.item_data (hi.separates.not_handle hl hcell) (hchain ▸ List.mem_cons_self)
  addNumber x hi := hi.addCell trivial
  addBool b hi := hi.addCell trivial
  addClosure n ps hi _ hbody := hi.addCell ⟨rfl, trivial, hbody⟩
  addList hi hv := hi.addList hv
  addRest hi hl hcell hsplit := hi.addRest (hi.separates.not_handle hl hcell) hsplit
  push hi hl hcell hv := hi.push (hi.separates.not_handle hl hcell) hv
  define n hi _ hv := hi.define _ n hv
  addScope hi _ := ⟨hi.addScope _, trivial⟩

end Territory

end LittleLisp
