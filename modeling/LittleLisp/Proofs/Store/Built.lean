import LittleLisp.Proofs.Evaluator.Discipline
import LittleLisp.Proofs.Renaming.Reach
import LittleLisp.Proofs.Renaming.Writing
import LittleLisp.Proofs.Store.Scope

/-!
Stores that can be built. Every operation on a store has operands that are there; so in a store that
operations lead to, from the empty one, every reference leads to something and no value is missing.
-/

namespace LittleLisp

/-- A function of the language itself: a closure, or an operator of the kind that it needs. -/
def FunctionValue.Native (fn : FunctionValue) : Prop :=
  fn.Callable (fun _ ↦ True) fun _ ↦ True

namespace Store

variable {s s' : Store} {x y : Item} {a : Content}

/-- The store holds the item, and it is not the absent cell. -/
def Present (s : Store) (x : Item) : Prop := ∃ a, s.content? x = some a ∧ a ≠ .cell .absent

/-- Every reference leads to something, and every function is native. -/
structure Whole (s : Store) : Prop where
  wellFormed : s.WellFormed
  refers : ∀ {x y : Item}, s.Refers x y → s.Present y
  native : ∀ {x : Item} {fn : FunctionValue}, s.content? x = some (.cell (.function fn)) → fn.Native

/-- The stores that operations lead to, each with operands that are there. -/
inductive Built : Store → Prop
  | empty : Built .empty
  | addCell {s : Store} {x : Cell} (before : Built s) (value : x ≠ .absent)
      (parts : ∀ y, (Content.cell x).Mentions y → s.Present y)
      (native : ∀ fn, x = .function fn → fn.Native) : Built (s.addCell x).2
  | addHandle {s : Store} {o : Option NodeId} (before : Built s)
      (first : ∀ n, o = some n → s.Present (.node n)) : Built (s.addHandle o).2
  | push {s : Store} {h : HandleId} {v : CellId} (before : Built s) (list : s.Present (.handle h))
      (value : s.Present (.cell v)) : Built (s.push h v)
  | addScope {s : Store} {o : Option ScopeId} (before : Built s)
      (outer : ∀ e, o = some e → s.Present (.scope e)) : Built (s.addScope o).2
  | define {s : Store} {e : ScopeId} {v : CellId} (before : Built s) (n : Text)
      (scope : s.Present (.scope e)) (value : s.Present (.cell v)) : Built (s.define e n v)

theorem content?_of_cell {c : CellId} {x : Cell} (h : s.cell c = x) (hx : x ≠ .absent) :
    s.content? (.cell c) = some (.cell x) := by
  have hlt := lt_of_cell_ne_absent (h ▸ hx)
  rw [content?, Array.getElem?_eq_getElem hlt, ← h, cell, Array.getElem?_eq_getElem hlt]
  rfl

theorem content?_of_node {n : NodeId} {x : Node} (h : s.nodes[n]? = some x) :
    s.content? (.node n) = some (.node x) := by
  rw [content?, h]
  rfl

theorem content?_of_scope {e : ScopeId} {x : Scope} (h : s.scopes[e]? = some x) :
    s.content? (.scope e) = some (.scope x) := by
  rw [content?, h]
  rfl

theorem exists_node_of_mem_chain {h : HandleId} {n : NodeId} (hn : n ∈ s.chain h) :
    ∃ x, s.nodes[n]? = some x :=
  ⟨_, Array.getElem?_eq_getElem (mem_chain_lt hn)⟩

namespace Present

theorem content? (h : s.Present x) : s.content? x ≠ none := by
  obtain ⟨a, ha, -⟩ := h
  rw [ha]
  exact Option.some_ne_none a

theorem cell_iff {c : CellId} : s.Present (.cell c) ↔ s.cell c ≠ .absent := by
  rw [Present, Store.content?, cell]
  cases s.cells[c]? <;> simp

theorem handle_iff {h : HandleId} : s.Present (.handle h) ↔ h < s.handles.size := by
  simp [Present, Store.content?, Array.getElem?_eq_some_iff]

theorem scope_iff {e : ScopeId} : s.Present (.scope e) ↔ e < s.scopes.size := by
  simp [Present, Store.content?, Array.getElem?_eq_some_iff]

theorem writes (h : s.Present y) (hw : s.Writes s' x a) (ha : a ≠ .cell .absent) :
    s'.Present y := by
  by_cases hxy : y = x
  · exact ⟨a, hxy ▸ hw.here, ha⟩
  · obtain ⟨b, hb, hne⟩ := h
    exact ⟨b, (hw.others y hxy).trans hb, hne⟩

theorem cell_extends {c : CellId} (h : s.Present (.cell c)) (hs : s.Extends s') :
    s'.Present (.cell c) := by
  rw [cell_iff] at h ⊢
  rwa [hs.cell_eq (lt_of_cell_ne_absent h)]

theorem scope_extends {e : ScopeId} (h : s.Present (.scope e)) (hs : s.Extends s') :
    s'.Present (.scope e) := by
  rw [scope_iff] at h ⊢
  exact Nat.lt_of_lt_of_le h hs.scopes

end Present

namespace Whole

theorem empty : Store.empty.Whole where
  wellFormed := wellFormed_empty
  refers := by
    intro x y ⟨a, ha, hy⟩
    rw [(Renaming.content?_empty ha).2] at hy
    cases hy
  native h := by cases (Renaming.content?_empty h).2

theorem write (hs : s.Whole) (hw : s.Writes s' x a) (hs' : s'.WellFormed)
    (ha : a ≠ .cell .absent) (hm : ∀ y, a.Mentions y → s.Present y)
    (hn : ∀ fn, a = .cell (.function fn) → fn.Native) : s'.Whole where
  wellFormed := hs'
  refers := by
    intro z y ⟨b, hb, hy⟩
    suffices h : s.Present y from h.writes hw ha
    by_cases hz : z = x
    · rw [hz, hw.here] at hb
      cases hb
      exact hm y hy
    · exact hs.refers ⟨b, (hw.others z hz).symm.trans hb, hy⟩
  native {z fn} h := by
    by_cases hz : z = x
    · rw [hz, hw.here] at h
      exact hn fn (Option.some.inj h)
    · exact hs.native ((hw.others z hz).symm.trans h)

theorem addCell (hs : s.Whole) {x : Cell} (hx : x ≠ .absent)
    (hm : ∀ y, (Content.cell x).Mentions y → s.Present y)
    (hn : ∀ fn, x = .function fn → fn.Native) : (s.addCell x).2.Whole := by
  refine hs.write (writes_addCell s x) (hs.wellFormed.addCell ?_) (by simpa using hx) hm ?_
  · intro i hi
    subst hi
    exact cell_lt_of_content? (hm _ (.inner i)).content?
  · exact fun fn h ↦ hn fn (Content.cell.inj h)

theorem addHandle (hs : s.Whole) {o : Option NodeId}
    (ho : ∀ n, o = some n → s.Present (.node n)) : (s.addHandle o).2.Whole := by
  refine hs.write (writes_addHandle s o) (hs.wellFormed.addHandle ?_) nofun ?_ nofun
  · intro n hn
    exact node_lt_of_content? (ho n hn).content?
  · intro y hy
    cases hy
    exact ho _ rfl

theorem addNode (hs : s.Whole) {v : CellId} (hv : s.Present (.cell v)) : (s.addNode v).Whole := by
  refine hs.write (writes_addNode s v) (hs.wellFormed.addNode v) nofun ?_ nofun
  intro y hy
  cases hy
  exact hv

theorem push (hs : s.Whole) {h : HandleId} {v : CellId} (hh : s.Present (.handle h))
    (hv : s.Present (.cell v)) : (s.push h v).Whole := by
  have hnode := hs.addNode hv
  have hnew : (s.addNode v).Present (.node s.nodes.size) := ⟨_, (writes_addNode s v).here, nofun⟩
  have hwf := hs.wellFormed.push h v
  cases hlast : (s.chain h).getLast? with
  | none =>
    have hw := writes_push_nil (Present.handle_iff.1 hh) (List.getLast?_eq_none_iff.1 hlast) v
    refine hnode.write hw hwf nofun ?_ nofun
    intro y hy
    cases hy
    exact hnew
  | some n =>
    obtain ⟨node, hread⟩ := exists_node_of_mem_chain (List.mem_of_getLast? hlast)
    have hvalue : s.Present (.cell node.value) :=
      hs.refers ⟨_, content?_of_node hread, .value _ _⟩
    refine hnode.write (writes_push_tail hlast hread v) hwf nofun ?_ nofun
    intro y hy
    cases hy with
    | value => exact hvalue.writes (writes_addNode s v) nofun
    | next => exact hnew

theorem addScope (hs : s.Whole) {o : Option ScopeId}
    (ho : ∀ e, o = some e → s.Present (.scope e)) : (s.addScope o).2.Whole := by
  refine hs.write (writes_addScope s o) (hs.wellFormed.addScope ?_) nofun ?_ nofun
  · intro e he
    exact scope_lt_of_content? (ho e he).content?
  · intro y hy
    cases hy with
    | bound _ hp => cases hp
    | outer => exact ho _ rfl

theorem define (hs : s.Whole) {e : ScopeId} {v : CellId} (n : Text) (he : s.Present (.scope e))
    (hv : s.Present (.cell v)) : (s.define e n v).Whole := by
  obtain ⟨⟨bindings, outer⟩, hread⟩ : ∃ x, s.scopes[e]? = some x :=
    ⟨_, Array.getElem?_eq_getElem (Present.scope_iff.1 he)⟩
  have hcontent := content?_of_scope hread
  refine hs.write (writes_define hread n v) (hs.wellFormed.define e n v) nofun ?_ nofun
  intro y hy
  cases hy with
  | bound _ hp =>
    rcases mem_bind hp with hnew | hold
    · exact hnew ▸ hv
    · exact hs.refers ⟨_, hcontent, .bound _ hold⟩
  | outer => exact hs.refers ⟨_, hcontent, .outer _ _⟩

theorem item (hs : s.Whole) {h : HandleId} {i : CellId} (hi : i ∈ s.items h) :
    s.Present (.cell i) := by
  obtain ⟨n, hn, rfl⟩ := List.mem_map.1 hi
  obtain ⟨node, hread⟩ := exists_node_of_mem_chain hn
  refine hs.refers ⟨_, content?_of_node hread, ?_⟩
  rw [nodeValue, hread]
  exact .value _ _

theorem quoted (hs : s.Whole) {c i : CellId} (hc : s.cell c = .quoted i) :
    s.Present (.cell i) :=
  hs.refers ⟨_, content?_of_cell hc nofun, .inner i⟩

theorem handle (hs : s.Whole) {c : CellId} {h : HandleId} (hc : s.cell c = .list h) :
    s.Present (.handle h) :=
  hs.refers ⟨_, content?_of_cell hc nofun, .items h⟩

theorem lookup (hs : s.Whole) {e : ScopeId} {n : Text} {v : CellId}
    (h : s.lookup? e n = some v) : s.Present (.cell v) := by
  obtain ⟨e', scope, hscope, hmem⟩ := exists_of_lookup? h
  exact hs.refers ⟨_, content?_of_scope hscope, .bound (p := (n, v)) _ hmem⟩

theorem split (hs : s.Whole) {h : HandleId} {v : CellId} {o : Option NodeId}
    (hsplit : s.split? h = some (v, o)) :
    s.Present (.cell v) ∧ ∀ n, o = some n → s.Present (.node n) := by
  obtain ⟨first, rest, hchain, rfl, rfl⟩ := chain_of_split? hsplit
  refine ⟨hs.item (List.mem_map_of_mem (hchain ▸ List.mem_cons_self)), ?_⟩
  intro n hn
  have hmem : n ∈ s.chain h := hchain ▸ List.mem_cons_of_mem _ (List.mem_of_head? hn)
  obtain ⟨node, hread⟩ := exists_node_of_mem_chain hmem
  exact ⟨_, content?_of_node hread, nofun⟩

theorem callable (hs : s.Whole) {f : CellId} {fn : FunctionValue}
    (hf : s.cell f = .function fn) :
    fn.Callable (fun c ↦ s.Present (.cell c)) fun e ↦ s.Present (.scope e) := by
  have hcontent := content?_of_cell hf nofun
  have hnative := hs.native hcontent
  obtain ⟨name, kind, executor⟩ := fn
  cases executor with
  | operator op =>
    cases op with
    | builtin | form => exact hnative
    | host => exact False.elim hnative
  | closure captured params body =>
    exact ⟨hnative.1, hs.refers ⟨_, hcontent, .captured _ _ _ _ _⟩,
      hs.refers ⟨_, hcontent, .body _ _ _ _ _⟩⟩

end Whole

theorem Built.whole (h : s.Built) : s.Whole := by
  induction h with
  | empty => exact .empty
  | addCell _ value parts native ih => exact ih.addCell value parts native
  | addHandle _ first ih => exact ih.addHandle first
  | push _ list value ih => exact ih.push list value
  | addScope _ outer ih => exact ih.addScope outer
  | define _ n scope value ih => exact ih.define n scope value

theorem present_addCell {x : Cell} (hx : x ≠ .absent) :
    (s.addCell x).2.Present (.cell (s.addCell x).1) := by
  have hcell : (s.addCell x).2.cell (s.addCell x).1 = x := cell_addCell x s
  rwa [Present.cell_iff, hcell]

theorem native_of_mem_rootFunctions {fn : FunctionValue} (h : fn ∈ rootFunctions) :
    fn.Native ∧ ∃ op, fn.executor = .operator op := by
  rcases List.mem_append.1 h with h | h
  all_goals obtain ⟨op, -, rfl⟩ := List.mem_map.1 h
  · exact ⟨rfl, _, rfl⟩
  · exact ⟨by cases op <;> nofun, _, rfl⟩

namespace Built

variable (hs : s.Built)
include hs

theorem addListFrom {o : Option NodeId} (ho : ∀ n, o = some n → s.Present (.node n)) :
    (s.addListFrom o).2.Built := by
  refine (hs.addHandle ho).addCell nofun ?_ nofun
  intro y hy
  cases hy
  exact ⟨_, (writes_addHandle s o).here, nofun⟩

theorem pushAll {h : HandleId} {vs : List CellId} (hh : s.Present (.handle h))
    (hv : ∀ v ∈ vs, s.Present (.cell v)) : (vs.foldl (fun s v ↦ s.push h v) s).Built := by
  induction vs generalizing s with
  | nil => exact hs
  | cons v vs ih =>
    have hpush := hs.push hh (hv v List.mem_cons_self)
    refine ih hpush ?_ ?_
    · rwa [Present.handle_iff, push_handles_size, ← Present.handle_iff]
    · intro w hw
      exact (hv w (List.mem_cons_of_mem v hw)).cell_extends (extends_push h v s)

theorem addList {vs : List CellId} (hv : ∀ v ∈ vs, s.Present (.cell v)) :
    (s.addList vs).2.Built ∧ (s.addList vs).2.Present (.cell (s.addList vs).1) := by
  have hnil : (s.addList []).2.Built := hs.addListFrom nofun
  have happend := addList_append [] vs s
  rw [List.nil_append] at happend
  refine ⟨?_, ?_⟩
  · rw [happend]
    refine hnil.pushAll ?_ ?_
    · rw [Present.handle_iff, addList_handles, Array.size_push]
      exact Nat.lt_succ_self _
    · intro v hmem
      exact (hv v hmem).cell_extends (appends_addList [] s).toExtends
  · rw [Present.cell_iff, addList_fst, cell, addList_cells, Array.getElem?_push, if_pos rfl]
    exact Cell.noConfusion

theorem loadItems {ds : List Datum} (hds : ∀ d ∈ ds, d.Storable)
    (h : ∀ d ∈ ds, ∀ {s : Store}, s.Built →
      (load d s).2.Built ∧ (load d s).2.Present (.cell (load d s).1)) :
    (loadItems ds s).2.Built ∧
      ∀ c ∈ (loadItems ds s).1, (loadItems ds s).2.Present (.cell c) := by
  induction ds generalizing s with
  | nil => exact ⟨hs, nofun⟩
  | cons d ds ih =>
    have hds' := fun d' hd ↦ hds d' (List.mem_cons_of_mem d hd)
    obtain ⟨hload, hcell⟩ := h d List.mem_cons_self hs
    obtain ⟨hloads, hcells⟩ := ih hload hds' fun d' hd ↦ h d' (List.mem_cons_of_mem d hd)
    have hgrows := (Datum.allStored_loadItems (fun d' hd ↦ Datum.storesWell (hds' d' hd))
      (load d s).2).1.toExtends
    exact ⟨hloads, List.forall_mem_cons.2 ⟨hcell.cell_extends hgrows, hcells⟩⟩

theorem load {d : Datum} (hd : d.Storable) :
    (load d s).2.Built ∧ (load d s).2.Present (.cell (load d s).1) := by
  induction d using Datum.induction generalizing s with
  | atom | number | str | bool => exact ⟨hs.addCell nofun nofun nofun, present_addCell nofun⟩
  | quoted inner ih =>
    obtain ⟨hload, hcell⟩ := ih hs hd
    refine ⟨hload.addCell nofun ?_ nofun, present_addCell nofun⟩
    intro y hy
    cases hy
    exact hcell
  | list items ih =>
    have hitems := Datum.allStorable_iff.1 hd
    obtain ⟨hload, hcells⟩ := hs.loadItems hitems fun d hmem _ hs ↦ ih d hmem hs (hitems d hmem)
    exact hload.addList hcells
  | mark => cases hd

theorem addOperators {e : ScopeId} (he : s.Present (.scope e)) {fns : List FunctionValue}
    (hf : ∀ fn ∈ fns, fn.Native ∧ ∃ op, fn.executor = .operator op) :
    (fns.foldl (addOperator e) s).Built ∧ s.Extends (fns.foldl (addOperator e) s) := by
  induction fns generalizing s with
  | nil => exact ⟨hs, .refl s⟩
  | cons fn fns ih =>
    obtain ⟨hnative, op, hop⟩ := hf fn List.mem_cons_self
    have hcell : (s.addCell (.function fn)).2.Built := by
      refine hs.addCell nofun ?_ ?_
      · intro y hy
        cases hy <;> cases hop
      · intro fn' h
        cases h
        exact hnative
    have hgrows := (appends_addCell (.function fn) s).toExtends
    have hdefine := hcell.define fn.name (he.scope_extends hgrows) (present_addCell nofun)
    have hgrows' := hgrows.trans (extends_define e fn.name s.cells.size _)
    obtain ⟨hrest, hgrowsRest⟩ := ih hdefine (he.scope_extends hgrows')
      fun fn' h ↦ hf fn' (List.mem_cons_of_mem fn h)
    exact ⟨hrest, hgrows'.trans hgrowsRest⟩

theorem addRoot : s.addRoot.2.Built ∧ s.addRoot.2.Present (.scope s.addRoot.1) := by
  have hscope := hs.addScope (o := none) nofun
  have hroot : (s.addScope none).2.Present (.scope s.scopes.size) :=
    ⟨_, (writes_addScope s none).here, nofun⟩
  obtain ⟨hbuilt, hgrows⟩ := hscope.addOperators hroot fun _ ↦ native_of_mem_rootFunctions
  exact ⟨hbuilt, hroot.scope_extends hgrows⟩

end Built

end Store

end LittleLisp
