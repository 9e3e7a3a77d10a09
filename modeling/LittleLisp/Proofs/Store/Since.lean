import LittleLisp.Proofs.Store.Built

/-!
What has come to be since an earlier store. If every operation since then had operands that are new
as well, then nothing new refers to anything old, so whatever can be reached from something new is
new. Among the new scopes one has no scope around it, the first, and every other leads to it.
-/

namespace LittleLisp.Store

variable {b s s' : Store} {x y : Item} {a : Content}

/-- Nothing that `s` has beyond `b` refers to what `b` has, and of its scopes beyond `b` only the
first has no scope around it. -/
structure Since (b s : Store) : Prop where
  kept : ∀ {x : Item}, b.content? x ≠ none → s.content? x ≠ none
  inward : ∀ {x y : Item}, b.content? x = none → s.Refers x y → b.content? y = none
  outermost : ∀ {e : Nat} {x : Scope}, b.content? (.scope e) = none →
    s.content? (.scope e) = some (.scope x) → x.outer = none → e = b.scopes.size

structure New (b s : Store) (x : Item) : Prop where
  present : s.Present x
  unknown : b.content? x = none

def Outer (s : Store) (e o : ScopeId) : Prop :=
  ∃ x : Scope, s.scopes[e]? = some x ∧ x.outer = some o

theorem exists_scope_of_lookup? {e : ScopeId} {n : Text} {v : CellId}
    (h : s.lookup? e n = some v) : ∃ x, s.scopes[e]? = some x := by
  cases hread : s.scopes[e]? with
  | some x => exact ⟨x, rfl⟩
  | none =>
    have hnil : s.scopeChain e = [] := by
      rw [scopeChain]
      cases s.scopes.size with
      | zero => rfl
      | succ k => simp only [scopeChainFrom, hread]
    rw [lookup?, hnil] at h
    cases h

namespace Since

theorem refl (b : Store) : Since b b where
  kept := id
  inward hx hr := by
    obtain ⟨a, ha, -⟩ := hr
    rw [hx] at ha
    cases ha
  outermost he hread := by
    rw [he] at hread
    cases hread

theorem unknown (h : Since b s) (hx : s.content? x = none) : b.content? x = none :=
  Classical.byContradiction fun hne ↦ h.kept hne hx

theorem write (h : Since b s) (hw : s.Writes s' x a)
    (hm : b.content? x = none → ∀ y, a.Mentions y → b.content? y = none)
    (ho : ∀ e scope, x = .scope e → a = .scope scope → scope.outer = none →
      b.content? x = none → e = b.scopes.size) : Since b s' where
  kept hy := hw.isSome (h.kept hy)
  inward {z y} hz hr := by
    obtain ⟨c, hc, hy⟩ := hr
    by_cases hzx : z = x
    · subst hzx
      cases hw.here.symm.trans hc
      exact hm hz y hy
    · exact h.inward hz ⟨c, (hw.others z hzx).symm.trans hc, hy⟩
  outermost {e y} he hread hnone := by
    by_cases hex : Item.scope e = x
    · rw [hex] at hread he
      exact ho e y hex.symm (Option.some.inj (hw.here.symm.trans hread)) hnone he
    · exact h.outermost he ((hw.others _ hex).symm.trans hread) hnone

theorem addCell (h : Since b s) {x : Cell}
    (hm : ∀ y, (Content.cell x).Mentions y → b.content? y = none) : Since b (s.addCell x).2 :=
  h.write (writes_addCell s x) (fun _ ↦ hm) nofun

theorem addHandle (h : Since b s) {o : Option NodeId}
    (ho : ∀ n, o = some n → b.content? (.node n) = none) : Since b (s.addHandle o).2 := by
  refine h.write (writes_addHandle s o) (fun _ y hy ↦ ?_) nofun
  cases hy
  exact ho _ rfl

theorem push (h : Since b s) {l : HandleId} {v : CellId} (hl : s.Present (.handle l))
    (hv : b.content? (.cell v) = none) : Since b (s.push l v) := by
  have hnode : Since b (s.addNode v) := by
    refine h.write (writes_addNode s v) (fun _ y hy ↦ ?_) nofun
    cases hy
    exact hv
  have hnew : b.content? (.node s.nodes.size) = none := h.unknown content?_new_node
  cases hlast : (s.chain l).getLast? with
  | none =>
    have hw := writes_push_nil (Present.handle_iff.1 hl) (List.getLast?_eq_none_iff.1 hlast) v
    refine hnode.write hw (fun _ y hy ↦ ?_) nofun
    cases hy
    exact hnew
  | some n =>
    obtain ⟨⟨w, next⟩, hread⟩ := exists_node_of_mem_chain (List.mem_of_getLast? hlast)
    refine hnode.write (writes_push_tail hlast hread v) (fun hn y hy ↦ ?_) nofun
    cases hy with
    | value => exact h.inward hn ⟨_, content?_of_node hread, .value w next⟩
    | next => exact hnew

theorem addScope (h : Since b s) {o : Option ScopeId}
    (hm : ∀ e, o = some e → b.content? (.scope e) = none)
    (ho : o = none → s.scopes.size = b.scopes.size) : Since b (s.addScope o).2 := by
  refine h.write (writes_addScope s o) (fun _ y hy ↦ ?_) ?_
  · cases hy with
    | bound _ hp => cases hp
    | outer => exact hm _ rfl
  · intro e scope he hscope hnone _
    cases he
    cases hscope
    exact ho hnone

theorem define (h : Since b s) {e : ScopeId} {v : CellId} (n : Text) (he : s.Present (.scope e))
    (hv : b.content? (.cell v) = none) : Since b (s.define e n v) := by
  obtain ⟨⟨bindings, outer⟩, hread⟩ : ∃ x, s.scopes[e]? = some x :=
    ⟨_, Array.getElem?_eq_getElem (Present.scope_iff.1 he)⟩
  have hcontent := content?_of_scope hread
  refine h.write (writes_define hread n v) (fun hx y hy ↦ ?_) ?_
  · cases hy with
    | bound _ hp =>
      rcases mem_bind hp with hnew | hold
      · exact hnew ▸ hv
      · exact h.inward hx ⟨_, hcontent, .bound _ hold⟩
    | outer => exact h.inward hx ⟨_, hcontent, .outer _ _⟩
  · intro e' scope he' hscope hnone hx
    cases he'
    cases hscope
    exact h.outermost hx hcontent hnone

section Reading

variable (h : Since b s)
include h

theorem reachable (hx : b.content? x = none) (hr : Relation.ReflTransGen s.Refers x y) :
    b.content? y = none := by
  induction hr with
  | refl => exact hx
  | tail _ step ih => exact h.inward ih step

theorem links {o : Option NodeId} {ns : List NodeId} (hl : Links s o ns)
    (ho : ∀ n, o = some n → b.content? (.node n) = none) :
    ∀ n ∈ ns, b.content? (.node n) = none := by
  induction hl with
  | nil => nofun
  | @cons n node ns read rest ih =>
    obtain ⟨v, next⟩ := node
    have hn := ho n rfl
    refine List.forall_mem_cons.2 ⟨hn, ih fun k hk ↦ ?_⟩
    cases hk
    exact h.inward hn ⟨_, content?_of_node read, .next v k⟩

theorem chain (hs : s.WellLinked) {l : HandleId} (hl : b.content? (.handle l) = none) :
    ∀ n ∈ s.chain l, b.content? (.node n) = none := by
  refine h.links (hs.links_chain l) fun n hn ↦ ?_
  have hread : s.handles[l]? = some (some n) := Option.join_eq_some_iff.1 hn
  refine h.inward hl ⟨.handle (some n), ?_, .first n⟩
  rw [content?, hread]
  rfl

theorem item (hs : s.WellLinked) {l : HandleId} (hl : b.content? (.handle l) = none) {i : CellId}
    (hi : i ∈ s.items l) : b.content? (.cell i) = none := by
  obtain ⟨n, hn, rfl⟩ := List.mem_map.1 hi
  obtain ⟨⟨v, next⟩, hread⟩ := exists_node_of_mem_chain hn
  have hvalue : s.nodeValue n = v := by rw [nodeValue, hread]
  rw [hvalue]
  exact h.inward (h.chain hs hl n hn) ⟨_, content?_of_node hread, .value v next⟩

theorem handle {c : CellId} {l : HandleId} (hc : b.content? (.cell c) = none)
    (hcell : s.cell c = .list l) : b.content? (.handle l) = none :=
  h.inward hc ⟨_, content?_of_cell hcell nofun, .items l⟩

theorem lookup (hs : s.WellFormed) {e : Nat} {n : Text} {v : CellId}
    (he : b.content? (.scope e) = none) (hv : s.lookup? e n = some v) :
    b.content? (.cell v) = none := by
  induction e using Nat.strongRecOn with
  | ind e ih =>
    obtain ⟨⟨bindings, outer⟩, hread⟩ := exists_scope_of_lookup? hv
    have hcontent := content?_of_scope hread
    rw [lookup?_eq hs hread] at hv
    cases hbound : bindings.lookup n with
    | some w =>
      rw [hbound] at hv
      cases hv
      obtain ⟨before, after, hb, -⟩ := List.lookup_eq_some_iff.1 hbound
      have hmem : (n, v) ∈ bindings := by simp [hb]
      exact h.inward he ⟨_, hcontent, .bound outer hmem⟩
    | none =>
      rw [hbound] at hv
      cases outer with
      | none => cases hv
      | some o =>
        have ho : b.content? (.scope o) = none := h.inward he ⟨_, hcontent, .outer _ o⟩
        exact ih o (hs.outer_lt hread rfl) ho hv

/-- From a new scope the scopes around it lead to the first new one, and there they end. -/
theorem scopeChain (hs : s.WellFormed) {e : Nat} (he : b.content? (.scope e) = none)
    (hlt : e < s.scopes.size) :
    ∃ x, s.scopes[b.scopes.size]? = some x ∧ x.outer = none ∧
      (s.scopeChain e).getLast? = some (b.scopes.size, x) ∧
      Relation.ReflTransGen s.Outer e b.scopes.size := by
  induction e using Nat.strongRecOn with
  | ind e ih =>
    have hread : s.scopes[e]? = some s.scopes[e] := Array.getElem?_eq_getElem hlt
    have hcontent := content?_of_scope hread
    rw [scopeChain_eq hs hread]
    cases houter : s.scopes[e].outer with
    | none =>
      have hroot := h.outermost he hcontent houter
      rw [← hroot]
      exact ⟨_, hread, houter, rfl, .refl⟩
    | some o =>
      have ho : b.content? (.scope o) = none := by
        refine h.inward he ⟨_, hcontent, ?_⟩
        generalize s.scopes[e] = x at houter
        obtain ⟨bindings, outer⟩ := x
        cases houter
        exact .outer bindings o
      have holt := hs.outer_lt hread houter
      obtain ⟨x, hx, hnone, hlast, hpath⟩ := ih o holt ho (by omega)
      refine ⟨x, hx, hnone, ?_, .head ⟨_, hread, houter⟩ hpath⟩
      have hcons : Option.elim (some o) [] s.scopeChain = s.scopeChain o := rfl
      rw [hcons, List.getLast?_cons, hlast]
      rfl

end Reading

section Building

variable (h : Since b s)
include h

theorem addListFrom {o : Option NodeId} (ho : ∀ n, o = some n → b.content? (.node n) = none) :
    Since b (s.addListFrom o).2 := by
  refine (h.addHandle ho).addCell fun y hy ↦ ?_
  cases hy
  exact h.unknown content?_new_handle

theorem pushAll {l : HandleId} {vs : List CellId} (hl : s.Present (.handle l))
    (hv : ∀ v ∈ vs, b.content? (.cell v) = none) :
    Since b (vs.foldl (fun s v ↦ s.push l v) s) := by
  induction vs generalizing s with
  | nil => exact h
  | cons v vs ih =>
    refine ih (h.push hl (hv v List.mem_cons_self)) ?_ fun w hw ↦ hv w (List.mem_cons_of_mem v hw)
    rwa [Present.handle_iff, push_handles_size, ← Present.handle_iff]

theorem addList {vs : List CellId} (hv : ∀ v ∈ vs, b.content? (.cell v) = none) :
    Since b (s.addList vs).2 ∧ b.content? (.cell (s.addList vs).1) = none := by
  have happend := addList_append [] vs s
  rw [List.nil_append] at happend
  refine ⟨?_, ?_⟩
  · have hnil : Since b (s.addList []).2 := h.addListFrom nofun
    rw [happend]
    refine hnil.pushAll ?_ hv
    rw [Present.handle_iff, addList_handles, Array.size_push]
    exact Nat.lt_succ_self _
  · rw [addList_fst]
    exact h.unknown content?_new_cell

theorem loadItems {ds : List Datum} (hds : ∀ d ∈ ds, d.Storable)
    (hload : ∀ d ∈ ds, ∀ {s : Store}, Since b s → d.Storable →
      Since b (load d s).2 ∧ b.content? (.cell (load d s).1) = none) :
    Since b (loadItems ds s).2 ∧ ∀ c ∈ (loadItems ds s).1, b.content? (.cell c) = none := by
  induction ds generalizing s with
  | nil => exact ⟨h, nofun⟩
  | cons d ds ih =>
    obtain ⟨hd, hcell⟩ := hload d List.mem_cons_self h (hds d List.mem_cons_self)
    obtain ⟨hrest, hcells⟩ := ih hd (fun d' hd ↦ hds d' (List.mem_cons_of_mem d hd))
      fun d' hd ↦ hload d' (List.mem_cons_of_mem d hd)
    exact ⟨hrest, List.forall_mem_cons.2 ⟨hcell, hcells⟩⟩

theorem load {d : Datum} (hd : d.Storable) :
    Since b (load d s).2 ∧ b.content? (.cell (load d s).1) = none := by
  induction d using Datum.induction generalizing s with
  | atom | number | str | bool => exact ⟨h.addCell nofun, h.unknown content?_new_cell⟩
  | quoted inner ih =>
    obtain ⟨hload, hcell⟩ := ih h hd
    refine ⟨hload.addCell fun y hy ↦ ?_, hload.unknown content?_new_cell⟩
    cases hy
    exact hcell
  | list items ih =>
    obtain ⟨hload, hcells⟩ :=
      h.loadItems (Datum.allStorable_iff.1 hd) fun d hmem _ hs ↦ ih d hmem hs
    exact hload.addList hcells
  | mark => cases hd

theorem addOperators {e : ScopeId} (he : s.Present (.scope e)) {fns : List FunctionValue}
    (hf : ∀ fn ∈ fns, ∃ op, fn.executor = .operator op) :
    Since b (fns.foldl (addOperator e) s) := by
  induction fns generalizing s with
  | nil => exact h
  | cons fn fns ih =>
    obtain ⟨op, hop⟩ := hf fn List.mem_cons_self
    have hcell : Since b (s.addCell (.function fn)).2 := by
      refine h.addCell fun y hy ↦ ?_
      cases hy <;> cases hop
    have hgrows := (appends_addCell (.function fn) s).toExtends
    have hdefine := hcell.define fn.name (he.scope_extends hgrows) (h.unknown content?_new_cell)
    have hgrows' := hgrows.trans (extends_define e fn.name s.cells.size _)
    exact ih hdefine (he.scope_extends hgrows') fun fn' hfn ↦ hf fn' (List.mem_cons_of_mem fn hfn)

end Building

theorem addRoot (b : Store) : Since b b.addRoot.2 := by
  have hscope : Since b (b.addScope none).2 := (refl b).addScope nofun fun _ ↦ rfl
  have hroot : (b.addScope none).2.Present (.scope b.scopes.size) :=
    ⟨_, (writes_addScope b none).here, nofun⟩
  exact hscope.addOperators hroot fun fn hfn ↦ (native_of_mem_rootFunctions hfn).2

end Since

end LittleLisp.Store
