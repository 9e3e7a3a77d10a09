import LittleLisp.Proofs.Renaming.Reading
import LittleLisp.Proofs.Store.Loading

namespace LittleLisp

namespace Store

variable (s : Store)

section New

variable {s}

theorem content?_new_cell : s.content? (.cell s.cells.size) = none := by simp [content?]

theorem content?_new_handle : s.content? (.handle s.handles.size) = none := by simp [content?]

theorem content?_new_node : s.content? (.node s.nodes.size) = none := by simp [content?]

theorem content?_new_scope : s.content? (.scope s.scopes.size) = none := by simp [content?]

theorem cell_lt_of_content? {c : CellId} (h : s.content? (.cell c) ≠ none) : c < s.cells.size := by
  simpa [content?] using h

theorem node_lt_of_content? {n : NodeId} (h : s.content? (.node n) ≠ none) : n < s.nodes.size := by
  simpa [content?] using h

theorem scope_lt_of_content? {e : ScopeId} (h : s.content? (.scope e) ≠ none) :
    e < s.scopes.size := by
  simpa [content?] using h

end New

theorem writes_addCell (x : Cell) :
    s.Writes (s.addCell x).2 (.cell s.cells.size) (.cell x) where
  here := by simp [content?, addCell]
  others y hy := by
    cases y with
    | cell c =>
      have hc : c ≠ s.cells.size := fun h ↦ hy (h ▸ rfl)
      simp [content?, addCell, Array.getElem?_push, hc]
    | handle | node | scope => rfl

theorem writes_addHandle (o : Option NodeId) :
    s.Writes (s.addHandle o).2 (.handle s.handles.size) (.handle o) where
  here := by simp [content?, addHandle]
  others y hy := by
    cases y with
    | handle l =>
      have hl : l ≠ s.handles.size := fun h ↦ hy (h ▸ rfl)
      simp [content?, addHandle, Array.getElem?_push, hl]
    | cell | node | scope => rfl

/-- A node that no list leads to yet. -/
def addNode (v : CellId) : Store := { s with nodes := s.nodes.push ⟨v, none⟩ }

theorem writes_addNode (v : CellId) :
    s.Writes (s.addNode v) (.node s.nodes.size) (.node ⟨v, none⟩) where
  here := by simp [content?, addNode]
  others y hy := by
    cases y with
    | node n =>
      have hn : n ≠ s.nodes.size := fun h ↦ hy (h ▸ rfl)
      simp [content?, addNode, Array.getElem?_push, hn]
    | cell | handle | scope => rfl

theorem writes_addScope (outer : Option ScopeId) :
    s.Writes (s.addScope outer).2 (.scope s.scopes.size) (.scope ⟨[], outer⟩) where
  here := by simp [content?, addScope]
  others y hy := by
    cases y with
    | scope e =>
      have he : e ≠ s.scopes.size := fun h ↦ hy (h ▸ rfl)
      simp [content?, addScope, Array.getElem?_push, he]
    | cell | handle | node => rfl

variable {s}

theorem writes_define {e : ScopeId} {x : Scope} (hx : s.scopes[e]? = some x) (name : Text)
    (c : CellId) :
    s.Writes (s.define e name c) (.scope e) (.scope ⟨bind name c x.bindings, x.outer⟩) where
  here := by simp [content?, define, Array.getElem?_modify, hx]
  others y hy := by
    cases y with
    | scope d =>
      have hd : e ≠ d := fun h ↦ hy (h ▸ rfl)
      simp [content?, define, Array.getElem?_modify, hd]
    | cell | handle | node => rfl

theorem writes_push_nil {l : HandleId} (hl : l < s.handles.size) (hnil : s.chain l = [])
    (v : CellId) : (s.addNode v).Writes (s.push l v) (.handle l) (.handle (some s.nodes.size)) where
  here := by simp [content?, push_handles, hnil, hl]
  others y hy := by
    cases y with
    | handle k =>
      have hk : l ≠ k := fun h ↦ hy (h ▸ rfl)
      simp [content?, push_handles, hnil, addNode, hk]
    | node n => simp [content?, addNode, push, hnil]
    | cell | scope => simp [content?, addNode]

theorem writes_push_tail {l : HandleId} {n : NodeId} (hn : (s.chain l).getLast? = some n)
    {x : Node} (hx : s.nodes[n]? = some x) (v : CellId) :
    (s.addNode v).Writes (s.push l v) (.node n) (.node ⟨x.value, some s.nodes.size⟩) where
  here := by
    have hlt := (Array.getElem?_eq_some_iff.1 hx).1
    simp [content?, push_nodes _ _ _ hlt, hn, hx]
  others y hy := by
    cases y with
    | node k =>
      have hk : n ≠ k := fun h ↦ hy (h ▸ rfl)
      simp [content?, addNode, push, hn, Array.getElem?_modify, hk]
    | cell | handle | scope => simp [content?, addNode, push, hn]

theorem WellFormed.addNode (hs : s.WellFormed) (v : CellId) : (s.addNode v).WellFormed where
  linked := by
    refine ⟨fun {h n} hhead ↦ ?_, fun {n k x} hread hnext ↦ ?_, fun {n k x} hread hnext ↦ ?_⟩
    · have := hs.linked.head_lt (h := h) hhead
      simp only [Store.addNode, Array.size_push]
      omega
    all_goals
      simp only [Store.addNode, Array.getElem?_push] at hread
      split at hread
    · cases hread
      cases hnext
    · exact hs.linked.next_gt hread hnext
    · cases hread
      cases hnext
    · have := hs.linked.next_lt hread hnext
      simp only [Store.addNode, Array.size_push]
      omega
  quoted_lt := hs.quoted_lt
  outer_lt := hs.outer_lt

end Store

namespace Renaming

open Store

variable {R R' : Renaming} {s t : Store} {α β : Type}

def Alike (R : Renaming) (s t : Store) (p : α × Store) (p' : β × Store)
    (Q : Renaming → α → β → Prop) : Prop :=
  ∃ R', R.Advances R' s t p.2 p'.2 ∧ Q R' p.1 p'.1

theorem SameBindings.bind {l l' : List (Text × CellId)} (h : R.SameBindings l l') (name : Text)
    {c c' : CellId} (hc : R.cell c c') :
    R.SameBindings (LittleLisp.bind name c l) (LittleLisp.bind name c' l') := by
  induction h with
  | nil => exact .cons ⟨rfl, hc⟩ .nil
  | @cons p p' l l' hp hl ih =>
    obtain ⟨n, d⟩ := p
    obtain ⟨n', d'⟩ := p'
    obtain ⟨rfl, hd⟩ := hp
    simp only [LittleLisp.bind]
    split
    · exact .cons ⟨rfl, hc⟩ hl
    · exact .cons ⟨rfl, hd⟩ ih

namespace Matches

variable (hR : R.Matches s t)
include hR

theorem addCell {x y : Cell} (h : R.SameCell x y) :
    R.Alike s t (s.addCell x) (t.addCell y) Renaming.cell := by
  refine ⟨_, hR.add ?_ ?_ content?_new_cell content?_new_cell (writes_addCell s x)
    (writes_addCell t y) (.cell ((within_insert R _ _).sameCell h)), rel_insert R _ _⟩
  · refine hR.left.addCell ?_
    rintro i rfl
    cases h with
    | quoted inner => exact cell_lt_of_content? (hR.lt inner).1
  · refine hR.right.addCell ?_
    rintro i rfl
    cases h with
    | quoted inner => exact cell_lt_of_content? (hR.lt inner).2

theorem addHandle {o o' : Option NodeId} (h : R.SameLink o o') :
    R.Alike s t (s.addHandle o) (t.addHandle o') Renaming.handle := by
  refine ⟨_, hR.add ?_ ?_ content?_new_handle content?_new_handle (writes_addHandle s o)
    (writes_addHandle t o') (.handle ((within_insert R _ _).sameLink h)), rel_insert R _ _⟩
  · refine hR.left.addHandle ?_
    rintro n rfl
    cases h with
    | some hn => exact node_lt_of_content? (hR.lt hn).1
  · refine hR.right.addHandle ?_
    rintro n rfl
    cases h with
    | some hn => exact node_lt_of_content? (hR.lt hn).2

theorem addNode {v v' : CellId} (h : R.cell v v') :
    ∃ R', R.Advances R' s t (s.addNode v) (t.addNode v') ∧
      R'.node s.nodes.size t.nodes.size := by
  refine ⟨_, hR.add (hR.left.addNode v) (hR.right.addNode v') content?_new_node content?_new_node
    (writes_addNode s v) (writes_addNode t v') ?_, rel_insert R _ _⟩
  exact .node ((within_insert R _ _).rel h) .none

theorem captured_lt {e e' : ScopeId} (h : R.Captured e e') :
    e < s.scopes.size ∧ e' < t.scopes.size := by
  rcases h with h | h
  · exact ⟨scope_lt_of_content? (hR.lt h).1, scope_lt_of_content? (hR.lt h).2⟩
  · obtain ⟨o, hread, ho⟩ := hR.hidden h
    exact ⟨scope_lt_of_content? (by simp [hread]), scope_lt_of_content? (hR.lt ho).2⟩

theorem addScope {o o' : Option ScopeId} (h : Option.Rel R.Captured o o') :
    R.Alike s t (s.addScope o) (t.addScope o') Renaming.scope := by
  refine ⟨_, hR.add ?_ ?_ content?_new_scope content?_new_scope (writes_addScope s o)
    (writes_addScope t o') (.scope .nil ?_), rel_insert R _ _⟩
  · refine hR.left.addScope ?_
    rintro e rfl
    cases h with
    | some he => exact (hR.captured_lt he).1
  · refine hR.right.addScope ?_
    rintro e rfl
    cases h with
    | some he => exact (hR.captured_lt he).2
  · cases h with
    | some he => exact .some ((within_insert R _ _).captured he)
    | none => exact .none

theorem addChild {e e' : ScopeId} (h : R.scope e e') :
    ∃ R', R.Advances R' s t (s.addScope (some e)).2 t ∧ R'.hidden s.scopes.size e' := by
  have hs : (s.addScope (some e)).2.WellFormed := by
    refine hR.left.addScope ?_
    rintro o ⟨⟩
    exact (hR.captured_lt (.inl h)).1
  exact ⟨_, hR.addHidden hs content?_new_scope h (writes_addScope s _), .inr ⟨rfl, rfl⟩⟩

theorem define {e e' : ScopeId} (he : R.scope e e') (name : Text) {c c' : CellId}
    (hc : R.cell c c') : R.Advances R s t (s.define e name c) (t.define e' name c') := by
  obtain ⟨x, x', hx, hx', hbindings, houter⟩ := hR.scope he
  exact hR.set (hR.left.define e name c) (hR.right.define e' name c') he nofun nofun
    (writes_define hx name c) (writes_define hx' name c')
    (.scope (SameBindings.bind hbindings name hc) houter)

theorem defineAll {e e' : ScopeId} (he : R.scope e e') {l l' : List (Text × CellId)}
    (hl : R.SameBindings l l') :
    R.Advances R s t (l.foldl (fun s p ↦ s.define e p.1 p.2) s)
      (l'.foldl (fun s p ↦ s.define e' p.1 p.2) t) := by
  induction hl generalizing s t with
  | nil => exact hR.advances
  | @cons p p' l l' hp _ ih =>
    have hfirst := hR.define he p.1 hp.2
    rw [List.foldl_cons, List.foldl_cons, ← hp.1]
    exact hfirst.trans (ih hfirst.after)

theorem addFrame {e e' : ScopeId} (he : R.Captured e e') {l l' : List (Text × CellId)}
    (hl : R.SameBindings l l') :
    R.Alike s t (s.addFrame e l) (t.addFrame e' l') Renaming.scope := by
  obtain ⟨R₁, h₁, hscope⟩ := hR.addScope (.some he)
  exact ⟨R₁, h₁.trans (h₁.after.defineAll hscope (h₁.within.sameBindings hl)), hscope⟩

theorem push {l l' : HandleId} (hl : R.handle l l') {v v' : CellId} (hv : R.cell v v') :
    ∃ R', R.Advances R' s t (s.push l v) (t.push l' v') := by
  obtain ⟨R₁, h₁, hnode⟩ := hR.addNode hv
  have hset : ∀ {x y : Item} {a b : Content}, R₁.rel x y → (∀ c, x ≠ .cell c) →
      (∀ c, y ≠ .cell c) → (s.addNode v).Writes (s.push l v) x a →
      (t.addNode v').Writes (t.push l' v') y b → R₁.SameContent a b →
      R.Advances R₁ s t (s.push l v) (t.push l' v') := by
    intro x y a b hxy hx hy hws hwt hab
    exact h₁.trans
      (h₁.after.set (hR.left.push l v) (hR.right.push l' v') hxy hx hy hws hwt hab)
  have hlast := getLast?_of_forall₂ (hR.chain hl)
  refine ⟨R₁, ?_⟩
  cases hs : (s.chain l).getLast? with
  | none =>
    cases ht : (t.chain l').getLast? with
    | some => simp [hs, ht] at hlast
    | none =>
      have hlt := hR.lt hl
      exact hset (h₁.within.rel hl) nofun nofun
        (writes_push_nil (by simpa [content?] using hlt.1) (List.getLast?_eq_none_iff.1 hs) v)
        (writes_push_nil (by simpa [content?] using hlt.2) (List.getLast?_eq_none_iff.1 ht) v')
        (.handle (.some hnode))
  | some n =>
    cases ht : (t.chain l').getLast? with
    | none => simp [hs, ht] at hlast
    | some n' =>
      have hn : R.node n n' := by simpa [hs, ht] using hlast
      obtain ⟨x, x', hx, hx', hvalue, -⟩ := hR.node hn
      exact hset (h₁.within.rel hn) nofun nofun (writes_push_tail hs hx v)
        (writes_push_tail ht hx' v') (.node (h₁.within.rel hvalue) (.some hnode))

theorem pushAll {l l' : HandleId} (hl : R.handle l l') {vs vs' : List CellId}
    (h : R.SameCells vs vs') :
    ∃ R', R.Advances R' s t (vs.foldl (fun s v ↦ s.push l v) s)
      (vs'.foldl (fun s v ↦ s.push l' v) t) := by
  induction vs generalizing vs' R s t with
  | nil =>
    cases h
    exact ⟨R, hR.advances⟩
  | cons v vs ih =>
    cases h with
    | cons hv hvs =>
      obtain ⟨R₁, h₁⟩ := hR.push hl hv
      obtain ⟨R₂, h₂⟩ := ih h₁.after (h₁.within.rel hl) (h₁.within.sameCells hvs)
      exact ⟨R₂, h₁.trans h₂⟩

theorem addListFrom {o o' : Option NodeId} (h : R.SameLink o o') :
    ∃ R', R.Advances R' s t (s.addListFrom o).2 (t.addListFrom o').2 ∧
      R'.cell s.cells.size t.cells.size ∧ R'.handle s.handles.size t.handles.size := by
  obtain ⟨R₁, h₁, hhandle⟩ := hR.addHandle h
  obtain ⟨R₂, h₂, hcell⟩ := h₁.after.addCell (.list hhandle)
  exact ⟨R₂, h₁.trans h₂, hcell, h₂.within.rel hhandle⟩

theorem addList {vs vs' : List CellId} (h : R.SameCells vs vs') :
    R.Alike s t (s.addList vs) (t.addList vs') Renaming.cell := by
  obtain ⟨R₁, h₁, hcell, hhandle⟩ := hR.addListFrom .none
  obtain ⟨R₂, h₂⟩ := h₁.after.pushAll hhandle (h₁.within.sameCells h)
  refine ⟨R₂, ?_, ?_⟩
  · have hs := addList_append [] vs s
    have ht := addList_append [] vs' t
    rw [List.nil_append] at hs ht
    rw [hs, ht]
    exact h₁.trans h₂
  · rw [addList_fst, addList_fst]
    exact h₂.within.rel hcell

theorem loadItems {ds : List Datum}
    (h : ∀ d ∈ ds, ∀ {R : Renaming} {s t : Store}, R.Matches s t →
      R.Alike s t (Store.load d s) (Store.load d t) Renaming.cell) :
    R.Alike s t (Store.loadItems ds s) (Store.loadItems ds t) SameCells := by
  induction ds generalizing R s t with
  | nil => exact ⟨R, hR.advances, .nil⟩
  | cons d ds ih =>
    obtain ⟨R₁, h₁, hcell⟩ := h d List.mem_cons_self hR
    obtain ⟨R₂, h₂, hcells⟩ := ih h₁.after fun d' hd ↦ h d' (List.mem_cons_of_mem d hd)
    exact ⟨R₂, h₁.trans h₂, .cons (h₂.within.rel hcell) hcells⟩

theorem load {d : Datum} (hd : d.Storable) :
    R.Alike s t (Store.load d s) (Store.load d t) Renaming.cell := by
  induction d using Datum.induction generalizing R s t with
  | atom name => exact hR.addCell (.atom name)
  | number value => exact hR.addCell (.number value)
  | str text => exact hR.addCell (.str text)
  | bool flag => exact hR.addCell (.bool flag)
  | quoted inner ih =>
    rw [Datum.Storable] at hd
    obtain ⟨R₁, h₁, hcell⟩ := ih hR hd
    obtain ⟨R₂, h₂, hquoted⟩ := h₁.after.addCell (.quoted hcell)
    exact ⟨R₂, h₁.trans h₂, hquoted⟩
  | list items ih =>
    rw [Datum.Storable, Datum.allStorable_iff] at hd
    obtain ⟨R₁, h₁, hcells⟩ := hR.loadItems fun d hmem _ _ _ hR ↦ ih d hmem hR (hd d hmem)
    obtain ⟨R₂, h₂, hlist⟩ := h₁.after.addList hcells
    exact ⟨R₂, h₁.trans h₂, hlist⟩
  | mark => cases hd

theorem addOperators {e e' : ScopeId} (he : R.scope e e') {fns : List FunctionValue}
    (hfns : ∀ fn ∈ fns, ∃ op, fn.executor = .operator op) :
    ∃ R', R.Advances R' s t (fns.foldl (addOperator e) s) (fns.foldl (addOperator e') t) := by
  induction fns generalizing R s t with
  | nil => exact ⟨R, hR.advances⟩
  | cons fn fns ih =>
    obtain ⟨⟨name, kind, executor⟩, rfl⟩ : ∃ f, f = fn := ⟨fn, rfl⟩
    obtain ⟨op, rfl⟩ := hfns _ List.mem_cons_self
    obtain ⟨R₁, h₁, hcell⟩ := hR.addCell (.function (.operator name kind op))
    have h₂ := h₁.after.define (h₁.within.rel he) name hcell
    obtain ⟨R₃, h₃⟩ := ih h₂.after (h₁.within.rel he) fun fn h ↦ hfns fn (List.mem_cons_of_mem _ h)
    exact ⟨R₃, (h₁.trans h₂).trans h₃⟩

theorem addRoot : R.Alike s t s.addRoot t.addRoot Renaming.scope := by
  obtain ⟨R₁, h₁, hscope⟩ := hR.addScope .none
  have hfns : ∀ fn ∈ rootFunctions, ∃ op, fn.executor = .operator op := by
    simp only [rootFunctions, List.mem_append, List.mem_map]
    rintro fn (⟨op, -, rfl⟩ | ⟨op, -, rfl⟩)
    · exact ⟨.builtin op, rfl⟩
    · exact ⟨.form op, rfl⟩
  obtain ⟨R₂, h₂⟩ := h₁.after.addOperators hscope hfns
  exact ⟨R₂, h₁.trans h₂, h₂.within.rel hscope⟩

end Matches

end Renaming

end LittleLisp
