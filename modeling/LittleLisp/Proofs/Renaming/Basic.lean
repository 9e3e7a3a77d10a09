import LittleLisp.Proofs.Store.WellFormed
import Mathlib.Data.List.Forall2

/-!
Stores up to the names of what they hold. A renaming relates items of one store to items of
another; two stores match if related items hold the same, up to the renaming. A store may hold more
than the renaming speaks of. On the left there may also be hidden scopes, which bind nothing and
stand between a scope and its counterpart on the right.

Every operation on a store writes one item after the other. Writing the same to related items, or
to two new items that are then related, keeps stores matching and leaves all else as it was.
-/

namespace LittleLisp

inductive Item where
  | cell (c : CellId)
  | handle (h : HandleId)
  | node (n : NodeId)
  | scope (e : ScopeId)

inductive Content where
  | cell (x : Cell)
  | handle (first : Option NodeId)
  | node (x : Node)
  | scope (x : Scope)

namespace Store

variable {s s' : Store}

def content? (s : Store) : Item → Option Content
  | .cell c => s.cells[c]?.map .cell
  | .handle h => s.handles[h]?.map .handle
  | .node n => s.nodes[n]?.map .node
  | .scope e => s.scopes[e]?.map .scope

/-- After writing `a` to `x`, all other items hold what they held. -/
structure Writes (s s' : Store) (x : Item) (a : Content) : Prop where
  here : s'.content? x = some a
  others : ∀ y ≠ x, s'.content? y = s.content? y

theorem Writes.isSome {x y : Item} {a : Content} (h : s.Writes s' x a)
    (hy : s.content? y ≠ none) : s'.content? y ≠ none := by
  by_cases hxy : y = x
  · rw [hxy, h.here]
    exact Option.some_ne_none a
  · rwa [h.others y hxy]

theorem Writes.eq_of_new {x y : Item} {a : Content} (h : s.Writes s' x a)
    (hy : s'.content? y ≠ none) (hold : s.content? y = none) : y = x := by
  by_contra hxy
  rw [h.others y hxy] at hy
  exact hy hold

end Store

/-- Which items of a store stand for which items of another. -/
structure Renaming where
  rel : Item → Item → Prop
  /-- The scope on the left is empty and stands for the scope on the right. -/
  hidden : ScopeId → ScopeId → Prop

namespace Renaming

open Store

variable {R R' R'' : Renaming} {s t s' t' s'' t'' : Store} {x y : Item} {a b : Content}

abbrev cell (R : Renaming) (c c' : CellId) : Prop := R.rel (.cell c) (.cell c')

abbrev handle (R : Renaming) (h h' : HandleId) : Prop := R.rel (.handle h) (.handle h')

abbrev node (R : Renaming) (n n' : NodeId) : Prop := R.rel (.node n) (.node n')

abbrev scope (R : Renaming) (e e' : ScopeId) : Prop := R.rel (.scope e) (.scope e')

def Captured (R : Renaming) (e e' : ScopeId) : Prop := R.scope e e' ∨ R.hidden e e'

inductive SameFunction (R : Renaming) : FunctionValue → FunctionValue → Prop
  | operator (name : Text) (kind : Kind) (op : Operator) :
      SameFunction R ⟨name, kind, .operator op⟩ ⟨name, kind, .operator op⟩
  | closure (name : Text) (kind : Kind) (params : List Text) {e e' : ScopeId} {b b' : CellId}
      (captured : R.Captured e e') (body : R.cell b b') :
      SameFunction R ⟨name, kind, .closure e params b⟩ ⟨name, kind, .closure e' params b'⟩

inductive SameCell (R : Renaming) : Cell → Cell → Prop
  | absent : SameCell R .absent .absent
  | atom (name : Text) : SameCell R (.atom name) (.atom name)
  | number (value : Binary64) : SameCell R (.number value) (.number value)
  | str (text : Text) : SameCell R (.str text) (.str text)
  | bool (flag : Bool) : SameCell R (.bool flag) (.bool flag)
  | quoted {i i' : CellId} (inner : R.cell i i') :
      SameCell R (.quoted i) (.quoted i')
  | function {f f' : FunctionValue} (same : R.SameFunction f f') :
      SameCell R (.function f) (.function f')
  | list {h h' : HandleId} (items : R.handle h h') :
      SameCell R (.list h) (.list h')

abbrev SameLink (R : Renaming) : Option NodeId → Option NodeId → Prop :=
  Option.Rel R.node

abbrev SameCells (R : Renaming) : List CellId → List CellId → Prop :=
  List.Forall₂ R.cell

abbrev SameBindings (R : Renaming) : List (Text × CellId) → List (Text × CellId) → Prop :=
  List.Forall₂ fun p p' ↦ p.1 = p'.1 ∧ R.rel (.cell p.2) (.cell p'.2)

inductive SameContent (R : Renaming) : Content → Content → Prop
  | cell {x y : Cell} (same : R.SameCell x y) : SameContent R (.cell x) (.cell y)
  | handle {o o' : Option NodeId} (first : R.SameLink o o') :
      SameContent R (.handle o) (.handle o')
  | node {v v' : CellId} {o o' : Option NodeId} (value : R.cell v v')
      (next : R.SameLink o o') : SameContent R (.node ⟨v, o⟩) (.node ⟨v', o'⟩)
  | scope {l l' : List (Text × CellId)} {o o' : Option ScopeId} (bindings : R.SameBindings l l')
      (outer : Option.Rel R.Captured o o') : SameContent R (.scope ⟨l, o⟩) (.scope ⟨l', o'⟩)

structure Within (R R' : Renaming) : Prop where
  rel : ∀ {x y : Item}, R.rel x y → R'.rel x y
  hidden : ∀ {e e' : ScopeId}, R.hidden e e' → R'.hidden e e'

namespace Within

theorem refl (R : Renaming) : R.Within R := ⟨id, id⟩

theorem trans (h : R.Within R') (h' : R'.Within R'') : R.Within R'' :=
  ⟨h'.rel ∘ h.rel, h'.hidden ∘ h.hidden⟩

variable (hR : R.Within R')
include hR

theorem captured {e e' : ScopeId} (h : R.Captured e e') : R'.Captured e e' := h.imp hR.rel hR.hidden

theorem sameFunction {f f' : FunctionValue} (h : R.SameFunction f f') : R'.SameFunction f f' := by
  cases h with
  | operator name kind op => exact .operator name kind op
  | closure name kind params captured body =>
    exact .closure name kind params (hR.captured captured) (hR.rel body)

theorem sameCell {x y : Cell} (h : R.SameCell x y) : R'.SameCell x y := by
  cases h with
  | absent => exact .absent
  | atom name => exact .atom name
  | number value => exact .number value
  | str text => exact .str text
  | bool flag => exact .bool flag
  | quoted inner => exact .quoted (hR.rel inner)
  | function same => exact .function (hR.sameFunction same)
  | list items => exact .list (hR.rel items)

theorem sameLink {o o' : Option NodeId} (h : R.SameLink o o') : R'.SameLink o o' := by
  cases h with
  | some h => exact .some (hR.rel h)
  | none => exact .none

theorem sameCells {cs cs' : List CellId} (h : R.SameCells cs cs') : R'.SameCells cs cs' :=
  h.imp fun _ _ h ↦ hR.rel h

theorem sameBindings {l l' : List (Text × CellId)} (h : R.SameBindings l l') :
    R'.SameBindings l l' :=
  h.imp fun _ _ h ↦ ⟨h.1, hR.rel h.2⟩

theorem sameContent (h : R.SameContent a b) : R'.SameContent a b := by
  cases h with
  | cell same => exact .cell (hR.sameCell same)
  | handle first => exact .handle (hR.sameLink first)
  | node value next => exact .node (hR.rel value) (hR.sameLink next)
  | scope bindings outer =>
    refine .scope (hR.sameBindings bindings) ?_
    cases outer with
    | some h => exact .some (hR.captured h)
    | none => exact .none

end Within

/-- Related items hold the same. -/
structure Matches (R : Renaming) (s t : Store) : Prop where
  left : s.WellFormed
  right : t.WellFormed
  content : ∀ {x y : Item}, R.rel x y →
    ∃ a b, s.content? x = some a ∧ t.content? y = some b ∧ R.SameContent a b
  inj : ∀ {x y x' y' : Item}, R.rel x y → R.rel x' y' → (x = x' ↔ y = y')
  hidden : ∀ {e e' : ScopeId}, R.hidden e e' →
    ∃ o : ScopeId, s.content? (.scope e) = some (.scope ⟨[], some o⟩) ∧
      R.scope o e'
  apart : ∀ {e e' : ScopeId} {y : Item}, R.hidden e e' → ¬ R.rel (.scope e) y

/-- Whatever `D` does not speak of stays as it was, and so does every cell. -/
structure Frame (D : Item → Prop) (s s' : Store) : Prop where
  isSome : ∀ {x : Item}, s.content? x ≠ none → s'.content? x ≠ none
  kept : ∀ {x : Item}, s.content? x ≠ none → (D x → ∃ c, x = .cell c) →
    s'.content? x = s.content? x

/-- From two stores to two stores that match: items that are related stay so, only new items come
to be related, every new item is related to another or hidden, and what was not related is as it
was. -/
structure Advances (R R' : Renaming) (s t s' t' : Store) : Prop where
  after : R'.Matches s' t'
  within : R.Within R'
  fresh : ∀ {x y : Item}, R'.rel x y → R.rel x y ∨ s.content? x = none ∧ t.content? y = none
  freshHidden : ∀ {e e' : ScopeId}, R'.hidden e e' → R.hidden e e' ∨ s.content? (.scope e) = none
  left : Frame (fun x ↦ ∃ y, R.rel x y) s s'
  right : Frame (fun y ↦ ∃ x, R.rel x y) t t'
  coversLeft : ∀ {x : Item}, s'.content? x ≠ none → s.content? x = none →
    (∃ y, R'.rel x y) ∨ ∃ e e', x = .scope e ∧ R'.hidden e e'
  coversRight : ∀ {y : Item}, t'.content? y ≠ none → t.content? y = none → ∃ x, R'.rel x y

namespace Frame

variable {D D' : Item → Prop}

theorem refl (D : Item → Prop) (s : Store) : Frame D s s := ⟨id, fun _ _ ↦ rfl⟩

theorem trans (h : Frame D s s') (h' : Frame D' s' s'')
    (hD : ∀ x, s.content? x ≠ none → D' x → D x) : Frame D s s'' where
  isSome hx := h'.isSome (h.isSome hx)
  kept hx hc := by
    rw [h'.kept (h.isSome hx) fun hd ↦ hc (hD _ hx hd), h.kept hx hc]

theorem of_new (h : s.Writes s' x a) (hx : s.content? x = none) : Frame D s s' where
  isSome := h.isSome
  kept {y} hy _ := h.others y (by rintro rfl; exact hy hx)

theorem of_mem (h : s.Writes s' x a) (hx : D x) (hc : ∀ c, x ≠ .cell c) : Frame D s s' where
  isSome := h.isSome
  kept {y} hy hD := h.others y (by rintro rfl; exact (hD hx).elim hc)

end Frame

namespace Matches

theorem lt (h : R.Matches s t) (hxy : R.rel x y) : s.content? x ≠ none ∧ t.content? y ≠ none := by
  obtain ⟨a, b, ha, hb, -⟩ := h.content hxy
  rw [ha, hb]
  exact ⟨Option.some_ne_none a, Option.some_ne_none b⟩

theorem advances (h : R.Matches s t) : R.Advances R s t s t where
  after := h
  within := .refl R
  fresh := .inl
  freshHidden := .inl
  left := .refl _ s
  right := .refl _ t
  coversLeft h h' := absurd h' h
  coversRight h h' := absurd h' h

/-- Only what the renaming speaks of matters, on the left. -/
theorem congr_left (h : R.Matches s t) (hs : s'.WellFormed)
    (hrel : ∀ x y, R.rel x y → s'.content? x = s.content? x)
    (hhidden : ∀ e e', R.hidden e e' → s'.content? (.scope e) = s.content? (.scope e)) :
    R.Matches s' t where
  left := hs
  right := h.right
  content hxy := by
    rw [hrel _ _ hxy]
    exact h.content hxy
  inj := h.inj
  hidden he := by
    rw [hhidden _ _ he]
    exact h.hidden he
  apart := h.apart

end Matches

theorem Advances.trans (h : R.Advances R' s t s' t') (h' : R'.Advances R'' s' t' s'' t'') :
    R.Advances R'' s t s'' t'' where
  after := h'.after
  within := h.within.trans h'.within
  fresh hxy := by
    rcases h'.fresh hxy with hxy | ⟨hx, hy⟩
    · exact h.fresh hxy
    · refine .inr ⟨?_, ?_⟩ <;> by_contra hne
      · exact h.left.isSome hne hx
      · exact h.right.isSome hne hy
  freshHidden he := by
    rcases h'.freshHidden he with he | hnew
    · exact h.freshHidden he
    · refine .inr ?_
      by_contra hne
      exact h.left.isSome hne hnew
  left := by
    refine h.left.trans h'.left ?_
    rintro x hx ⟨y, hxy⟩
    exact ⟨y, (h.fresh hxy).resolve_right fun hnew ↦ hx hnew.1⟩
  right := by
    refine h.right.trans h'.right ?_
    rintro y hy ⟨x, hxy⟩
    exact ⟨x, (h.fresh hxy).resolve_right fun hnew ↦ hy hnew.2⟩
  coversLeft {x} hx hnew := by
    by_cases hmid : s'.content? x = none
    · exact h'.coversLeft hx hmid
    · refine (h.coversLeft hmid hnew).imp ?_ ?_
      · rintro ⟨y, hxy⟩
        exact ⟨y, h'.within.rel hxy⟩
      · rintro ⟨e, e', hxe, he⟩
        exact ⟨e, e', hxe, h'.within.hidden he⟩
  coversRight {y} hy hnew := by
    by_cases hmid : t'.content? y = none
    · exact h'.coversRight hy hmid
    · obtain ⟨x, hxy⟩ := h.coversRight hmid hnew
      exact ⟨x, h'.within.rel hxy⟩

def insert (R : Renaming) (x y : Item) : Renaming where
  rel x' y' := R.rel x' y' ∨ x' = x ∧ y' = y
  hidden := R.hidden

theorem within_insert (R : Renaming) (x y : Item) : R.Within (R.insert x y) := ⟨.inl, id⟩

theorem rel_insert (R : Renaming) (x y : Item) : (R.insert x y).rel x y := .inr ⟨rfl, rfl⟩

def hide (R : Renaming) (e e' : ScopeId) : Renaming where
  rel := R.rel
  hidden d d' := R.hidden d d' ∨ d = e ∧ d' = e'

theorem within_hide (R : Renaming) (e e' : ScopeId) : R.Within (R.hide e e') := ⟨id, .inl⟩

namespace Matches

theorem add (h : R.Matches s t) (hs : s'.WellFormed) (ht : t'.WellFormed)
    (hx : s.content? x = none) (hy : t.content? y = none) (hws : s.Writes s' x a)
    (hwt : t.Writes t' y b) (hab : (R.insert x y).SameContent a b) :
    R.Advances (R.insert x y) s t s' t' where
  after :=
    { left := hs
      right := ht
      content := by
        rintro x' y' (hxy | ⟨rfl, rfl⟩)
        · obtain ⟨a', b', ha, hb, hab'⟩ := h.content hxy
          obtain ⟨hax, hby⟩ := h.lt hxy
          rw [hws.others x' (by rintro rfl; exact hax hx),
            hwt.others y' (by rintro rfl; exact hby hy)]
          exact ⟨a', b', ha, hb, (within_insert R x y).sameContent hab'⟩
        · exact ⟨a, b, hws.here, hwt.here, hab⟩
      inj := by
        rintro x₁ y₁ x₂ y₂ (h₁ | ⟨rfl, rfl⟩) (h₂ | ⟨rfl, rfl⟩)
        · exact h.inj h₁ h₂
        · refine iff_of_false ?_ ?_ <;> rintro rfl
          · exact (h.lt h₁).1 hx
          · exact (h.lt h₁).2 hy
        · refine iff_of_false ?_ ?_ <;> rintro rfl
          · exact (h.lt h₂).1 hx
          · exact (h.lt h₂).2 hy
        · exact iff_of_true rfl rfl
      hidden := by
        intro e e' he
        obtain ⟨o, hread, ho⟩ := h.hidden he
        rw [hws.others (.scope e) (by rintro rfl; simp [hread] at hx)]
        exact ⟨o, hread, .inl ho⟩
      apart := by
        rintro e e' y' he (hrel | ⟨rfl, rfl⟩)
        · exact h.apart he hrel
        · obtain ⟨o, hread, -⟩ := h.hidden he
          simp [hread] at hx }
  within := within_insert R x y
  fresh := by
    rintro x' y' (hxy | ⟨rfl, rfl⟩)
    · exact .inl hxy
    · exact .inr ⟨hx, hy⟩
  freshHidden := .inl
  left := .of_new hws hx
  right := .of_new hwt hy
  coversLeft hx' hold := .inl ⟨y, .inr ⟨hws.eq_of_new hx' hold, rfl⟩⟩
  coversRight hy' hold := ⟨x, .inr ⟨rfl, hwt.eq_of_new hy' hold⟩⟩

theorem set (h : R.Matches s t) (hs : s'.WellFormed) (ht : t'.WellFormed) (hxy : R.rel x y)
    (hx : ∀ c, x ≠ .cell c) (hy : ∀ c, y ≠ .cell c) (hws : s.Writes s' x a)
    (hwt : t.Writes t' y b) (hab : R.SameContent a b) : R.Advances R s t s' t' where
  after :=
    { left := hs
      right := ht
      content := by
        intro x' y' hxy'
        by_cases hx' : x' = x
        · obtain rfl : y' = y := (h.inj hxy' hxy).1 hx'
          subst hx'
          exact ⟨a, b, hws.here, hwt.here, hab⟩
        · have hy' : y' ≠ y := fun hy' ↦ hx' ((h.inj hxy' hxy).2 hy')
          rw [hws.others x' hx', hwt.others y' hy']
          exact h.content hxy'
      inj := h.inj
      hidden := by
        intro e e' he
        rw [hws.others (.scope e) (by rintro rfl; exact h.apart he hxy)]
        exact h.hidden he
      apart := h.apart }
  within := .refl R
  fresh := .inl
  freshHidden := .inl
  left := .of_mem hws ⟨y, hxy⟩ hx
  right := .of_mem hwt ⟨x, hxy⟩ hy
  coversLeft hx' hold := by
    obtain rfl := hws.eq_of_new hx' hold
    exact .inl ⟨y, hxy⟩
  coversRight hy' hold := by
    obtain rfl := hwt.eq_of_new hy' hold
    exact ⟨x, hxy⟩

/-- A new empty scope on the left may stand for the counterpart of the scope around it. -/
theorem addHidden (h : R.Matches s t) (hs : s'.WellFormed) {e o e' : ScopeId}
    (he : s.content? (.scope e) = none) (ho : R.scope o e')
    (hws : s.Writes s' (.scope e) (.scope ⟨[], some o⟩)) :
    R.Advances (R.hide e e') s t s' t where
  after :=
    { left := hs
      right := h.right
      content := by
        intro x y hxy
        obtain ⟨a, b, ha, hb, hab⟩ := h.content hxy
        rw [hws.others x (by rintro rfl; simp [ha] at he)]
        exact ⟨a, b, ha, hb, (within_hide R e e').sameContent hab⟩
      inj := h.inj
      hidden := by
        rintro d d' (hd | ⟨rfl, rfl⟩)
        · obtain ⟨o', hread, ho'⟩ := h.hidden hd
          rw [hws.others (.scope d) (by rintro ⟨⟩; simp [hread] at he)]
          exact ⟨o', hread, ho'⟩
        · exact ⟨o, hws.here, ho⟩
      apart := by
        rintro d d' y (hd | ⟨rfl, rfl⟩) hrel
        · exact h.apart hd hrel
        · exact (h.lt hrel).1 he }
  within := within_hide R e e'
  fresh := .inl
  freshHidden := by
    rintro d d' (hd | ⟨rfl, rfl⟩)
    · exact .inl hd
    · exact .inr he
  left := .of_new hws he
  right := .refl _ t
  coversLeft hx hold := .inr ⟨e, e', hws.eq_of_new hx hold, .inr ⟨rfl, rfl⟩⟩
  coversRight hy hold := absurd hold hy

end Matches

end Renaming

end LittleLisp
