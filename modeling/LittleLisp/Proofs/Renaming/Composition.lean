import LittleLisp.Proofs.Renaming.Evaluator
import LittleLisp.Proofs.Renaming.Identity
import LittleLisp.Proofs.Store.Built

/-!
Renamings that hide nothing can be turned around, put one after the other, and put side by side if
they have nothing in common. So to be the same up to names is an equivalence of runs, and a run on a
part of a store is the same whatever stands beside that part.
-/

namespace LittleLisp.Renaming

open EvalM Store

variable {R R' Q : Renaming} {s t u s' t' : Store} {x y : Item} {a b c : Content}
  {D D' : Item → Prop}

def Exposed (R : Renaming) : Prop := ∀ e e', ¬ R.hidden e e'

def flip (R : Renaming) : Renaming where
  rel x y := R.rel y x
  hidden _ _ := False

def comp (R Q : Renaming) : Renaming where
  rel x z := ∃ y, R.rel x y ∧ Q.rel y z
  hidden _ _ := False

def union (R Q : Renaming) : Renaming where
  rel x y := R.rel x y ∨ Q.rel x y
  hidden _ _ := False

theorem exposed_on (D : Item → Prop) : (on D).Exposed := fun _ _ ↦ id

theorem Exposed.captured (hR : R.Exposed) {e e' : ScopeId} (h : R.Captured e e') : R.scope e e' :=
  h.resolve_right (hR e e')

section Flip

variable (hR : R.Exposed)
include hR

theorem SameCell.flip {x y : Cell} (h : R.SameCell x y) : R.flip.SameCell y x := by
  cases h with
  | absent => exact .absent
  | atom name => exact .atom name
  | number value => exact .number value
  | str text => exact .str text
  | bool flag => exact .bool flag
  | quoted inner => exact .quoted inner
  | list items => exact .list items
  | function same =>
    cases same with
    | operator name kind op => exact .function (.operator name kind op)
    | closure name kind params captured body =>
      exact .function (.closure name kind params (.inl (hR.captured captured)) body)

omit hR in
theorem SameLink.flip {o o' : Option NodeId} (h : R.SameLink o o') : R.flip.SameLink o' o := by
  cases h with
  | some h => exact .some h
  | none => exact .none

theorem SameContent.flip (h : R.SameContent a b) : R.flip.SameContent b a := by
  cases h with
  | cell same => exact .cell (same.flip hR)
  | handle first => exact .handle (SameLink.flip first)
  | node value next => exact .node value (SameLink.flip next)
  | scope bindings outer =>
    refine .scope (bindings.flip.imp fun _ _ h ↦ ⟨h.1.symm, h.2⟩) ?_
    cases outer with
    | some h => exact .some (.inl (hR.captured h))
    | none => exact .none

theorem Matches.flip (h : R.Matches s t) : R.flip.Matches t s where
  left := h.right
  right := h.left
  content hxy := by
    obtain ⟨a, b, ha, hb, hab⟩ := h.content hxy
    exact ⟨b, a, hb, ha, hab.flip hR⟩
  inj h₁ h₂ := (h.inj h₁ h₂).symm
  hidden := nofun
  apart := nofun

end Flip

section Comp

variable (hR : R.Exposed) (hQ : Q.Exposed)

theorem SameLink.comp {o o' o'' : Option NodeId} (h : R.SameLink o o') (h' : Q.SameLink o' o'') :
    (R.comp Q).SameLink o o'' := by
  cases h with
  | some h =>
    cases h' with
    | some h' => exact .some ⟨_, h, h'⟩
  | none =>
    cases h'
    exact .none

theorem SameBindings.comp {l l' l'' : List (Text × CellId)} (h : R.SameBindings l l')
    (h' : Q.SameBindings l' l'') : (R.comp Q).SameBindings l l'' := by
  induction h generalizing l'' with
  | nil =>
    cases h'
    exact .nil
  | cons hp _ ih =>
    cases h' with
    | cons hp' hl' => exact .cons ⟨hp.1.trans hp'.1, _, hp.2, hp'.2⟩ (ih hl')

include hR hQ

theorem SameCell.comp {x y z : Cell} (h : R.SameCell x y) (h' : Q.SameCell y z) :
    (R.comp Q).SameCell x z := by
  cases h with
  | absent => cases h'; exact .absent
  | atom name => cases h'; exact .atom name
  | number value => cases h'; exact .number value
  | str text => cases h'; exact .str text
  | bool flag => cases h'; exact .bool flag
  | quoted inner =>
    cases h' with
    | quoted inner' => exact .quoted ⟨_, inner, inner'⟩
  | list items =>
    cases h' with
    | list items' => exact .list ⟨_, items, items'⟩
  | function same =>
    cases h' with
    | function same' =>
      cases same with
      | operator name kind op => cases same'; exact .function (.operator name kind op)
      | closure name kind params captured body =>
        cases same' with
        | closure _ _ _ captured' body' =>
          exact .function (.closure name kind params
            (.inl ⟨_, hR.captured captured, hQ.captured captured'⟩) ⟨_, body, body'⟩)

theorem SameContent.comp (h : R.SameContent a b) (h' : Q.SameContent b c) :
    (R.comp Q).SameContent a c := by
  cases h with
  | cell same =>
    cases h' with
    | cell same' => exact .cell (same.comp hR hQ same')
  | handle first =>
    cases h' with
    | handle first' => exact .handle (SameLink.comp first first')
  | node value next =>
    cases h' with
    | node value' next' => exact .node ⟨_, value, value'⟩ (SameLink.comp next next')
  | scope bindings outer =>
    cases h' with
    | scope bindings' outer' =>
      refine .scope (SameBindings.comp bindings bindings') ?_
      cases outer with
      | some h =>
        cases outer' with
        | some h' => exact .some (.inl ⟨_, hR.captured h, hQ.captured h'⟩)
      | none =>
        cases outer'
        exact .none

theorem Matches.comp (h : R.Matches s t) (h' : Q.Matches t u) : (R.comp Q).Matches s u where
  left := h.left
  right := h'.right
  content := by
    rintro x z ⟨y, hxy, hyz⟩
    obtain ⟨a, b, ha, hb, hab⟩ := h.content hxy
    obtain ⟨b', c, hb', hc, hbc⟩ := h'.content hyz
    cases hb.symm.trans hb'
    exact ⟨a, c, ha, hc, hab.comp hR hQ hbc⟩
  inj := by
    rintro x z x' z' ⟨y, hxy, hyz⟩ ⟨y', hxy', hyz'⟩
    exact (h.inj hxy hxy').trans (h'.inj hyz hyz')
  hidden := nofun
  apart := nofun

end Comp

section Union

theorem within_union_left (hR : R.Exposed) (Q : Renaming) : R.Within (R.union Q) :=
  ⟨.inl, fun h ↦ hR _ _ h⟩

theorem within_union_right (R : Renaming) (hQ : Q.Exposed) : Q.Within (R.union Q) :=
  ⟨.inr, fun h ↦ hQ _ _ h⟩

/-- Renamings that have nothing in common match together. -/
theorem Matches.union (hR : R.Exposed) (hQ : Q.Exposed) (h : R.Matches s t) (h' : Q.Matches s t)
    (hleft : ∀ {x y z}, R.rel x y → ¬ Q.rel x z) (hright : ∀ {x y z}, R.rel x z → ¬ Q.rel y z) :
    (R.union Q).Matches s t where
  left := h.left
  right := h.right
  content := by
    rintro x y (hxy | hxy)
    · obtain ⟨a, b, ha, hb, hab⟩ := h.content hxy
      exact ⟨a, b, ha, hb, (within_union_left hR Q).sameContent hab⟩
    · obtain ⟨a, b, ha, hb, hab⟩ := h'.content hxy
      exact ⟨a, b, ha, hb, (within_union_right R hQ).sameContent hab⟩
  inj := by
    rintro x y x' y' (hxy | hxy) (hxy' | hxy')
    · exact h.inj hxy hxy'
    · refine iff_of_false ?_ ?_ <;> rintro rfl
      · exact hleft hxy hxy'
      · exact hright hxy hxy'
    · refine iff_of_false ?_ ?_ <;> rintro rfl
      · exact hleft hxy' hxy
      · exact hright hxy' hxy
    · exact h'.inj hxy hxy'
  hidden := nofun
  apart := nofun

theorem Matches.congr_right (h : R.Matches s t) (ht : t'.WellFormed)
    (hrel : ∀ x y, R.rel x y → t'.content? y = t.content? y) : R.Matches s t' where
  left := h.left
  right := ht
  content hxy := by
    rw [hrel _ _ hxy]
    exact h.content hxy
  inj := h.inj
  hidden := h.hidden
  apart := h.apart

end Union

/-- Stores that are the same up to names, in so far as the renaming speaks of what they hold. What
is in `D` keeps its name. -/
structure Equates (R : Renaming) (D : Item → Prop) (s t : Store) : Prop where
  same : R.Matches s t
  exposed : R.Exposed
  kept : ∀ {x : Item}, D x → R.rel x x

namespace Equates

theorem mono (h : R.Equates D s t) (hD : ∀ x, D' x → D x) : R.Equates D' s t :=
  ⟨h.same, h.exposed, fun hx ↦ h.kept (hD _ hx)⟩

theorem comp (h : R.Equates D s t) (h' : Q.Equates D t u) : (R.comp Q).Equates D s u where
  same := h.same.comp h.exposed h'.exposed h'.same
  exposed _ _ := id
  kept hx := ⟨_, h.kept hx, h'.kept hx⟩

theorem agree (h : R.Equates D s t) (trace : Array Event) :
    R.Agree ⟨s, trace⟩ ⟨t, trace⟩ ∧ R.flip.Agree ⟨t, trace⟩ ⟨s, trace⟩ :=
  ⟨⟨h.same, rfl⟩, h.same.flip h.exposed, rfl⟩

theorem simulates {α β : Type} {m m' : Machine} {x : EvalM α} {y : EvalM β}
    {P : Renaming → α → β → Prop} {P' : Renaming → β → α → Prop}
    (h : R.Equates D m.store m'.store) (hxy : R.Simulates m m' x y P)
    (hyx : R.flip.Simulates m' m y x P') :
    ∃ R', R'.Equates D (x.execute m).2.store (y.execute m').2.store ∧
      R.Advances R' m.store m'.store (x.execute m).2.store (y.execute m').2.store ∧
      (x.execute m).2.trace = (y.execute m').2.trace ∧
      SameResult (P R') (x.execute m).1 (y.execute m').1 := by
  obtain ⟨R', hadvances, htrace, hresult⟩ := hxy
  obtain ⟨_, hadvances', -, -⟩ := hyx
  have hcard := hadvances'.card_newScopes_le (h.same.flip h.exposed)
  exact ⟨R', ⟨hadvances.after, hadvances.exposed h.same h.exposed hcard,
    fun hx ↦ hadvances.within.rel (h.kept hx)⟩, hadvances, htrace, hresult⟩

end Equates

def Twins (D : Item → Prop) (p p' : Except Fault CellId × Machine) : Prop :=
  ∃ R : Renaming, R.Equates D p.2.store p'.2.store ∧ p.2.trace = p'.2.trace ∧
    SameResult R.cell p.1 p'.1

theorem Equates.twins {m m' : Machine} {x y : EvalM CellId} (h : R.Equates D m.store m'.store)
    (hxy : R.Simulates m m' x y Renaming.cell) (hyx : R.flip.Simulates m' m y x Renaming.cell) :
    Twins D (x.execute m) (y.execute m') := by
  obtain ⟨R', hR', -, htrace, hresult⟩ := h.simulates hxy hyx
  exact ⟨R', hR', htrace, hresult⟩

namespace Twins

variable {p p' p'' : Except Fault CellId × Machine}

theorem mono (h : Twins D p p') (hD : ∀ x, D' x → D x) : Twins D' p p' := by
  obtain ⟨R, hequates, htrace, hresult⟩ := h
  exact ⟨R, hequates.mono hD, htrace, hresult⟩

theorem trans (h : Twins D p p') (h' : Twins D p' p'') : Twins D p p'' := by
  obtain ⟨R, hequates, htrace, hresult⟩ := h
  obtain ⟨Q, hequates', htrace', hresult'⟩ := h'
  refine ⟨R.comp Q, hequates.comp hequates', htrace.trans htrace', ?_⟩
  generalize p.1 = r, p'.1 = r', p''.1 = r'' at hresult hresult'
  cases hresult with
  | ok value =>
    cases hresult' with
    | ok value' => exact .ok ⟨_, value, value'⟩
  | error f =>
    cases hresult'
    exact .error f

end Twins

end LittleLisp.Renaming

namespace LittleLisp.Store

open Renaming

variable {s t t' : Store} {x : Item}

def Has (s : Store) (x : Item) : Prop := s.content? x ≠ Option.none

theorem Appends.content? (h : s.Appends t) (hx : s.Has x) : t.content? x = s.content? x := by
  obtain ⟨a, ha⟩ := Option.ne_none_iff_exists'.1 hx
  cases x with
  | cell c =>
    obtain ⟨y, hy, -⟩ := Option.map_eq_some_iff.1 ha
    rw [Store.content?, Store.content?, hy, h.cells hy]
  | handle k =>
    obtain ⟨y, hy, -⟩ := Option.map_eq_some_iff.1 ha
    rw [Store.content?, Store.content?, hy, h.handles hy]
  | node n =>
    obtain ⟨y, hy, -⟩ := Option.map_eq_some_iff.1 ha
    rw [Store.content?, Store.content?, hy, h.nodes hy]
  | scope e => rw [Store.content?, Store.content?, h.scopes]

theorem Appends.has (h : s.Appends t) (hx : s.Has x) : t.Has x := by
  rw [Has, h.content? hx]
  exact hx

/-- What is appended to a store makes no difference to what it held. -/
theorem Whole.equates (hs : s.Whole) (ht : t.WellFormed) (ht' : t'.WellFormed) (h : s.Appends t)
    (h' : s.Appends t') : (on s.Has).Equates s.Has t t' where
  same := by
    refine matches_on ht ht' (fun x hx ↦ h.has hx) ?_ ?_
    · intro x y hx ⟨a, ha, hy⟩
      exact (hs.refers ⟨a, (h.content? hx).symm.trans ha, hy⟩).content?
    · intro x hx
      rw [h.content? hx, h'.content? hx]
  exposed := exposed_on _
  kept hx := ⟨rfl, hx⟩

end LittleLisp.Store
