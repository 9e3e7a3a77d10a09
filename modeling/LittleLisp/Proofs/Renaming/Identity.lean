import LittleLisp.Proofs.Renaming.Reach
import Mathlib.Order.Interval.Finset.Nat

/-!
Renamings under which what is there keeps its name. If nothing is hidden at first, and in the end
there are no more new scopes on the left than on the right, nothing has been hidden: every new scope
on the right stands for one on the left, and these are all.
-/

namespace LittleLisp.Renaming

open Store

variable {R R' : Renaming} {s t s' t' : Store} {D : Item → Prop}

def on (D : Item → Prop) : Renaming where
  rel x y := x = y ∧ D x
  hidden _ _ := False

theorem SameContent.self {a : Content} (h : ∀ y, a.Mentions y → R.rel y y) :
    R.SameContent a a := by
  cases a with
  | cell x =>
    refine .cell ?_
    cases x with
    | absent => exact .absent
    | atom name => exact .atom name
    | number value => exact .number value
    | str text => exact .str text
    | bool flag => exact .bool flag
    | quoted i => exact .quoted (h _ (.inner i))
    | list k => exact .list (h _ (.items k))
    | function fn =>
      obtain ⟨name, kind, executor⟩ := fn
      refine .function ?_
      cases executor with
      | operator op => exact .operator name kind op
      | closure e params b =>
        exact .closure name kind params (.inl (h _ (.captured name kind e params b)))
          (h _ (.body name kind e params b))
  | handle first =>
    cases first with
    | none => exact .handle .none
    | some n => exact .handle (.some (h _ (.first n)))
  | node x =>
    obtain ⟨v, next⟩ := x
    cases next with
    | none => exact .node (h _ (.value v _)) .none
    | some n => exact .node (h _ (.value v _)) (.some (h _ (.next v n)))
  | scope x =>
    obtain ⟨bindings, outer⟩ := x
    refine .scope (List.forall₂_same.2 fun p hp ↦ ⟨rfl, h _ (.bound outer hp)⟩) ?_
    cases outer with
    | none => exact .none
    | some o => exact .some (.inl (h _ (.outer bindings o)))

theorem matches_on (hs : s.WellFormed) (ht : t.WellFormed)
    (hsome : ∀ x, D x → s.content? x ≠ Option.none)
    (hclosed : ∀ x y, D x → s.Refers x y → D y)
    (hsame : ∀ x, D x → t.content? x = s.content? x) : (on D).Matches s t where
  left := hs
  right := ht
  content := by
    intro x y ⟨hxy, hx⟩
    subst hxy
    obtain ⟨a, ha⟩ := Option.ne_none_iff_exists'.1 (hsome x hx)
    refine ⟨a, a, ha, (hsame x hx).trans ha, .self ?_⟩
    exact fun y hy ↦ ⟨rfl, hclosed x y hx ⟨a, ha, hy⟩⟩
  inj := by
    intro x y x' y' ⟨hxy, _⟩ ⟨hxy', _⟩
    rw [hxy, hxy']
  hidden := nofun
  apart := nofun

def newScopes (s s' : Store) : Finset Nat := Finset.Ico s.scopes.size s'.scopes.size

theorem mem_newScopes {e : Nat} : e ∈ newScopes s s' ↔
    s.content? (.scope e) = Option.none ∧ s'.content? (.scope e) ≠ Option.none := by
  simp [newScopes, content?]

namespace Advances

variable (h : R.Advances R' s t s' t') (hm : R.Matches s t)
include h hm

theorem exists_scope {e' : Nat} (hnew : e' ∈ newScopes t t') :
    ∃ e ∈ newScopes s s', R'.scope e e' := by
  obtain ⟨hold, hhere⟩ := mem_newScopes.1 hnew
  obtain ⟨x, hx⟩ := h.coversRight hhere hold
  obtain ⟨a, b, ha, hb, hab⟩ := h.after.content hx
  have hxnew : s.content? x = Option.none := by
    rcases h.fresh hx with hx | ⟨hx, -⟩
    · exact absurd hold (hm.lt hx).2
    · exact hx
  cases x with
  | scope e => exact ⟨e, mem_newScopes.2 ⟨hxnew, (h.after.lt hx).1⟩, hx⟩
  | cell | handle | node =>
    simp only [content?, Option.map_eq_some_iff] at ha hb
    obtain ⟨_, -, rfl⟩ := ha
    obtain ⟨_, -, rfl⟩ := hb
    cases hab

theorem exists_scopes : ∃ f : Nat → Nat, Set.MapsTo f (newScopes t t') (newScopes s s') ∧
    Set.InjOn f (newScopes t t') ∧ ∀ e' ∈ newScopes t t', R'.scope (f e') e' := by
  have hexists : ∀ e' ∈ newScopes t t', ∃ e ∈ newScopes s s', R'.scope e e' :=
    fun _ ↦ h.exists_scope hm
  choose! f hmem hrel using hexists
  refine ⟨f, hmem, ?_, hrel⟩
  intro d hd e he hde
  have hsame := (h.after.inj (hrel d hd) (hrel e he)).1 (congrArg Item.scope hde)
  exact Item.scope.inj hsame

theorem card_newScopes_le : (newScopes t t').card ≤ (newScopes s s').card := by
  obtain ⟨f, hmaps, hinj, -⟩ := h.exists_scopes hm
  exact Finset.card_le_card_of_injOn f hmaps hinj

theorem exposed (hR : ∀ e e', ¬ R.hidden e e')
    (hcard : (newScopes s s').card ≤ (newScopes t t').card) : ∀ e e', ¬ R'.hidden e e' := by
  intro e e' hhidden
  obtain ⟨f, hmaps, hinj, hrel⟩ := h.exists_scopes hm
  obtain ⟨o, hread, -⟩ := h.after.hidden hhidden
  have hnew : e ∈ newScopes s s' := by
    refine mem_newScopes.2 ⟨(h.freshHidden hhidden).resolve_left (hR e e'), ?_⟩
    rw [hread]
    exact Option.some_ne_none _
  obtain ⟨d, hd, hde⟩ := Finset.surjOn_of_injOn_of_card_le f hmaps hinj hcard hnew
  exact h.after.apart hhidden (hde ▸ hrel d hd)

end Advances

end LittleLisp.Renaming
