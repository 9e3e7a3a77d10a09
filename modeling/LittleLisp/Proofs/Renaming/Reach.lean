import LittleLisp.Proofs.Renaming.Basic
import Mathlib.Logic.Relation

/-!
What can be reached in a store. A renaming that matches speaks of everything that can be reached
from what it speaks of. Whatever is reached by one of two renamings that have nothing in common
stays as it is while the other advances, and they still have nothing in common then.
-/

namespace LittleLisp

inductive Content.Mentions : Content → Item → Prop
  | inner (i : CellId) : Mentions (.cell (.quoted i)) (.cell i)
  | items (h : HandleId) : Mentions (.cell (.list h)) (.handle h)
  | captured (name : Text) (kind : Kind) (e : ScopeId) (params : List Text) (b : CellId) :
      Mentions (.cell (.function ⟨name, kind, .closure e params b⟩)) (.scope e)
  | body (name : Text) (kind : Kind) (e : ScopeId) (params : List Text) (b : CellId) :
      Mentions (.cell (.function ⟨name, kind, .closure e params b⟩)) (.cell b)
  | first (n : NodeId) : Mentions (.handle (some n)) (.node n)
  | value (v : CellId) (o : Option NodeId) : Mentions (.node ⟨v, o⟩) (.cell v)
  | next (v : CellId) (n : NodeId) : Mentions (.node ⟨v, some n⟩) (.node n)
  | bound {l : List (Text × CellId)} (o : Option ScopeId) {p : Text × CellId} (h : p ∈ l) :
      Mentions (.scope ⟨l, o⟩) (.cell p.2)
  | outer (l : List (Text × CellId)) (o : ScopeId) : Mentions (.scope ⟨l, some o⟩) (.scope o)

namespace Store

def Refers (s : Store) (x y : Item) : Prop := ∃ a, s.content? x = some a ∧ a.Mentions y

def Reachable (s : Store) (e : ScopeId) : Item → Prop := Relation.ReflTransGen s.Refers (.scope e)

end Store

namespace Renaming

open Store

variable {R R' Q : Renaming} {s t u s' t' : Store} {x y : Item} {a b : Content}

def Holds (R : Renaming) (x : Item) : Prop :=
  (∃ y, R.rel x y) ∨ ∃ e e', x = .scope e ∧ R.hidden e e'

theorem Captured.holds {e e' : ScopeId} (h : R.Captured e e') : R.Holds (.scope e) := by
  rcases h with h | h
  · exact .inl ⟨_, h⟩
  · exact .inr ⟨e, e', rfl, h⟩

theorem SameBindings.holds {l l' : List (Text × CellId)} (h : R.SameBindings l l')
    {p : Text × CellId} (hp : p ∈ l) : R.Holds (.cell p.2) := by
  induction h with
  | nil => cases hp
  | cons hq _ ih =>
    rcases List.mem_cons.1 hp with rfl | hp
    · exact .inl ⟨_, hq.2⟩
    · exact ih hp

theorem SameCell.holds {c c' : Cell} (h : R.SameCell c c') (hx : (Content.cell c).Mentions x) :
    R.Holds x := by
  cases h with
  | quoted inner =>
    cases hx
    exact .inl ⟨_, inner⟩
  | list items =>
    cases hx
    exact .inl ⟨_, items⟩
  | function same =>
    cases same with
    | operator => cases hx
    | closure _ _ _ captured body =>
      cases hx with
      | captured => exact captured.holds
      | body => exact .inl ⟨_, body⟩
  | _ => cases hx

theorem SameContent.holds (h : R.SameContent a b) (hx : a.Mentions x) : R.Holds x := by
  cases h with
  | cell same => exact same.holds hx
  | handle first =>
    cases first with
    | some first =>
      cases hx
      exact .inl ⟨_, first⟩
    | none => cases hx
  | node value next =>
    cases hx with
    | value => exact .inl ⟨_, value⟩
    | next =>
      cases next with
      | some next => exact .inl ⟨_, next⟩
  | scope bindings outer =>
    cases hx with
    | bound _ hp => exact SameBindings.holds bindings hp
    | outer =>
      cases outer with
      | some outer => exact outer.holds

namespace Matches

variable (h : R.Matches s t)
include h

theorem holds_of_refers (hx : R.Holds x) (hxy : s.Refers x y) : R.Holds y := by
  obtain ⟨a, ha, hmentions⟩ := hxy
  rcases hx with ⟨x', hx⟩ | ⟨e, e', rfl, he⟩
  · obtain ⟨a', b, ha', -, hab⟩ := h.content hx
    cases ha.symm.trans ha'
    exact hab.holds hmentions
  · obtain ⟨o, ho, hrel⟩ := h.hidden he
    cases ha.symm.trans ho
    cases hmentions with
    | bound _ hp => cases hp
    | outer => exact .inl ⟨_, hrel⟩

theorem holds_of_reachable {e e' : ScopeId} (he : R.scope e e') (hx : s.Reachable e x) :
    R.Holds x := by
  induction hx with
  | refl => exact .inl ⟨_, he⟩
  | tail _ hstep ih => exact h.holds_of_refers ih hstep

theorem content?_of_holds (hx : R.Holds x) : s.content? x ≠ none := by
  rcases hx with ⟨y, hxy⟩ | ⟨e, e', rfl, he⟩
  · exact (h.lt hxy).1
  · obtain ⟨o, ho, -⟩ := h.hidden he
    rw [ho]
    exact Option.some_ne_none _

end Matches

/-- While one renaming advances, another that has nothing in common with it is not concerned. -/
theorem Advances.apart (h : R.Advances R' s t s' t') (hQ : Q.Matches s u)
    (hRQ : ∀ x, R.Holds x → ¬ Q.Holds x) :
    Q.Matches s' u ∧ ∀ x, R'.Holds x → ¬ Q.Holds x := by
  have hkept : ∀ x, Q.Holds x → s'.content? x = s.content? x := by
    intro x hx
    exact h.left.kept (hQ.content?_of_holds hx) fun hR ↦ absurd hx (hRQ x (.inl hR))
  refine ⟨hQ.congr_left h.after.left ?_ ?_, ?_⟩
  · exact fun x y hxy ↦ hkept x (.inl ⟨y, hxy⟩)
  · exact fun e e' he ↦ hkept _ (.inr ⟨e, e', rfl, he⟩)
  · intro x hR' hx
    have hsome := hQ.content?_of_holds hx
    refine hRQ x ?_ hx
    rcases hR' with ⟨y, hxy⟩ | ⟨e, e', rfl, he⟩
    · exact .inl ⟨y, (h.fresh hxy).resolve_right fun hnew ↦ hsome hnew.1⟩
    · exact .inr ⟨e, e', rfl, (h.freshHidden he).resolve_right hsome⟩

/-- Stores that are equal up to a renaming: it leaves out nothing but the hidden scopes. -/
structure Identifies (R : Renaming) (s t : Store) : Prop where
  same : R.Matches s t
  left : ∀ {x : Item}, s.content? x ≠ Option.none → R.Holds x
  right : ∀ {y : Item}, t.content? y ≠ Option.none → ∃ x, R.rel x y

theorem Identifies.advances (h : R.Identifies s t) (hR : R.Advances R' s t s' t') :
    R'.Identifies s' t' where
  same := hR.after
  left {x} hx := by
    by_cases hold : s.content? x = Option.none
    · exact hR.coversLeft hx hold
    · refine (h.left hold).imp ?_ ?_
      · rintro ⟨y, hxy⟩
        exact ⟨y, hR.within.rel hxy⟩
      · rintro ⟨e, e', rfl, he⟩
        exact ⟨e, e', rfl, hR.within.hidden he⟩
  right {y} hy := by
    by_cases hold : t.content? y = Option.none
    · exact hR.coversRight hy hold
    · obtain ⟨x, hxy⟩ := h.right hold
      exact ⟨x, hR.within.rel hxy⟩

theorem content?_empty {x : Item} {a : Content} (h : Store.empty.content? x = some a) :
    x = .cell absentId ∧ a = .cell .absent := by
  cases x with
  | cell c =>
    match c with
    | 0 =>
      cases h
      exact ⟨rfl, rfl⟩
    | c + 1 => cases h
  | handle | node | scope => cases h

def absentOnly : Renaming := ⟨fun x y ↦ x = .cell absentId ∧ y = .cell absentId, fun _ _ ↦ False⟩

theorem identifies_empty : absentOnly.Identifies Store.empty Store.empty where
  same :=
    { left := wellFormed_empty
      right := wellFormed_empty
      content := by
        rintro x y ⟨rfl, rfl⟩
        exact ⟨.cell .absent, .cell .absent, rfl, rfl, .cell .absent⟩
      inj := by
        rintro x y x' y' ⟨rfl, rfl⟩ ⟨rfl, rfl⟩
        exact iff_of_true rfl rfl
      hidden := nofun
      apart := nofun }
  left hx := by
    obtain ⟨a, ha⟩ := Option.ne_none_iff_exists'.1 hx
    exact .inl ⟨_, (content?_empty ha).1, rfl⟩
  right hy := by
    obtain ⟨a, ha⟩ := Option.ne_none_iff_exists'.1 hy
    exact ⟨_, rfl, (content?_empty ha).1⟩

def none : Renaming := ⟨fun _ _ ↦ False, fun _ _ ↦ False⟩

theorem matches_none (hs : s.WellFormed) (ht : t.WellFormed) : none.Matches s t where
  left := hs
  right := ht
  content := nofun
  inj := nofun
  hidden := nofun
  apart := nofun

theorem not_holds_none (x : Item) : ¬ none.Holds x := by
  rintro (⟨_, ⟨⟩⟩ | ⟨_, _, -, ⟨⟩⟩)

end Renaming

end LittleLisp
