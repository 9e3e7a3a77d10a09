import LittleLisp.Proofs.Renaming.Reach
import LittleLisp.Proofs.Renaming.Session

namespace LittleLisp

open Store

inductive Party where
  | first
  | second
deriving DecidableEq

namespace Party

def share {α : Type} (p : Party) (l : List (Party × α)) : List α :=
  (l.filter fun a ↦ a.1 = p).map Prod.snd

theorem share_cons_self {α : Type} (p : Party) (a : α) (l : List (Party × α)) :
    p.share ((p, a) :: l) = a :: p.share l := by
  simp [share]

theorem share_cons_of_ne {α : Type} {p q : Party} (h : q ≠ p) (a : α) (l : List (Party × α)) :
    p.share ((q, a) :: l) = p.share l := by
  simp [share, h]

end Party

structure Shared where
  store : Store
  root : Party → ScopeId

namespace Shared

def on (s : Store) : Shared where
  store := s.addRoot.2.addRoot.2
  root
    | .first => s.addRoot.1
    | .second => s.addRoot.2.addRoot.1

def session (s : Shared) (p : Party) : Session := ⟨s.store, s.root p⟩

/-- A party takes a step; the store changes for both, the root only for that party. -/
def respond (cfg : Party → Settings) (s : Shared) (step : Party × Command) :
    (Party × Option Answer) × Shared :=
  let (answer, after) := (s.session step.1).respond (cfg step.1) step.2
  ((step.1, answer), ⟨after.store, fun p ↦ if p = step.1 then after.root else s.root p⟩)

/-- Each party is the same, up to a renaming, as it would be alone, and the renamings have nothing
in common. -/
structure Separated (R : Party → Renaming) (s : Shared) (alone : Party → Session) : Prop where
  joins : ∀ p, (R p).Joins (s.session p) (alone p)
  apart : ∀ {p q : Party}, p ≠ q → ∀ x, (R p).Holds x → ¬ (R q).Holds x

variable {R : Party → Renaming} {s : Shared} {alone : Party → Session}

theorem Separated.not_reachable (h : Separated R s alone) (x : Item)
    (hfirst : s.store.Reachable (s.root .first) x) :
    ¬ s.store.Reachable (s.root .second) x := by
  intro hsecond
  have h₁ := h.joins .first
  have h₂ := h.joins .second
  exact h.apart (by decide) x (h₁.store.holds_of_reachable h₁.root hfirst)
    (h₂.store.holds_of_reachable h₂.root hsecond)

theorem separated_on {s t : Store} (hs : s.WellFormed) (ht : t.WellFormed) :
    ∃ R, Separated R (on s) fun _ ↦ ⟨t.addRoot.2, t.addRoot.1⟩ := by
  have hnone : ∀ x, Renaming.none.Holds x → False := Renaming.not_holds_none
  obtain ⟨R₁, h₁, hroot₁⟩ := (Renaming.matches_none hs ht).addRoot
  obtain ⟨R₂, h₂, hroot₂⟩ := (Renaming.matches_none h₁.after.left ht).addRoot
  -- The second root is made beside all that belongs to the first.
  obtain ⟨hafter, hapart⟩ := h₂.apart h₁.after fun x hx ↦ (hnone x hx).elim
  refine ⟨fun
    | .first => R₁
    | .second => R₂, ?_, ?_⟩
  · intro p
    cases p with
    | first =>
      dsimp only [session, on]
      exact Renaming.joins hafter hroot₁
    | second =>
      dsimp only [session, on]
      exact Renaming.joins h₂.after hroot₂
  · intro p q hpq x hx hx'
    cases p <;> cases q
    · exact hpq rfl
    · exact hapart x hx' hx
    · exact hapart x hx hx'
    · exact hpq rfl

/-- A step is answered as the party alone would answer it. -/
theorem Separated.respond (h : Separated R s alone) (cfg : Party → Settings) (p : Party)
    (c : Command) :
    (s.respond cfg (p, c)).1 = (p, ((alone p).respond (cfg p) c).1) ∧
      ∃ R', Separated R' (s.respond cfg (p, c)).2
        fun q ↦ if q = p then ((alone p).respond (cfg p) c).2 else alone q := by
  obtain ⟨hanswer, R', hadvances, hjoins⟩ := (h.joins p).respond (cfg p) c
  have hother : ∀ q, q ≠ p → (R q).Matches ((s.session p).respond (cfg p) c).2.store
      (alone q).store ∧ ∀ x, R'.Holds x → ¬ (R q).Holds x := by
    intro q hq
    exact hadvances.apart (h.joins q).store (h.apart (Ne.symm hq))
  refine ⟨congrArg (Prod.mk p) hanswer, fun q ↦ if q = p then R' else R q, ?_, ?_⟩
  · intro q
    by_cases hq : q = p
    · subst hq
      simpa [session, Shared.respond] using hjoins
    · simpa [session, Shared.respond, hq] using
        (⟨(hother q hq).1, (h.joins q).root⟩ : (R q).Joins ⟨_, s.root q⟩ (alone q))
  · intro q q' hqq x hx hx'
    by_cases hq : q = p <;> by_cases hq' : q' = p
    · exact hqq (hq.trans hq'.symm)
    · simp only [hq, hq', if_true, if_false] at hx hx'
      exact (hother q' hq').2 x hx hx'
    · simp only [hq, hq', if_true, if_false] at hx hx'
      exact (hother q hq).2 x hx' hx
    · simp only [hq, hq', if_false] at hx hx'
      exact h.apart hqq x hx hx'

end Shared

open Shared

theorem separated_converse {R : Party → Renaming} {s : Shared} {alone : Party → Session}
    (h : Separated R s alone) (cfg : Party → Settings) (steps : List (Party × Command)) :
    (∃ R', Separated R' (converse (Shared.respond cfg) s steps).2
      fun p ↦ (converse (Session.respond (cfg p)) (alone p) (p.share steps)).2) ∧
    ∀ p, p.share (converse (Shared.respond cfg) s steps).1 =
      (converse (Session.respond (cfg p)) (alone p) (p.share steps)).1 := by
  induction steps generalizing R s alone with
  | nil => exact ⟨⟨R, h⟩, fun _ ↦ rfl⟩
  | cons step steps ih =>
    obtain ⟨p, c⟩ := step
    obtain ⟨hanswer, R', hafter⟩ := h.respond cfg p c
    obtain ⟨⟨R'', hseparated⟩, hanswers⟩ := ih hafter
    rw [converse_cons, hanswer]
    have hself : p.share ((p, c) :: steps) = c :: p.share steps := p.share_cons_self c steps
    refine ⟨⟨R'', ?_⟩, ?_⟩
    · convert hseparated using 2 with q
      by_cases hq : q = p
      · subst hq
        rw [hself, converse_cons, if_pos rfl]
      · rw [Party.share_cons_of_ne (Ne.symm hq), if_neg hq]
    · intro q
      by_cases hq : q = p
      · subst hq
        rw [Party.share_cons_self, hself, converse_cons, hanswers, if_pos rfl]
      · rw [Party.share_cons_of_ne (Ne.symm hq), Party.share_cons_of_ne (Ne.symm hq), hanswers,
          if_neg hq]

/-- Two interpreters with new root scopes in one store do not see each other. After any sequence of
their steps, in any order and whether they succeed or fail, no cell, list, node or scope is reached
from both root scopes, and what each has answered, with printed results, faults and traces, is what
it answers to its own steps alone in an empty store. -/
theorem interpreters_isolated (cfg : Party → Settings) (s : Store) (hs : s.WellFormed)
    (steps : List (Party × Command)) :
    let r := converse (Shared.respond cfg) (.on s) steps
    (∀ x, r.2.store.Reachable (r.2.root .first) x → ¬ r.2.store.Reachable (r.2.root .second) x) ∧
      ∀ p : Party,
        p.share r.1 = (converse (Session.respond (cfg p)) .start (p.share steps)).1 := by
  obtain ⟨R, hstart⟩ := separated_on hs wellFormed_empty
  obtain ⟨⟨R', hafter⟩, hanswers⟩ := separated_converse hstart cfg steps
  exact ⟨hafter.not_reachable, hanswers⟩

def selfHeld : Store := (Store.empty.addList []).2.push 0 1

theorem wellFormed_selfHeld : selfHeld.WellFormed := by
  have hhandle : (Store.empty.addHandle none).2.WellFormed := wellFormed_empty.addHandle nofun
  have hlist : (Store.empty.addList []).2.WellFormed := hhandle.addCell nofun
  exact hlist.push 0 1

def sameName : List (Party × Command) :=
  [(.first, .eval "(def x (list #f))"), (.second, .eval "x"), (.second, .eval "(def x #t)"),
    (.first, .eval "(push #t x)"), (.second, .eval "x"), (.first, .reset), (.first, .eval "x")]

/-- Neither sees what the other defines, pushes or forgets. -/
theorem isolated_sameName :
    let r := converse (Shared.respond fun _ ↦ { evalDepth := 3 }) (.on selfHeld) sameName
    selfHeld.WellFormed ∧
      (∀ x, r.2.store.Reachable (r.2.root .first) x →
        ¬ r.2.store.Reachable (r.2.root .second) x) ∧
      printed (Party.first.share r.1) =
        [some ("x" : Text), some ("(#f #t)" : Text), none, none] ∧
      printed (Party.second.share r.1) = [none, some ("x" : Text), some ("#t" : Text)] := by
  obtain ⟨hapart, hanswers⟩ :=
    interpreters_isolated (fun _ ↦ { evalDepth := 3 }) selfHeld wellFormed_selfHeld sameName
  refine ⟨wellFormed_selfHeld, hapart, ?_, ?_⟩
  · rw [hanswers]
    decide +kernel
  · rw [hanswers]
    decide +kernel

end LittleLisp
