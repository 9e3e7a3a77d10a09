import LittleLisp.Proofs.Evaluator.Parametric
import LittleLisp.Proofs.Session.Effects

/-!
The course of a session. It is made of stretches: from one command to the next, from a command to
the expressions that it evaluates, from an expression to the next, and within an evaluation from
each call of the evaluator to the calls that it makes, from one of these to the next, and back.
Since a fault ends an evaluation, a call was made before another one if it is made even though the
other one fails. What every effect of evaluation implies holds of any two moments.
-/

namespace LittleLisp

open Relation

/-- The evaluation of `q` makes the call `p`, which has returned when it makes the call `p'`. -/
structure Call.Before (cfg : Settings) (eval : Evaluate) (q p p' : Call) : Prop where
  ne : p ≠ p'
  later : q.Makes cfg eval p'
  earlier : ∀ f, q.Makes cfg (p'.failingAt f eval) p

inductive Session.Stretch (cfg : Settings) : Store → Store → Prop
  | command (s : Session) (c : Command) : Stretch cfg s.store (s.perform cfg c).store
  | begin {s : Session} {c : Command} {q : Call} (calls : q ∈ s.calls cfg c) :
      Stretch cfg s.store q.machine.store
  | goOn {s : Session} {c : Command} {earlier later : List Call} {q q' : Call}
      (calls : s.calls cfg c = earlier ++ q :: q' :: later) :
      Stretch cfg (q.run (evaluate cfg)).2.store q'.machine.store
  | finish {s : Session} {c : Command} {q : Call} (calls : q ∈ s.calls cfg c) :
      Stretch cfg (q.run (evaluate cfg)).2.store (s.perform cfg c).store
  | run (depth : Nat) (p : Call) : Stretch cfg p.machine.store (p.run (evalDepth cfg depth)).2.store
  | enter {depth : Nat} {p p' : Call} (makes : p.Makes cfg (evalDepth cfg depth) p') :
      Stretch cfg p.machine.store p'.machine.store
  | next {depth : Nat} {p p₁ p₂ : Call} (before : Call.Before cfg (evalDepth cfg depth) p p₁ p₂) :
      Stretch cfg (p₁.run (evalDepth cfg depth)).2.store p₂.machine.store
  | leave {depth : Nat} {p p' : Call} (makes : p.Makes cfg (evalDepth cfg depth) p') :
      Stretch cfg (p'.run (evalDepth cfg depth)).2.store (p.run (evalDepth cfg (depth + 1))).2.store

namespace Effect

variable {T : Effect} {cfg : Settings} {e : ScopeId} {m : Machine}

theorem rel_callsOf_next {ds : List Datum} {earlier later : List Call} {q q' : Call}
    (h : callsOf cfg e ds m = earlier ++ q :: q' :: later) :
    T.rel e (q.run (evaluate cfg)).2.store q'.machine.store := by
  induction ds generalizing m earlier with
  | nil => simp [callsOf] at h
  | cons d ds ih =>
    rw [callsOf] at h
    rcases hrun : (Call.ofDatum e m d).run (evaluate cfg) with ⟨f | c, m'⟩ <;> simp only [hrun] at h
    · cases earlier <;> simp at h
    · cases earlier with
      | cons _ earlier => exact ih (List.cons.inj h).2
      | nil =>
        obtain ⟨rfl, htail⟩ := List.cons.inj h
        cases ds with
        | nil => simp [callsOf] at htail
        | cons d' ds =>
          rw [callsOf] at htail
          obtain ⟨rfl, -⟩ := List.cons.inj htail
          rw [hrun]
          exact rel_load d' m'.store

theorem sound_failingAt {eval : Evaluate} (hT : T.Sound eval) (p : Call) (f : Fault) :
    T.Sound (p.failingAt f eval) := by
  intro r
  by_cases hr : r = p
  · rw [hr, Call.run_failingAt_self]
    exact T.refl _ _
  · rw [Call.run_failingAt_of_ne hr]
    exact hT r

theorem rel_before {eval : Evaluate} {q p p' : Call} (hT : T.Sound eval)
    (h : Call.Before cfg eval q p p') :
    T.rel q.scope (p.run eval).2.store p'.machine.store := by
  obtain ⟨hne, hlater, hearlier⟩ := h
  have hend : q.run (evalStep cfg (p'.failingAt .tooDeep eval)) = (.error .tooDeep, p'.machine) :=
    Call.RequestedBy.fails (Parametric.evalStep cfg q.cell q.scope) hlater
      (fun _ hr ↦ Call.run_failingAt_of_ne hr .tooDeep eval)
      (Call.run_failingAt_self p' .tooDeep eval)
  obtain ⟨eval', hagree, hdiffers⟩ := hearlier .tooDeep
  have htracks := tracks_evalStep (m := q.machine) (e := q.scope)
    (sound_failingAt hT p' .tooDeep) hagree cfg q.cell
  have hrest := (htracks.visits.resolve_left hdiffers).rest
  rw [Call.run_failingAt_of_ne hne] at hrest
  have hstore : ((evalStep cfg (p'.failingAt .tooDeep eval) q.cell q.scope).execute
      q.machine).2.store = p'.machine.store := congrArg (fun r ↦ r.2.store) hend
  rwa [hstore] at hrest

theorem rel_stretch {st st' : Store} (h : Session.Stretch cfg st st') : ∃ e, T.rel e st st' := by
  cases h with
  | command s c => exact ⟨_, T.rel_perform s c⟩
  | begin calls => exact ⟨_, (T.rel_calls calls).2.1⟩
  | goOn calls => exact ⟨_, rel_callsOf_next calls⟩
  | finish calls => exact ⟨_, (T.rel_calls calls).2.2⟩
  | run depth p => exact ⟨_, T.sound_evalDepth cfg depth p⟩
  | enter makes => exact ⟨_, (T.visits_makes makes).before⟩
  | next before => exact ⟨_, rel_before (T.sound_evalDepth cfg _) before⟩
  | leave makes => exact ⟨_, (T.visits_makes makes).rest⟩

variable (T)

theorem rel_stretches {P : Store → Store → Prop} (hrefl : ∀ s, P s s)
    (htrans : ∀ {s s' s''}, P s s' → P s' s'' → P s s'')
    (hP : ∀ {e s s'}, T.rel e s s' → P s s') {st st' : Store}
    (h : ReflTransGen (Session.Stretch cfg) st st') : P st st' := by
  induction h with
  | refl => exact hrefl st
  | tail _ step ih =>
    obtain ⟨e, hrel⟩ := T.rel_stretch step
    exact htrans ih (hP hrel)

end Effect

end LittleLisp
