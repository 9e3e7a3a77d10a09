import LittleLisp.Proofs.Evaluator.Effects
import LittleLisp.Proofs.Session.History

namespace LittleLisp

open EvalM

namespace Effect

variable {T : Effect} {e : ScopeId} {m : Machine} {cfg : Settings}

theorem rel_loadItems {ds : List Datum} (h : ∀ d ∈ ds, ∀ s, T.rel e s (Store.load d s).2)
    (s : Store) : T.rel e s (Store.loadItems ds s).2 := by
  induction ds generalizing s with
  | nil => exact T.refl e s
  | cons d ds ih =>
    have hrest := ih (fun d' hd ↦ h d' (List.mem_cons_of_mem d hd)) (Store.load d s).2
    exact T.trans (h d List.mem_cons_self s) hrest

theorem rel_load (d : Datum) (s : Store) : T.rel e s (Store.load d s).2 := by
  induction d using Datum.induction generalizing s with
  | atom | number | str | bool => exact T.addCell e s _
  | quoted inner ih => exact T.trans (ih s) (T.addCell e _ _)
  | list items ih => exact T.trans (rel_loadItems (fun d hd ↦ ih d hd) s) (T.addList e _ _)
  | mark => exact T.refl e s

theorem rel_addOperators (fns : List FunctionValue) (s : Store) :
    T.rel e s (fns.foldl (Store.addOperator e) s) := by
  induction fns generalizing s with
  | nil => exact T.refl e s
  | cons fn fns ih =>
    have hcell := T.addCell e s (.function fn)
    have hdefine := T.define e (s.addCell (.function fn)).2 fn.name (s.addCell (.function fn)).1
    exact T.trans (T.trans hcell hdefine) (ih _)

theorem rel_addRoot (s : Store) : T.rel e s s.addRoot.2 :=
  T.inner (T.addScope e s none) (Nat.le_refl _) (rel_addOperators _ _)

theorem rel_evalDatum (d : Datum) : T.rel e m.store ((evalDatum cfg e d).execute m).2.store :=
  T.trans (rel_load d m.store) (T.sound_evalDepth cfg cfg.evalDepth (.ofDatum e m d))

theorem rel_evalData (r : CellId) (ds : List Datum) :
    T.rel e m.store ((evalData cfg e r ds).execute m).2.store := by
  induction ds generalizing r m with
  | nil => exact T.refl e _
  | cons d ds ih =>
    refine Effect.bind (rel_evalDatum d) ?_
    intro c m' _
    exact ih c

theorem rel_callsOf {ds : List Datum} {q : Call} (hq : q ∈ callsOf cfg e ds m) (r : CellId) :
    q.scope = e ∧ T.rel e m.store q.machine.store ∧
      T.rel e (q.run (evaluate cfg)).2.store ((evalData cfg e r ds).execute m).2.store := by
  induction ds generalizing m r with
  | nil => cases hq
  | cons d ds ih =>
    have hload : T.rel e m.store (Store.load d m.store).2 := rel_load d m.store
    have hdatum : T.rel e m.store ((evalDatum cfg e d).execute m).2.store := rel_evalDatum d
    have hrun := execute_evalDatum cfg e d m
    rw [callsOf] at hq
    rw [evalData]
    rcases hout : (Call.ofDatum e m d).run (evaluate cfg) with ⟨f | c, m'⟩
    · rw [hout] at hrun hq
      obtain rfl := List.mem_singleton.1 hq
      rw [execute_bind_error hrun, hout]
      exact ⟨rfl, hload, T.refl e _⟩
    · rw [hout] at hrun hq
      rw [hrun] at hdatum
      rw [execute_bind_ok hrun]
      rcases List.mem_cons.1 hq with rfl | hq
      · rw [hout]
        exact ⟨rfl, hload, rel_evalData c ds⟩
      · obtain ⟨hscope, hbefore, hafter⟩ := ih hq c
        exact ⟨hscope, T.trans hdatum hbefore, hafter⟩

theorem rel_evalSource (code : Text) :
    T.rel e m.store ((evalSource cfg e code).execute m).2.store := by
  rw [execute_evalSource]
  split
  · exact T.refl e _
  · split
    · exact rel_evalDatum _
    · exact T.addList e m.store []

theorem rel_loadSource (code : Text) :
    T.rel e m.store ((loadSource cfg e code).execute m).2.store := by
  rw [execute_loadSource]
  exact T.trans (T.addList e m.store [])
    (rel_evalData (m := { m with store := (m.store.addList []).2 }) _ _)

theorem rel_perform (s : Session) (c : Command) :
    T.rel s.root s.store (s.perform cfg c).store := by
  cases c with
  | eval code => exact rel_evalSource (m := ⟨s.store, #[]⟩) code
  | load code => exact rel_loadSource (m := ⟨s.store, #[]⟩) code
  | reset => exact rel_addRoot s.store

theorem rel_calls {s : Session} {c : Command} {q : Call} (hq : q ∈ s.calls cfg c) :
    q.scope = s.root ∧ T.rel s.root s.store q.machine.store ∧
      T.rel s.root (q.run (evaluate cfg)).2.store (s.perform cfg c).store := by
  cases c with
  | eval code =>
    simp only [Session.perform, Session.eval, Session.run, execute_evalSource]
    rw [Session.calls, Command.data] at hq
    rcases hp : Program.parse code with f | p
    · simp [hp, callsOf] at hq
    · rcases hentry : p.entry with - | d
      · simp [hp, hentry, callsOf] at hq
      · simp only [hp, hentry, Option.toList_some, callsOf_singleton, List.mem_singleton] at hq ⊢
        obtain rfl := hq
        exact ⟨rfl, rel_load d s.store, T.refl _ _⟩
  | load code =>
    obtain ⟨hscope, hbefore, hafter⟩ := T.rel_callsOf hq (s.store.addList []).1
    simp only [Session.perform, Session.load, Session.run, execute_loadSource]
    exact ⟨hscope, T.trans (T.addList _ _ []) hbefore, hafter⟩
  | reset => cases hq

end Effect

end LittleLisp
