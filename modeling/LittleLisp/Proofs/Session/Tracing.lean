import LittleLisp.Proofs.Evaluator.Tracing
import LittleLisp.Proofs.Semantics.Agreement
import LittleLisp.Proofs.Session.Answers
import LittleLisp.Proofs.Session.Safety
import LittleLisp.Proofs.Store.Describing

/-!
Tracing makes no difference. Two computations agree if they have the same outcome on every store,
whatever was noted before. Everything that the evaluator is built from keeps agreement, and noting
events agrees with not noting them; so with equal budgets a traced session and one that is not go
through the same results and stores. With different budgets they do so as long as no budget is
exhausted. What a traced session notes of a call that has returned is the description of its value,
which exists even if the value is a list that holds itself.
-/

namespace LittleLisp

open EvalM Store

namespace EvalM

variable {α β : Type} {lax : Prop}

/-- The outcomes are the same, whatever was noted before. If `lax` holds, one of the two may exhaust
its budget instead. -/
def Agrees (lax : Prop) (x y : EvalM α) : Prop :=
  ∀ s trace trace', outcome x ⟨s, trace⟩ = outcome y ⟨s, trace'⟩ ∨
    lax ∧ ((outcome x ⟨s, trace⟩).1 = .error .tooDeep ∨
      (outcome y ⟨s, trace'⟩).1 = .error .tooDeep)

theorem Quiet.agrees {x : EvalM α} (h : x.Quiet) : Agrees lax x x := by
  intro s trace trace'
  exact .inl (by simp only [outcome, h s trace, h s trace'])

theorem Agrees.bind {x y : EvalM α} {f g : α → EvalM β} (hxy : Agrees lax x y)
    (hfg : ∀ a, Agrees lax (f a) (g a)) : Agrees lax (x >>= f) (y >>= g) := by
  intro s trace trace'
  have h := hxy s trace trace'
  rcases hx : x.execute ⟨s, trace⟩ with ⟨rx, ⟨sx, tx⟩⟩
  rcases hy : y.execute ⟨s, trace'⟩ with ⟨ry, ⟨sy, ty⟩⟩
  simp only [outcome, hx, hy] at h
  rcases h with h | ⟨hlax, rfl | rfl⟩
  · obtain ⟨rfl, rfl⟩ := Prod.mk.inj h
    cases rx with
    | error f =>
      exact .inl (by simp only [outcome, execute_bind_error hx, execute_bind_error hy])
    | ok a =>
      simp only [outcome, execute_bind_ok hx, execute_bind_ok hy]
      exact hfg a sx tx ty
  -- A budget that the first part exhausts is exhausted for the whole.
  · exact .inr ⟨hlax, .inl (by simp only [outcome, execute_bind_error hx])⟩
  · exact .inr ⟨hlax, .inr (by simp only [outcome, execute_bind_error hy])⟩

theorem agrees_traceEvent (cfg cfg' : Settings) {event : EvalM Event}
    (h : ∀ s, ∃ v, ∀ trace, event.execute ⟨s, trace⟩ = (.ok v, ⟨s, trace⟩)) :
    Agrees lax (traceEvent cfg event) (traceEvent cfg' event) := by
  intro s trace trace'
  obtain ⟨v, hv⟩ := h s
  obtain ⟨_, ht⟩ := execute_traceEvent cfg (hv trace)
  obtain ⟨_, ht'⟩ := execute_traceEvent cfg' (hv trace')
  exact .inl (by simp only [outcome, ht, ht'])

end EvalM

section Evaluators

variable {α : Type} {lax : Prop} {cfg cfg' : Settings} {eval eval' : Evaluate}

theorem Parametric.agrees {X : Evaluate → EvalM α} (hX : Parametric cfg (fun _ ↦ False) X)
    (h : ∀ c e, Agrees lax (eval c e) (eval' c e)) : Agrees lax (X eval) (X eval') := by
  induction hX with
  | quiet hx => exact hx.agrees
  | call c e => exact h c e
  | trace hevent =>
    obtain ⟨v, hv, -⟩ := hevent .empty
    exact hv.elim
  | bind _ _ ihX ihF => exact ihX.bind ihF

theorem agrees_invokeTraced (hcompare : cfg.compareDepth = cfg'.compareDepth)
    (h : ∀ c e, Agrees lax (eval c e) (eval' c e)) (fn : FunctionValue) (e : ScopeId)
    (args : List CellId) : Agrees lax (Semantics.invokeTraced cfg eval fn e args)
      (Semantics.invokeTraced cfg' eval' fn e args) := by
  have hinvoke : invoke cfg' eval' fn e args = invoke cfg eval' fn e args := by
    simp only [invoke, hcompare]
  refine (agrees_traceEvent cfg cfg' fun s ↦ ⟨_, fun _ ↦ rfl⟩).bind fun _ ↦ ?_
  rw [hinvoke]
  refine ((Parametric.invoke cfg _ fn e args).agrees h).bind fun v ↦ ?_
  have hreturned : ∀ s, ∃ d, ∀ trace,
      (do return Event.returned fn.name (← snapshot v) : EvalM Event).execute ⟨s, trace⟩ =
        (.ok d, ⟨s, trace⟩) := fun s ↦ ⟨.returned fn.name (s.snapshot v), fun _ ↦ rfl⟩
  exact (agrees_traceEvent cfg cfg' hreturned).bind fun _ ↦ Quiet.agrees fun _ _ ↦ rfl

theorem agrees_evalStep (hcompare : cfg.compareDepth = cfg'.compareDepth)
    (h : ∀ c e, Agrees lax (eval c e) (eval' c e)) (c : CellId) (e : ScopeId) :
    Agrees lax (evalStep cfg eval c e) (evalStep cfg' eval' c e) := by
  refine (Quiet.agrees fun _ _ ↦ rfl).bind fun x ↦ ?_
  cases x with
  | atom name =>
    refine (agrees_traceEvent cfg cfg' fun s ↦ ⟨_, fun _ ↦ rfl⟩).bind fun _ ↦ ?_
    refine (Quiet.agrees fun _ _ ↦ rfl).bind fun s ↦ ?_
    split <;> exact Quiet.agrees fun _ _ ↦ rfl
  | list k =>
    refine (Quiet.agrees fun _ _ ↦ rfl).bind fun cs ↦ ?_
    cases cs with
    | nil => exact Quiet.agrees fun _ _ ↦ rfl
    | cons head args =>
      simp only [evalCall_eq_dispatch]
      refine ((Parametric.dispatch cfg _ e head args).agrees h).bind fun call ↦ ?_
      exact agrees_invokeTraced hcompare h call.1 e call.2
  | _ => exact Quiet.agrees fun _ _ ↦ rfl

theorem agrees_evalDepth (hcompare : cfg.compareDepth = cfg'.compareDepth) (depth : Nat)
    (c : CellId) (e : ScopeId) :
    Agrees lax (evalDepth cfg depth c e) (evalDepth cfg' depth c e) := by
  induction depth generalizing c e with
  | zero => exact Quiet.agrees fun _ _ ↦ rfl
  | succ depth ih => exact agrees_evalStep hcompare ih c e

/-- The rules of evaluation know neither budgets nor events, and both evaluators follow them. -/
theorem agrees_evaluate (cfg cfg' : Settings) (c : CellId) (e : ScopeId) :
    Agrees True (evaluate cfg c e) (evaluate cfg' c e) := by
  intro s trace trace'
  by_cases hdeep : (outcome (evaluate cfg c e) ⟨s, trace⟩).1 = .error .tooDeep
  · exact .inr ⟨trivial, .inl hdeep⟩
  · have hrules := Semantics.evaluates_of_outcome rfl hdeep
    rcases hrules.outcome_or_tooDeep cfg' trace' with hsame | hdeep'
    · exact .inl hsame.symm
    · exact .inr ⟨trivial, .inr hdeep'⟩

end Evaluators

structure Aftermath where
  result : Option (Except Fault CellId)
  session : Session

namespace Session

def result? (cfg : Settings) (s : Session) : Command → Option (Except Fault CellId)
  | .eval code => some (s.eval cfg code).1.result
  | .load code => some (s.load cfg code).1.result
  | .reset => none

def undergo (cfg : Settings) (s : Session) (c : Command) : Aftermath × Session :=
  (⟨s.result? cfg c, s.perform cfg c⟩, s.perform cfg c)

end Session

def Aftermath.TooDeep (a : Aftermath) : Prop := a.result = some (.error .tooDeep)

theorem run_eq_or {lax : Prop} {s : Session} {x y : ScopeId → EvalM CellId}
    (h : Agrees lax (x s.root) (y s.root)) :
    ((s.run x).1.result = (s.run y).1.result ∧ (s.run x).2 = (s.run y).2) ∨
      lax ∧ ((s.run x).1.result = .error .tooDeep ∨ (s.run y).1.result = .error .tooDeep) := by
  rcases h s.store #[] #[] with hsame | hdeep
  · obtain ⟨hresult, hstore⟩ := Prod.mk.inj hsame
    exact .inl ⟨hresult, congrArg (Session.mk · s.root) hstore⟩
  · exact .inr hdeep

/-- Two ways to respond that differ only where one of the answers has a property give the same
conversation, or an answer that has it. -/
theorem converse_eq_or {σ γ α : Type} {lax : Prop} {respond respond' : σ → γ → α × σ}
    {P : α → Prop} (h : ∀ s c, respond s c = respond' s c ∨
      lax ∧ (P (respond s c).1 ∨ P (respond' s c).1)) (s : σ) (cs : List γ) :
    converse respond s cs = converse respond' s cs ∨
      lax ∧ ((∃ a ∈ (converse respond s cs).1, P a) ∨
        ∃ a ∈ (converse respond' s cs).1, P a) := by
  induction cs generalizing s with
  | nil => exact .inl rfl
  | cons c cs ih =>
    simp only [converse_cons, List.exists_mem_cons_iff]
    rcases h s c with hsame | ⟨hlax, hP | hP⟩
    · rw [hsame]
      rcases ih (respond' s c).2 with hrest | ⟨hlax, hP | hP⟩
      · exact .inl (by rw [hrest])
      · exact .inr ⟨hlax, .inl (.inr hP)⟩
      · exact .inr ⟨hlax, .inr (.inr hP)⟩
    · exact .inr ⟨hlax, .inl (.inl hP)⟩
    · exact .inr ⟨hlax, .inr (.inl hP)⟩

section Sessions

variable {lax : Prop} {cfg cfg' : Settings}
  (h : ∀ c e, Agrees lax (evaluate cfg c e) (evaluate cfg' c e))
include h

theorem agrees_evalDatum (root : ScopeId) (d : Datum) :
    Agrees lax (evalDatum cfg root d) (evalDatum cfg' root d) :=
  (Quiet.agrees fun _ _ ↦ rfl).bind fun c ↦ h c root

theorem agrees_evalSource (root : ScopeId) (code : Text) :
    Agrees lax (evalSource cfg root code) (evalSource cfg' root code) := by
  refine (Quiet.agrees fun _ _ ↦ rfl).bind fun p ↦ ?_
  cases p.entry with
  | none => exact Quiet.agrees fun _ _ ↦ rfl
  | some d => exact agrees_evalDatum h root d

theorem agrees_evalData (root : ScopeId) (r : CellId) (ds : List Datum) :
    Agrees lax (evalData cfg root r ds) (evalData cfg' root r ds) := by
  induction ds generalizing r with
  | nil => exact Quiet.agrees fun _ _ ↦ rfl
  | cons d ds ih => exact (agrees_evalDatum h root d).bind ih

theorem agrees_loadSource (root : ScopeId) (code : Text) :
    Agrees lax (loadSource cfg root code) (loadSource cfg' root code) := by
  rcases hall : (TokenStream.ofLexed (lex code)).all with ⟨ds, fault, rest⟩
  simp only [loadSource, hall]
  refine (Quiet.agrees fun _ _ ↦ rfl).bind fun r ↦ (agrees_evalData h root r ds).bind fun v ↦ ?_
  cases fault <;> exact Quiet.agrees fun _ _ ↦ rfl

theorem undergo_eq_or (s : Session) (c : Command) :
    s.undergo cfg c = s.undergo cfg' c ∨
      lax ∧ ((s.undergo cfg c).1.TooDeep ∨ (s.undergo cfg' c).1.TooDeep) := by
  cases c with
  | eval code =>
    have hrun := run_eq_or (x := (evalSource cfg · code)) (y := (evalSource cfg' · code))
      (agrees_evalSource h s.root code)
    simpa [Session.undergo, Session.result?, Session.perform, Session.eval, Aftermath.TooDeep]
      using hrun
  | load code =>
    have hrun := run_eq_or (x := (loadSource cfg · code)) (y := (loadSource cfg' · code))
      (agrees_loadSource h s.root code)
    simpa [Session.undergo, Session.result?, Session.perform, Session.load, Aftermath.TooDeep]
      using hrun
  | reset => exact .inl rfl

end Sessions

theorem Call.Applies.back?_trace {cfg : Settings} {depth : Nat} {p : Call} {fn : FunctionValue}
    {args : List CellId} {m m' : Machine} {v : CellId} (h : p.Applies cfg depth fn args m)
    (ht : cfg.traced = true) (hrun : p.run (evalDepth cfg (depth + 1)) = (.ok v, m')) :
    m'.trace.back? = some (.returned fn.name (m'.store.snapshot v)) := by
  rw [h.run_eq, execute_invokeTraced ht _ ⟨depth, fn, args⟩] at hrun
  split at hrun
  · cases hrun
    exact Array.back?_push ..
  · cases hrun

/-- Tracing does not influence evaluation. With equal budgets, a session gives the same result for
every command and is the same after it whether it is traced or not, exhausted budgets included. With
other budgets this is so for all commands that neither session is too deep for. And where a traced
session sees a call return, it notes the description of the value: there is exactly one, also if
the value is a list that holds itself. -/
theorem tracing_makes_no_difference (cfg cfg' : Settings) :
    (cfg.evalDepth = cfg'.evalDepth → cfg.compareDepth = cfg'.compareDepth →
      ∀ (s : Session) (cs : List Command),
        converse (Session.undergo cfg) s cs = converse (Session.undergo cfg') s cs) ∧
    (∀ (s : Session) (cs : List Command),
      (∀ a ∈ (converse (Session.undergo cfg) s cs).1, ¬ a.TooDeep) →
      (∀ a ∈ (converse (Session.undergo cfg') s cs).1, ¬ a.TooDeep) →
        converse (Session.undergo cfg) s cs = converse (Session.undergo cfg') s cs) ∧
    (cfg.traced = true → ∀ es q p depth fn args m m' v, Session.Begins cfg es q →
      q.Hands cfg (depth + 1) p → p.Applies cfg depth fn args m →
      p.run (evalDepth cfg (depth + 1)) = (.ok v, m') →
        ∃ d, (∀ d', m'.store.Describes [] v d' ↔ d' = d) ∧
          m'.trace.back? = some (.returned fn.name d)) := by
  refine ⟨?_, ?_, ?_⟩
  · intro heval hcompare s cs
    have hevaluate : ∀ c e, Agrees False (evaluate cfg c e) (evaluate cfg' c e) := by
      intro c e
      rw [evaluate, evaluate, heval]
      exact agrees_evalDepth hcompare cfg'.evalDepth c e
    rcases converse_eq_or (undergo_eq_or hevaluate) s cs with hsame | ⟨hlax, -⟩
    · exact hsame
    · exact hlax.elim
  · intro s cs hne hne'
    rcases converse_eq_or (undergo_eq_or (agrees_evaluate cfg cfg')) s cs with
      hsame | ⟨-, ⟨a, ha, hdeep⟩ | ⟨a, ha, hdeep⟩⟩
    · exact hsame
    · exact absurd hdeep (hne a ha)
    · exact absurd hdeep (hne' a ha)
  · intro ht es q p depth fn args m m' v hbegins hhands happlies hrun
    have hbuilt := (Session.Moment.returned hbegins hhands).built
    rw [hrun] at hbuilt
    exact ⟨m'.store.snapshot v, describes_iff hbuilt.whole.wellFormed v,
      happlies.back?_trace ht hrun⟩

theorem not_tooDeep_of_isOk {as : List Aftermath}
    (h : (as.all fun a ↦ a.result.all Except.isOk) = true) : ∀ a ∈ as, ¬ a.TooDeep := by
  intro a ha hdeep
  have hok := List.all_eq_true.1 h a ha
  rw [show a.result = some (.error .tooDeep) from hdeep] at hok
  cases hok

theorem execute_of_toOption {α : Type} {x : EvalM α} {m : Machine} {a : α}
    (h : (x.execute m).1.toOption = some a) : x.execute m = (.ok a, (x.execute m).2) := by
  rcases hx : x.execute m with ⟨f | b, m'⟩ <;> rw [hx] at h <;> cases h
  rfl

def pushOntoItself : Text := "((lambda (x) (push x x)) \x27(#t))"

def tracedRun : Settings := { evalDepth := 3, traced := true }

def outermost : Call :=
  .ofDatum 0 ⟨Session.start.store, #[]⟩
    (.list [.list [.atom "lambda", .list [.atom "x"], .list [.atom "push", .atom "x", .atom "x"]],
      .quoted (.list [.bool true])])

theorem begins_outermost : Session.Begins tracedRun [outermost] outermost := by
  have hdata : (Command.eval pushOntoItself).data = [.list [.list [.atom "lambda",
      .list [.atom "x"], .list [.atom "push", .atom "x", .atom "x"]],
      .quoted (.list [.bool true])]] := rfl
  have hcalls : Session.start.calls tracedRun (.eval pushOntoItself) = [] ++ outermost :: [] := by
    rw [Session.calls, hdata, callsOf_singleton]
    rfl
  exact .command .start hcalls

theorem applies_outermost : ∃ m, outermost.Applies tracedRun 2
    ⟨"lambda", .normal, .closure 1 ["x"] 21⟩ [24] m :=
  ⟨_, 4, 22, [25], 27, _, by decide +kernel, by decide +kernel,
    execute_of_toOption (by decide +kernel), by decide +kernel,
    execute_of_toOption (by decide +kernel)⟩

theorem run_outermost : outermost.run (evalDepth tracedRun 3) =
    (.ok 24, (outermost.run (evalDepth tracedRun 3)).2) := execute_of_toOption (by decide +kernel)

theorem facts_outermost :
    let after := (outermost.run (evalDepth tracedRun 3)).2
    after.store.cell 24 = .list 3 ∧ after.store.items 3 = [23, 24] ∧
      after.trace.back?.map Event.message =
        some ("lambda returned ListCell([Bool(True), ListCell(...)])" : Text) := by
  decide +kernel

/-- The call ends in a list that holds itself, and its description is noted; a session with a larger
budget and without tracing is no different. -/
theorem tracing_pushOntoItself :
    let untraced : Settings := { evalDepth := 4 }
    let after := (outermost.run (evalDepth tracedRun 3)).2
    converse (Session.undergo tracedRun) .start [.eval pushOntoItself, .reset] =
        converse (Session.undergo { tracedRun with traced := false }) .start
          [.eval pushOntoItself, .reset] ∧
      converse (Session.undergo tracedRun) .start [.eval pushOntoItself] =
        converse (Session.undergo untraced) .start [.eval pushOntoItself] ∧
      after.store.cell 24 = .list 3 ∧ after.store.items 3 = [23, 24] ∧
      (∃ d, (∀ d', after.store.Describes [] 24 d' ↔ d' = d) ∧
        after.trace.back? = some (.returned "lambda" d)) ∧
      after.trace.back?.map Event.message =
        some ("lambda returned ListCell([Bool(True), ListCell(...)])" : Text) := by
  intro untraced after
  obtain ⟨hequal, -, -⟩ := tracing_makes_no_difference tracedRun { tracedRun with traced := false }
  obtain ⟨-, hother, hnoted⟩ := tracing_makes_no_difference tracedRun untraced
  obtain ⟨m, happlies⟩ := applies_outermost
  obtain ⟨hcell, hitems, hmessage⟩ := facts_outermost
  refine ⟨hequal rfl rfl _ _, ?_, hcell, hitems, ?_, hmessage⟩
  · exact hother _ _ (not_tooDeep_of_isOk (by decide +kernel))
      (not_tooDeep_of_isOk (by decide +kernel))
  · exact hnoted rfl _ _ _ _ _ _ _ _ _ begins_outermost .self happlies run_outermost

end LittleLisp
