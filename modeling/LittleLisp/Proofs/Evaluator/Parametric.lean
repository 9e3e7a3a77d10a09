import LittleLisp.Proofs.Evaluator.Calls
import LittleLisp.Proofs.Semantics.Soundness

/-!
The evaluator uses the evaluator of its parts in one way only: it calls it, and fails if the call
fails. Besides it reads and changes the store and notes events, and nothing depends on the events
noted before. From this follows, for whatever evaluator it is given, that a fault of a call is the
fault of the whole, that the events noted before make no difference, and that a larger budget gives
the same outcome unless the smaller one was exhausted.
-/

namespace LittleLisp

open EvalM

variable {α β : Type}

/-- Neither the events noted before nor the evaluator matter, and no event is noted. -/
def EvalM.Quiet (x : EvalM α) : Prop :=
  ∀ (s : Store) (trace : Array Event), x.execute ⟨s, trace⟩ =
    ((x.execute ⟨s, #[]⟩).1, ⟨(x.execute ⟨s, #[]⟩).2.store, trace⟩)

/-- A computation over an evaluator that only calls it; the events that it notes are in `E`. -/
inductive Parametric (cfg : Settings) (E : Event → Prop) :
    {α : Type} → (Evaluate → EvalM α) → Prop
  | quiet {α : Type} {x : EvalM α} (h : x.Quiet) : Parametric cfg E fun _ ↦ x
  | call (c : CellId) (e : ScopeId) : Parametric cfg E fun eval ↦ eval c e
  | trace {event : EvalM Event}
      (h : ∀ s, ∃ v, E v ∧ ∀ trace, event.execute ⟨s, trace⟩ = (.ok v, ⟨s, trace⟩)) :
      Parametric cfg E fun _ ↦ traceEvent cfg event
  | bind {α β : Type} {X : Evaluate → EvalM α} {F : Evaluate → α → EvalM β}
      (first : Parametric cfg E X) (next : ∀ a, Parametric cfg E fun eval ↦ F eval a) :
      Parametric cfg E fun eval ↦ X eval >>= F eval

namespace Call.RequestedBy

variable {X : Evaluate → EvalM α} {F : Evaluate → α → EvalM β} {eval eval' : Evaluate}
  {m m' : Machine} {p : Call} {f : Fault}

theorem bind_cases (h : p.RequestedBy (fun eval ↦ X eval >>= F eval) eval m) :
    p.RequestedBy X eval m ∨ ∃ a m₁, (X eval).execute m = (.ok a, m₁) ∧
      p.RequestedBy (fun eval ↦ F eval a) eval m₁ := by
  obtain ⟨eval', hagree, hne⟩ := h
  by_cases hsame : (X eval').execute m = (X eval).execute m
  · refine .inr ?_
    rcases hrun : (X eval).execute m with ⟨f | a, m₁⟩ <;> rw [hrun] at hsame
    · exact absurd (by rw [execute_bind_error hsame, execute_bind_error hrun]) hne
    · refine ⟨a, m₁, rfl, eval', hagree, ?_⟩
      rwa [execute_bind_ok hsame, execute_bind_ok hrun] at hne
  · exact .inl ⟨eval', hagree, hsame⟩

theorem not_const {x : EvalM α} (h : p.RequestedBy (fun _ ↦ x) eval m) : False := by
  obtain ⟨_, -, hne⟩ := h
  exact hne rfl

theorem eq_of_call {c : CellId} {e : ScopeId} (h : p.RequestedBy (fun eval ↦ eval c e) eval m) :
    p = ⟨c, e, m⟩ := by
  obtain ⟨eval', hagree, hne⟩ := h
  exact Classical.byContradiction fun hp ↦ hne (hagree ⟨c, e, m⟩ (Ne.symm hp))

variable {cfg : Settings} {E : Event → Prop}

/-- A fault of a call that is made is the fault of the whole computation. -/
theorem fails (hX : Parametric cfg E X) (h : p.RequestedBy X eval m)
    (hagree : ∀ q ≠ p, q.run eval' = q.run eval) (hf : p.run eval' = (.error f, m')) :
    (X eval').execute m = (.error f, m') := by
  induction hX generalizing m with
  | quiet | trace => exact h.not_const.elim
  | call c e =>
    obtain rfl := h.eq_of_call
    exact hf
  | @bind _ _ X F _ _ ihX ihF =>
    rcases h.bind_cases with hp | ⟨a, m₁, hrun, hp⟩
    · exact execute_bind_error (ihX hp)
    · by_cases hsame : (X eval').execute m = (X eval).execute m
      · rw [execute_bind_ok (hsame.trans hrun)]
        exact ihF a hp
      · exact execute_bind_error (ihX ⟨eval', hagree, hsame⟩)

theorem fault (hX : Parametric cfg E X) (h : p.RequestedBy X eval m)
    (hf : p.run eval = (.error f, m')) : (X eval).execute m = (.error f, m') :=
  h.fails hX (fun _ _ ↦ rfl) hf

theorem bind_left (hX : Parametric cfg E X) (h : p.RequestedBy X eval m) :
    p.RequestedBy (fun eval ↦ X eval >>= F eval) eval m := by
  refine requestedBy_of_fails fun f ↦ execute_bind_error ?_
  exact h.fails hX (fun q hq ↦ run_failingAt_of_ne hq f eval) (run_failingAt_self p f eval)

theorem bind_right {a : α} {m₁ : Machine} (hX : Parametric cfg E X)
    (hF : Parametric cfg E fun eval ↦ F eval a) (hrun : (X eval).execute m = (.ok a, m₁))
    (h : p.RequestedBy (fun eval ↦ F eval a) eval m₁) :
    p.RequestedBy (fun eval ↦ X eval >>= F eval) eval m := by
  refine requestedBy_of_fails fun f ↦ ?_
  have hagree : ∀ q ≠ p, q.run (p.failingAt f eval) = q.run eval :=
    fun q hq ↦ run_failingAt_of_ne hq f eval
  have hself := run_failingAt_self p f eval
  by_cases hsame : (X (p.failingAt f eval)).execute m = (X eval).execute m
  · rw [execute_bind_ok (hsame.trans hrun)]
    exact h.fails hF hagree hself
  · have hp : p.RequestedBy X eval m := ⟨p.failingAt f eval, hagree, hsame⟩
    exact execute_bind_error (hp.fails hX hagree hself)

end Call.RequestedBy

/-- What was noted before makes no difference, and events are noted after it. -/
def EvalM.Oblivious (x : EvalM α) : Prop :=
  ∀ s, ∃ r s' events, ∀ trace, x.execute ⟨s, trace⟩ = (r, ⟨s', trace ++ events⟩)

/-- The second evaluator gives what the first gives, whose budget may be exhausted sooner. -/
def Exceeds (eval eval' : Evaluate) : Prop :=
  ∀ q : Call, (q.run eval).1 ≠ .error .tooDeep → q.run eval' = q.run eval

namespace Parametric

variable {cfg : Settings} {E : Event → Prop} {X : Evaluate → EvalM α} {eval eval' : Evaluate}
  {m : Machine}

theorem oblivious (hX : Parametric cfg E X) (h : ∀ c e, (eval c e).Oblivious) :
    (X eval).Oblivious := by
  induction hX with
  | quiet hx => exact fun s ↦ ⟨_, _, #[], fun trace ↦ by rw [hx s trace, Array.append_empty]⟩
  | call c e => exact h c e
  | trace hevent =>
    intro s
    obtain ⟨v, -, hv⟩ := hevent s
    by_cases ht : cfg.traced
    · refine ⟨.ok (), s, #[v], fun trace ↦ ?_⟩
      simp [traceEvent, ht, execute_bind_ok (hv trace)]
    · refine ⟨.ok (), s, #[], fun trace ↦ ?_⟩
      simp [traceEvent, ht]
  | bind _ _ ihX ihF =>
    intro s
    obtain ⟨r, s₁, events, hrun⟩ := ihX s
    cases r with
    | error f => exact ⟨.error f, s₁, events, fun trace ↦ execute_bind_error (hrun trace)⟩
    | ok a =>
      obtain ⟨r, s₂, events', hnext⟩ := ihF a s₁
      refine ⟨r, s₂, events ++ events', fun trace ↦ ?_⟩
      rw [execute_bind_ok (hrun trace), hnext, Array.append_assoc]

theorem exceeds (hX : Parametric cfg E X) (h : Exceeds eval eval')
    (hne : ((X eval).execute m).1 ≠ .error .tooDeep) :
    (X eval').execute m = (X eval).execute m := by
  induction hX generalizing m with
  | quiet | trace => rfl
  | call c e => exact h ⟨c, e, m⟩ hne
  | @bind _ _ X F _ _ ihX ihF =>
    rcases hrun : (X eval).execute m with ⟨f | a, m₁⟩
    · rw [execute_bind_error hrun] at hne ⊢
      have hf : ((X eval).execute m).1 ≠ .error .tooDeep := by
        rw [hrun]
        exact fun h ↦ hne (congrArg Except.error (Except.error.inj h))
      exact execute_bind_error ((ihX hf).trans hrun)
    · rw [execute_bind_ok hrun] at hne ⊢
      rw [execute_bind_ok ((ihX (by rw [hrun]; nofun)).trans hrun)]
      exact ihF a hne

section Instances

variable (cfg E)

theorem readAll (content? : Cell → Option α) (f : Datum → Fault) (cs : List CellId) :
    Parametric cfg E fun _ ↦ readAll content? f cs := by
  induction cs with
  | nil => exact .quiet fun _ _ ↦ rfl
  | cons c cs ih =>
    refine .bind (.quiet fun _ _ ↦ rfl) fun x ↦ ?_
    cases content? x with
    | some a => exact .bind ih fun as ↦ .quiet fun _ _ ↦ rfl
    | none => exact .quiet fun _ _ ↦ rfl

theorem listOperand (op : Builtin) (l : CellId) : Parametric cfg E fun _ ↦ op.listOperand l := by
  refine .bind (.quiet fun _ _ ↦ rfl) fun x ↦ ?_
  cases x <;> exact .quiet fun _ _ ↦ rfl

theorem builtin (op : Builtin) (compareDepth : Nat) (args : List CellId) :
    Parametric cfg E fun _ ↦ op.apply compareDepth args := by
  cases op with
  | add | mul => exact .bind (readAll cfg E _ _ args) fun xs ↦ .quiet fun _ _ ↦ rfl
  | sub | div =>
    refine .bind (readAll cfg E _ _ args) fun xs ↦ ?_
    cases xs <;> exact .quiet fun _ _ ↦ rfl
  | list => exact .quiet fun _ _ ↦ rfl
  | push =>
    simp only [Builtin.apply]
    rw [Builtin.applyPush.eq_def]
    split
    · exact .bind (listOperand cfg E .push _) fun h ↦ .quiet fun _ _ ↦ rfl
    · exact .quiet fun _ _ ↦ rfl
  | car =>
    simp only [Builtin.apply]
    rw [Builtin.applyCar.eq_def]
    split
    · refine .bind (listOperand cfg E .car _) fun h ↦ .bind (.quiet fun _ _ ↦ rfl) fun s ↦ ?_
      split <;> exact .quiet fun _ _ ↦ rfl
    · exact .quiet fun _ _ ↦ rfl
  | cdr =>
    simp only [Builtin.apply]
    rw [Builtin.applyCdr.eq_def]
    split
    · refine .bind (listOperand cfg E .cdr _) fun h ↦ .bind (.quiet fun _ _ ↦ rfl) fun s ↦ ?_
      split <;> exact .quiet fun _ _ ↦ rfl
    · exact .quiet fun _ _ ↦ rfl
  | eq =>
    simp only [Builtin.apply]
    rw [Builtin.applyEq.eq_def]
    split
    · refine .bind (.quiet fun _ _ ↦ rfl) fun s ↦ ?_
      split <;> exact .quiet fun _ _ ↦ rfl
    · exact .quiet fun _ _ ↦ rfl

theorem symbol (form : SpecialForm) (c : CellId) : Parametric cfg E fun _ ↦ form.symbol c := by
  refine .bind (.quiet fun _ _ ↦ rfl) fun x ↦ ?_
  cases x <;> exact .quiet fun _ _ ↦ rfl

theorem parameters (form : SpecialForm) (c : CellId) :
    Parametric cfg E fun _ ↦ form.parameters c := by
  refine .bind (.quiet fun _ _ ↦ rfl) fun x ↦ ?_
  cases x with
  | list h => exact .bind (.quiet fun _ _ ↦ rfl) (readAll cfg E _ _)
  | _ => exact .quiet fun _ _ ↦ rfl

theorem sequenceFrom (e : ScopeId) (c : CellId) (cs : List CellId) :
    Parametric cfg E fun eval ↦ SpecialForm.sequenceFrom eval e c cs := by
  induction cs generalizing c with
  | nil => exact .call c e
  | cons c' cs ih => exact .bind (.call c e) fun _ ↦ ih c'

theorem form (op : SpecialForm) (e : ScopeId) (args : List CellId) :
    Parametric cfg E fun eval ↦ op.apply eval e args := by
  cases op with
  | define =>
    simp only [SpecialForm.apply]
    simp only [SpecialForm.applyDefine.eq_def]
    split
    · exact .bind (symbol cfg E .define _) fun n ↦ .bind (.call _ e) fun v ↦ .quiet fun _ _ ↦ rfl
    · exact .quiet fun _ _ ↦ rfl
  | defineFunction =>
    simp only [SpecialForm.apply]
    simp only [SpecialForm.applyDefineFunction.eq_def]
    split
    · refine .bind (symbol cfg E .defineFunction _) fun n ↦ ?_
      refine .bind (parameters cfg E .defineFunction _) fun ps ↦ ?_
      exact .bind (.quiet fun _ _ ↦ rfl) fun fn ↦ .quiet fun _ _ ↦ rfl
    · exact .quiet fun _ _ ↦ rfl
  | sequence =>
    cases args with
    | nil => exact .quiet fun _ _ ↦ rfl
    | cons c cs => exact sequenceFrom cfg E e c cs
  | branch =>
    simp only [SpecialForm.apply]
    simp only [SpecialForm.applyBranch.eq_def]
    split
    · refine .bind (.call _ e) fun c ↦ .bind (.quiet fun _ _ ↦ rfl) fun x ↦ ?_
      split
      · exact .call _ e
      · exact .call _ e
      · exact .quiet fun _ _ ↦ rfl
    · exact .quiet fun _ _ ↦ rfl
  | lambda =>
    simp only [SpecialForm.apply]
    simp only [SpecialForm.applyLambda.eq_def]
    split
    · refine .bind (parameters cfg E .lambda _) fun ps ↦ ?_
      exact .bind (.quiet fun _ _ ↦ rfl) fun captured ↦ .quiet fun _ _ ↦ rfl
    · exact .quiet fun _ _ ↦ rfl

theorem host (op : HostOperation) (e : ScopeId) (args : List CellId) :
    Parametric cfg E fun eval ↦ op.apply eval e args := by
  cases op with
  | collect | count => exact .quiet fun _ _ ↦ rfl
  | first =>
    simp only [HostOperation.apply]
    split <;> exact .quiet fun _ _ ↦ rfl
  | evaluateLast =>
    simp only [HostOperation.apply]
    split
    · exact .call _ e
    · exact .quiet fun _ _ ↦ rfl

theorem invoke (fn : FunctionValue) (e : ScopeId) (args : List CellId) :
    Parametric cfg E fun eval ↦ invoke cfg eval fn e args := by
  simp only [LittleLisp.invoke]
  split
  case h_1 op _ => exact builtin cfg E op cfg.compareDepth args
  case h_2 op _ => exact form cfg E op e args
  case h_3 op _ => exact host cfg E op e args
  case h_4 captured params body _ =>
    refine .bind ?_ fun frame ↦ .call body frame
    simp only [bindArguments]
    split <;> exact .quiet fun _ _ ↦ rfl

theorem evalEach (e : ScopeId) (cs : List CellId) :
    Parametric cfg E fun eval ↦ evalEach eval e cs := by
  induction cs with
  | nil => exact .quiet fun _ _ ↦ rfl
  | cons c cs ih => exact .bind (.call c e) fun v ↦ .bind ih fun vs ↦ .quiet fun _ _ ↦ rfl

end Instances

end Parametric

open Semantics (invokeTraced)

def dispatch (eval : Evaluate) (e : ScopeId) (head : CellId) (args : List CellId) :
    EvalM (FunctionValue × List CellId) := do
  let f ← eval head e
  match ← cell f with
  | .function fn => return (fn, ← if fn.kind = .normal then evalEach eval e args else pure args)
  | _ => reject .notCallable f

theorem evalCall_eq_dispatch (cfg : Settings) (eval : Evaluate) (e : ScopeId) (head : CellId)
    (args : List CellId) : evalCall cfg eval e head args =
      dispatch eval e head args >>= fun call ↦ invokeTraced cfg eval call.1 e call.2 := by
  rw [Semantics.evalCall_eq, dispatch, bind_assoc]
  congr 1
  funext f
  rw [bind_assoc]
  congr 1
  funext x
  cases x with
  | function fn => by_cases hk : fn.kind = .normal <;> simp [hk]
  | _ => rfl

namespace Parametric

variable (cfg : Settings) (E : Event → Prop)

theorem dispatch (e : ScopeId) (head : CellId) (args : List CellId) :
    Parametric cfg E fun eval ↦ dispatch eval e head args := by
  refine .bind (.call head e) fun f ↦ .bind (.quiet fun _ _ ↦ rfl) fun x ↦ ?_
  cases x with
  | function fn =>
    by_cases hk : fn.kind = .normal
    · simp only [hk, if_true]
      exact .bind (evalEach cfg E e args) fun _ ↦ .quiet fun _ _ ↦ rfl
    · simp only [hk, if_false]
      exact .quiet fun _ _ ↦ rfl
  | _ => exact .quiet fun _ _ ↦ rfl

theorem invokeTraced (fn : FunctionValue) (e : ScopeId) (args : List CellId) :
    Parametric cfg (fun _ ↦ True) fun eval ↦ invokeTraced cfg eval fn e args := by
  refine .bind (.trace fun s ↦ ⟨_, trivial, fun _ ↦ rfl⟩) fun _ ↦ ?_
  refine .bind (invoke cfg _ fn e args) fun v ↦ ?_
  refine .bind (.trace fun s ↦ ?_) fun _ ↦ .quiet fun _ _ ↦ rfl
  exact ⟨.returned fn.name (s.snapshot v), trivial, fun _ ↦ rfl⟩

theorem evalStep (c : CellId) (e : ScopeId) :
    Parametric cfg (fun _ ↦ True) fun eval ↦ evalStep cfg eval c e := by
  refine .bind (.quiet fun _ _ ↦ rfl) fun x ↦ ?_
  cases x with
  | atom name =>
    refine .bind (.trace fun s ↦ ⟨_, trivial, fun _ ↦ rfl⟩) fun _ ↦ ?_
    refine .bind (.quiet fun _ _ ↦ rfl) fun s ↦ ?_
    split <;> exact .quiet fun _ _ ↦ rfl
  | list h =>
    refine .bind (.quiet fun _ _ ↦ rfl) fun cs ↦ ?_
    cases cs with
    | nil => exact .quiet fun _ _ ↦ rfl
    | cons head args =>
      simp only [evalCall_eq_dispatch]
      exact .bind (dispatch cfg _ e head args) fun call ↦ invokeTraced cfg call.1 e call.2
  | _ => exact .quiet fun _ _ ↦ rfl

end Parametric

theorem oblivious_evalDepth (cfg : Settings) (depth : Nat) (c : CellId) (e : ScopeId) :
    (evalDepth cfg depth c e).Oblivious := by
  induction depth generalizing c e with
  | zero => exact fun s ↦ ⟨.error .tooDeep, s, #[], fun trace ↦ by simp [evalDepth]⟩
  | succ depth ih => exact (Parametric.evalStep cfg c e).oblivious ih

theorem exceeds_evalDepth (cfg : Settings) (depth : Nat) :
    Exceeds (evalDepth cfg depth) (evalDepth cfg (depth + 1)) := by
  induction depth with
  | zero => exact fun q hq ↦ absurd rfl hq
  | succ depth ih => exact fun q hq ↦ (Parametric.evalStep cfg q.cell q.scope).exceeds ih hq

end LittleLisp
