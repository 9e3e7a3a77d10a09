import LittleLisp.Proofs.Evaluator.Bindings
import LittleLisp.Proofs.Evaluator.Tracing
import LittleLisp.Proofs.Renaming.Reach
import LittleLisp.Proofs.Renaming.Session
import LittleLisp.Proofs.Semantics.Soundness
import LittleLisp.Proofs.Session.Effects

namespace LittleLisp

open EvalM Store

namespace Call

variable {cfg : Settings} {depth : Nat} {q p : Call} {fn : FunctionValue} {args : List CellId}
  {m m' : Machine}

theorem Applies.outcome (h : p.Applies cfg depth fn args m) :
    ∃ trace, EvalM.outcome (evalDepth cfg (depth + 1) p.cell p.scope) p.machine =
      EvalM.outcome (invoke cfg (evalDepth cfg depth) fn p.scope args)
        { m with trace := trace } := by
  obtain ⟨trace, htraced⟩ :=
    Semantics.outcome_invokeTraced cfg (evalDepth cfg depth) fn p.scope args m
  refine ⟨trace, Eq.trans ?_ htraced⟩
  have hrun := h.run_eq
  rw [run] at hrun
  simp only [EvalM.outcome, hrun]

theorem Applies.lambda {f : CellId} (h : p.Applies cfg depth fn args m)
    (hfn : fn.executor = .operator (.form .lambda))
    (hrun : p.run (evalDepth cfg (depth + 1)) = (.ok f, m')) :
    ∃ params body, m'.store.cell f =
        .function ⟨SpecialForm.name .lambda, .normal, .closure m.store.scopes.size params body⟩ ∧
      m'.store.scopes = m.store.scopes.push ⟨[], some p.scope⟩ := by
  obtain ⟨trace, houtcome⟩ := h.outcome
  rw [run] at hrun
  simp only [EvalM.outcome, hrun, invoke, hfn, SpecialForm.apply] at houtcome
  obtain ⟨hvalue, hstore⟩ := Prod.mk.inj houtcome
  -- With other than two arguments the form fails.
  rcases args with - | ⟨params, - | ⟨body, - | ⟨more, rest⟩⟩⟩
  · cases hvalue
  · cases hvalue
  · rcases hps : (SpecialForm.parameters .lambda params).execute { m with trace := trace } with
      ⟨fault | ps, m₁⟩
    · rw [SpecialForm.applyLambda, execute_bind_error hps] at hvalue
      cases hvalue
    · have hstill :=
        (Discipline.parameters_still (m := { m with trace := trace }) .lambda params).machine
      rw [hps] at hstill
      cases hstill
      rw [SpecialForm.applyLambda, execute_bind_ok hps] at hvalue hstore
      refine ⟨ps, body, ?_, ?_⟩
      · cases hvalue
        rw [hstore]
        exact cell_addCell _ _
      · rw [hstore]
        rfl
  · cases hvalue

theorem Applies.scopes_le (h : p.Applies cfg depth fn args m) :
    p.machine.store.scopes.size ≤ m.store.scopes.size := by
  obtain ⟨l, head, rest, f, m₁, -, -, hhead, -, hargs⟩ := h
  have hsound := definesHere.sound_evalDepth cfg depth
  have hsame : Effect.AgreeOff p (evalDepth cfg depth) (evalDepth cfg depth) := fun _ _ ↦ rfl
  have h₁ : p.machine.store.scopes.size ≤ m₁.store.scopes.size := by
    have hrel := hsound ⟨head, p.scope, p.machine⟩
    rw [run, hhead] at hrel
    exact hrel.scopes_le
  refine Nat.le_trans h₁ ?_
  by_cases hk : fn.kind = .normal
  · rw [if_pos hk] at hargs
    have hrel : definesHere.rel p.scope m₁.store
        ((evalEach (evalDepth cfg depth) p.scope rest).execute m₁).2.store :=
      (Effect.tracks_evalEach hsound hsame).effect
    rw [hargs] at hrel
    exact hrel.scopes_le
  · rw [if_neg hk] at hargs
    cases hargs
    exact Nat.le_refl _

theorem Hands.scopes_le (h : q.Hands cfg depth p) :
    q.machine.store.scopes.size ≤ p.machine.store.scopes.size :=
  (definesHere.stretches_hands (P := fun s s' ↦ s.scopes.size ≤ s'.scopes.size)
    (fun _ ↦ Nat.le_refl _) Nat.le_trans definesHere.scopes_le h).1

theorem Hands.scope_lt (h : q.Hands cfg depth p) (hq : q.scope < q.machine.store.scopes.size) :
    p.scope < p.machine.store.scopes.size := by
  induction h with
  | self => exact hq
  | part _ makes ih =>
    obtain ⟨hbefore, -, hscope⟩ := definesHere.visits_makes makes
    rcases hscope with hscope | hscope
    · rw [hscope]
      exact Nat.lt_of_lt_of_le ih hbefore.scopes_le
    · exact hscope.2

/-- What is made in scopes that are new to a call lasts beyond the evaluation around it. -/
theorem Hands.scope_kept (h : q.Hands cfg depth p) (hq : q.scope < q.machine.store.scopes.size)
    {e : Nat} {x : Scope} (he : p.machine.store.scopes.size ≤ e)
    (hx : (p.run (evalDepth cfg depth)).2.store.scopes[e]? = some x) :
    (q.run (evaluate cfg)).2.store.scopes[e]? = some x := by
  induction h with
  | self => exact hx
  | @part depth r p outer makes ih =>
    obtain ⟨hbefore, hrest, -⟩ := definesHere.visits_makes makes
    have hle : r.machine.store.scopes.size ≤ e := Nat.le_trans hbefore.scopes_le he
    have hne : e ≠ r.scope := Nat.ne_of_gt (Nat.lt_of_lt_of_le (outer.scope_lt hq) hle)
    exact ih hle (hrest.scope_eq hx hne)

theorem Hands.keepsNames (h : q.Hands cfg depth p) :
    KeepsNames (p.run (evalDepth cfg depth)).2.store (q.run (evaluate cfg)).2.store :=
  (definesHere.stretches_hands .refl .trans KeepsBindings.keepsNames h).2

end Call

namespace Session

variable {cfg : Settings} {s : Session} {cs : List Command} {e captured : ScopeId} {st : Store}

/-- The stores that a session passes through while it performs commands: between commands, and
where the evaluator is called and where it returns. -/
inductive Passes (cfg : Settings) : Session → List Command → Store → Prop
  | between (s : Session) (cs : List Command) : Passes cfg s cs s.store
  | called {s : Session} {c : Command} {q p : Call} {depth : Nat} (cs : List Command)
      (begins : q ∈ s.calls cfg c) (hands : q.Hands cfg depth p) :
      Passes cfg s (c :: cs) p.machine.store
  | returned {s : Session} {c : Command} {q p : Call} {depth : Nat} (cs : List Command)
      (begins : q ∈ s.calls cfg c) (hands : q.Hands cfg depth p) :
      Passes cfg s (c :: cs) (p.run (evalDepth cfg depth)).2.store
  | later {s : Session} {c : Command} {cs : List Command} {st : Store}
      (passes : Passes cfg (s.perform cfg c) cs st) : Passes cfg s (c :: cs) st

/-- While a session performs commands, an unnamed function is made in a scope `e`, and it captures
the scope `captured`. -/
inductive MakesLambda (cfg : Settings) (e captured : ScopeId) : Session → List Command → Prop
  | here {s : Session} {c : Command} {q : Call} {depth : Nat} {cell f body : CellId}
      {before m m' : Machine} {fn : FunctionValue} {args : List CellId} {name : Text} {kind : Kind}
      {params : List Text} (cs : List Command) (begins : q ∈ s.calls cfg c)
      (hands : q.Hands cfg (depth + 1) ⟨cell, e, before⟩)
      (applies : Call.Applies cfg depth ⟨cell, e, before⟩ fn args m)
      (lambda : fn.executor = .operator (.form .lambda))
      (run : Call.run ⟨cell, e, before⟩ (evalDepth cfg (depth + 1)) = (.ok f, m'))
      (value : m'.store.cell f = .function ⟨name, kind, .closure captured params body⟩) :
      MakesLambda cfg e captured s (c :: cs)
  | later {s : Session} {c : Command} {cs : List Command}
      (makes : MakesLambda cfg e captured (s.perform cfg c) cs) :
      MakesLambda cfg e captured s (c :: cs)

theorem keepsNames_converse (cfg : Settings) (s : Session) (cs : List Command) :
    KeepsNames s.store (converse (respond cfg) s cs).2.store := by
  induction cs generalizing s with
  | nil => exact .refl _
  | cons c cs ih =>
    have hrel : KeepsBindings s.root s.store (s.perform cfg c).store :=
      definesHere.rel_perform s c
    rw [converse_cons, respond_snd]
    exact hrel.keepsNames.trans (ih _)

theorem Passes.keepsNames (h : Passes cfg s cs st) :
    KeepsNames st (converse (respond cfg) s cs).2.store := by
  induction h with
  | between s cs => exact keepsNames_converse cfg s cs
  | @called s c q p depth cs begins hands =>
    have hrun := (definesHere.sound_evalDepth cfg depth p).keepsNames
    have hperform := (definesHere.rel_calls begins).2.2.keepsNames
    rw [converse_cons, respond_snd]
    exact ((hrun.trans hands.keepsNames).trans hperform).trans (keepsNames_converse cfg _ cs)
  | returned cs begins hands =>
    have hperform := (definesHere.rel_calls begins).2.2.keepsNames
    rw [converse_cons, respond_snd]
    exact (hands.keepsNames.trans hperform).trans (keepsNames_converse cfg _ cs)
  | later _ ih =>
    rw [converse_cons, respond_snd]
    exact ih

theorem root_perform (cfg : Settings) (s : Session) (c : Command) :
    (s.perform cfg c).root = s.root ∨ (s.perform cfg c).root = s.store.scopes.size := by
  cases c with
  | eval | load => exact .inl rfl
  | reset => exact .inr rfl

theorem root_of_begins {c : Command} {q : Call} (h : q ∈ s.calls cfg c) :
    (s.perform cfg c).root = s.root := by
  cases c with
  | eval | load => rfl
  | reset => cases h

theorem root_lt_perform (hroot : s.root < s.store.scopes.size) (c : Command) :
    (s.perform cfg c).root < (s.perform cfg c).store.scopes.size := by
  have hrel : KeepsBindings s.root s.store (s.perform cfg c).store := definesHere.rel_perform s c
  cases c with
  | eval | load => exact Nat.lt_of_lt_of_le hroot hrel.scopes_le
  | reset =>
    have hnew : (s.store.addScope none).2.scopes.size = s.store.scopes.size + 1 :=
      Array.size_push _
    have hfilled := (definesHere.rel_addOperators (e := s.store.scopes.size) rootFunctions
      (s.store.addScope none).2).scopes_le
    rw [hnew] at hfilled
    exact hfilled

theorem scope_converse {a : Nat} {x : Scope} (hx : s.store.scopes[a]? = some x)
    (ha : a ≠ s.root) (cs : List Command) :
    (converse (respond cfg) s cs).2.store.scopes[a]? = some x := by
  induction cs generalizing s with
  | nil => exact hx
  | cons c cs ih =>
    have hrel : KeepsBindings s.root s.store (s.perform cfg c).store :=
      definesHere.rel_perform s c
    have hlt : a < s.store.scopes.size := (Array.getElem?_eq_some_iff.1 hx).1
    rw [converse_cons, respond_snd]
    refine ih (hrel.scope_eq hx ha) ?_
    rcases root_perform cfg s c with hroot | hroot
    · rwa [hroot]
    · rw [hroot]
      exact Nat.ne_of_lt hlt

theorem MakesLambda.kept (h : MakesLambda cfg e captured s cs)
    (hroot : s.root < s.store.scopes.size) :
    (converse (respond cfg) s cs).2.store.scopes[captured]? = some ⟨[], some e⟩ := by
  induction h with
  | @here s c q depth cell f body before m m' fn args name kind params cs begins hands applies
      lambda run value =>
    obtain ⟨hscope, hbefore, hafter⟩ := definesHere.rel_calls begins
    have hq : s.root < q.machine.store.scopes.size := Nat.lt_of_lt_of_le hroot hbefore.scopes_le
    obtain ⟨ps, b, hclosure, hscopes⟩ := applies.lambda lambda run
    cases hclosure.symm.trans value
    have hmade : (Call.run ⟨cell, e, before⟩ (evalDepth cfg (depth + 1))).2.store.scopes[
        m.store.scopes.size]? = some ⟨[], some e⟩ := by
      rw [run, hscopes, Array.getElem?_push_size]
    have hlater := hands.scope_kept (hscope ▸ hq) applies.scopes_le hmade
    have hne : m.store.scopes.size ≠ s.root :=
      Nat.ne_of_gt (Nat.lt_of_lt_of_le hq (Nat.le_trans hands.scopes_le applies.scopes_le))
    rw [converse_cons, respond_snd]
    refine scope_converse (hafter.scope_eq hlater hne) ?_ cs
    rwa [root_of_begins begins]
  | @later s c cs _ ih =>
    rw [converse_cons, respond_snd]
    exact ih (root_lt_perform hroot c)

end Session

namespace Renaming

theorem identifies_start : ∃ R : Renaming, R.Identifies Session.start.store Session.start.store ∧
    R.scope Session.start.root Session.start.root := by
  obtain ⟨R, hadvances, hroot⟩ := identifies_empty.same.addRoot
  exact ⟨R, identifies_empty.advances hadvances, hroot⟩

theorem Identifies.answers {R : Renaming} {eval eval' : Evaluate} (hE : Evaluators eval eval')
    {s t : Session} (h : R.Identifies s.store t.store) (hroot : R.scope s.root t.root)
    (cs : List Command) :
    (converse (Session.respondBy eval) s cs).1 =
        (converse (Session.respondBy eval') t cs).1 ∧
      ∃ R' : Renaming,
        R'.Identifies (converse (Session.respondBy eval) s cs).2.store
          (converse (Session.respondBy eval') t cs).2.store ∧
        R'.scope (converse (Session.respondBy eval) s cs).2.root
          (converse (Session.respondBy eval') t cs).2.root := by
  induction cs generalizing R s t with
  | nil => exact ⟨rfl, R, h, hroot⟩
  | cons c cs ih =>
    obtain ⟨hanswer, R₁, hadvances, hjoins⟩ := Joins.respondBy ⟨h.same, hroot⟩ hE c
    obtain ⟨hanswers, hafter⟩ := ih (h.advances hadvances) hjoins.root
    rw [converse_cons, converse_cons, hanswer, hanswers]
    exact ⟨rfl, hafter⟩

end Renaming

/-- The scope that an unnamed function captures cannot be observed. Consider any commands, from the
start of a session and with any budgets, and the same commands where unnamed functions capture the
current scope itself, as named ones do. All answers are the same, with the printed results, the
faults and the traces, and the two stores are equal up to a renaming. Whatever scope an unnamed
function captures in the course of the commands, at the end it lies inside the scope where the
function was made and has no bindings, and in every store on the way it is the same or not yet
there. -/
theorem lambda_scope_unobservable (cfg : Settings) (cs : List Command) :
    let s := converse (Session.respond cfg) .start cs
    let t := converse (Session.respondBy (evaluateWith cfg .flat)) .start cs
    s.1 = t.1 ∧
      (∃ R : Renaming, R.Identifies s.2.store t.2.store ∧ R.scope s.2.root t.2.root) ∧
      ∀ e captured : ScopeId, Session.start.MakesLambda cfg e captured cs →
        s.2.store.scopes[captured]? = some ⟨[], some e⟩ ∧
        ∀ st, Session.start.Passes cfg cs st →
          st.scopes[captured]? = none ∨ st.scopes[captured]? = some ⟨[], some e⟩ := by
  obtain ⟨R, hstart, hroot⟩ := Renaming.identifies_start
  have hrespond : Session.respondBy (evaluate cfg) = Session.respond cfg := by
    funext s c
    exact Session.respondBy_evaluate cfg s c
  obtain ⟨hanswers, hafter⟩ := hstart.answers (Renaming.evaluators_flat cfg) hroot cs
  rw [hrespond] at hanswers hafter
  refine ⟨hanswers, hafter, ?_⟩
  intro e captured hmakes
  have hkept := hmakes.kept (by decide)
  refine ⟨hkept, fun st hst ↦ ?_⟩
  rcases hx : st.scopes[captured]? with - | x
  · exact .inl rfl
  · exact .inr (congrArg some (hst.keepsNames.eq_of_empty hx hkept))

/-- An unnamed function called where it is made; its parameter is not known afterwards. -/
def calledAtOnce : List Command := [.eval "((lambda (x) x) #t)", .eval "x"]

def outerCall : Call :=
  .ofDatum 0 ⟨Session.start.store, #[]⟩
    (.list [.list [.atom "lambda", .list [.atom "x"], .atom "x"], .bool true])

def lambdaCall : Call := ⟨19, 0, outerCall.machine⟩

theorem makesLambda_calledAtOnce :
    Session.start.MakesLambda threeDeep 0 1 calledAtOnce := by
  have hdata : (Command.eval "((lambda (x) x) #t)").data =
      [.list [.list [.atom "lambda", .list [.atom "x"], .atom "x"], .bool true]] := rfl
  have hcalls : Session.start.calls threeDeep (.eval "((lambda (x) x) #t)") = [outerCall] := by
    rw [Session.calls, hdata, callsOf_singleton]
    rfl
  have hcell : outerCall.machine.store.cell outerCall.cell = .list 2 := by decide +kernel
  have hitems : outerCall.machine.store.items 2 = [19, 20] := by decide +kernel
  have happlies : lambdaCall.Applies threeDeep 1
      ⟨"lambda", .specialForm, .operator (.form .lambda)⟩ [17, 18] outerCall.machine :=
    ⟨1, 15, [17, 18], 14, outerCall.machine, by decide +kernel, by decide +kernel, rfl,
      by decide +kernel, rfl⟩
  have hrun : lambdaCall.run (evalDepth threeDeep 2) =
      (.ok 22, (lambdaCall.run (evalDepth threeDeep 2)).2) := Prod.ext rfl rfl
  have hvalue : (lambdaCall.run (evalDepth threeDeep 2)).2.store.cell 22 =
      .function ⟨"lambda", .normal, .closure 1 ["x"] 18⟩ := by decide +kernel
  exact .here [.eval "x"] (hcalls ▸ List.mem_singleton_self outerCall)
    (.part .self (Call.makes_head threeDeep _ hcell hitems)) happlies rfl hrun hvalue

theorem unobservable_calledAtOnce :
    let s := converse (Session.respond threeDeep) .start calledAtOnce
    let t := converse (Session.respondBy (evaluateWith threeDeep .flat)) .start calledAtOnce
    Session.start.MakesLambda threeDeep 0 1 calledAtOnce ∧ s.1 = t.1 ∧
      printed s.1 = [some ("#t" : Text), none] ∧
      s.2.store.scopes.size = 3 ∧ t.2.store.scopes.size = 2 ∧
      s.2.store.scopes[1]? = some ⟨[], some 0⟩ := by
  obtain ⟨hanswers, -, hcaptured⟩ := lambda_scope_unobservable threeDeep calledAtOnce
  obtain ⟨hkept, -⟩ := hcaptured 0 1 makesLambda_calledAtOnce
  exact ⟨makesLambda_calledAtOnce, hanswers, by decide +kernel, by decide +kernel,
    by decide +kernel, hkept⟩

end LittleLisp
