import LittleLisp.Proofs.Semantics.Operators

/-!
What the evaluator does within its budget is derived by the rules. One step of the evaluator is
sound if the evaluator of its parts is; the evaluator of every depth is sound by induction.
-/

namespace LittleLisp.Semantics

open EvalM

variable {m m' : Machine} {eval : Evaluate} {e : ScopeId} {o : Except Fault CellId}

theorem parameters_exist (s : Store) (form : SpecialForm) (c : CellId) :
    ∃ r, Parameters s form c r := by
  by_cases hl : ∃ h, s.cell c = .list h
  · obtain ⟨h, hl⟩ := hl
    obtain ⟨ns, hn⟩ | ⟨before, after, p, ns, hi, hb, hp⟩ :=
      hold_or_first s Cell.atom (s.items h)
    · exact ⟨_, .names hl hn⟩
    · exact ⟨_, .notSymbol hl hi hb hp⟩
  · exact ⟨_, .notList fun h hh ↦ hl ⟨h, hh⟩⟩

theorem Parameters.execute {form : SpecialForm} {c : CellId} {r : Except Fault (List Text)}
    (h : Parameters m.store form c r) : (form.parameters c).execute m = (r, m) := by
  cases h with
  | names hl hn =>
    simp [SpecialForm.parameters, SpecialForm.parameterNames, execute_bind, hl,
      execute_readAll name?_eq_some_iff _ hn]
  | notSymbol hl hi hb hp =>
    simp [SpecialForm.parameters, SpecialForm.parameterNames, execute_bind, hl, hi,
      execute_readAll_error name?_eq_some_iff _ hb hp]
  | notList hl => simp [SpecialForm.parameters, execute_bind]

theorem execute_formShape {form : SpecialForm} {args : List CellId}
    (ha : ¬ Accepts form args.length) (eval : Evaluate) (e : ScopeId) (m : Machine) :
    (form.apply eval e args).execute m = (.error (.formShape form), m) := by
  cases form with
  | define =>
    simp only [SpecialForm.apply, SpecialForm.applyDefine.eq_def]
    split
    · exact absurd rfl ha
    · rfl
  | defineFunction =>
    simp only [SpecialForm.apply, SpecialForm.applyDefineFunction.eq_def]
    split
    · exact absurd rfl ha
    · rfl
  | branch =>
    simp only [SpecialForm.apply, SpecialForm.applyBranch.eq_def]
    split
    · exact absurd rfl ha
    · rfl
  | lambda =>
    simp only [SpecialForm.apply, SpecialForm.applyLambda.eq_def]
    split
    · exact absurd rfl ha
    · rfl
  | sequence =>
    cases args with
    | nil => rfl
    | cons c cs => simp [Accepts] at ha

/-- Every outcome but the exhaustion of the budget is derived. -/
def Sound (eval : Evaluate) : Prop :=
  ∀ ⦃c : CellId⦄ ⦃e : ScopeId⦄ ⦃m m' : Machine⦄ ⦃o : Except Fault CellId⦄,
    (eval c e).execute m = (o, m') → o ≠ .error .tooDeep →
    Evaluates (.cell c e) m.store o m'.store

theorem evaluates_define (hs : Sound eval) {fn : FunctionValue} {args : List CellId}
    (hf : fn.executor = .operator (.form .define))
    (h : (SpecialForm.applyDefine eval e args).execute m = (o, m')) (ho : o ≠ .error .tooDeep) :
    Evaluates (.invocation fn e args) m.store o m'.store := by
  rw [SpecialForm.applyDefine.eq_def] at h
  split at h
  case h_1 name expr =>
    by_cases hn : ∃ n, m.store.cell name = .atom n
    · obtain ⟨n, hn⟩ := hn
      rw [execute_bind_ok (execute_symbol .define hn)] at h
      obtain ⟨x, hx, rfl⟩ | ⟨v, m₁, hv, h⟩ := execute_bind_cases h
      · exact .defineFails hf hn (hs hx ho)
      · simp only [execute_change, Prod.mk.injEq] at h
        obtain ⟨rfl, rfl⟩ := h
        exact .define hf hn (hs hv (by simp))
    · have hn : ∀ n, m.store.cell name ≠ .atom n := fun n hx ↦ hn ⟨n, hx⟩
      rw [execute_bind_error (execute_symbol_error .define hn)] at h
      cases h
      exact .defineName hf hn
  case h_2 hn =>
    cases h
    refine .formShape hf fun ha ↦ ?_
    obtain ⟨a, b, rfl⟩ := List.length_eq_two.1 ha
    exact hn a b rfl

theorem evaluates_defineFunction {fn : FunctionValue} {args : List CellId}
    (hf : fn.executor = .operator (.form .defineFunction))
    (h : (SpecialForm.applyDefineFunction e args).execute m = (o, m')) :
    Evaluates (.invocation fn e args) m.store o m'.store := by
  rw [SpecialForm.applyDefineFunction.eq_def] at h
  split at h
  case h_1 name params body =>
    by_cases hn : ∃ n, m.store.cell name = .atom n
    · obtain ⟨n, hn⟩ := hn
      rw [execute_bind_ok (execute_symbol .defineFunction hn)] at h
      obtain ⟨r, hp⟩ := parameters_exist m.store .defineFunction params
      cases r with
      | error x =>
        rw [execute_bind_error hp.execute] at h
        cases h
        exact .defineFunctionParameters hf hn hp
      | ok ps =>
        rw [execute_bind_ok hp.execute] at h
        cases h
        exact .defineFunction hf hn hp rfl
    · have hn : ∀ n, m.store.cell name ≠ .atom n := fun n hx ↦ hn ⟨n, hx⟩
      rw [execute_bind_error (execute_symbol_error .defineFunction hn)] at h
      cases h
      exact .defineFunctionName hf hn
  case h_2 hn =>
    cases h
    refine .formShape hf fun ha ↦ ?_
    obtain ⟨a, b, c, rfl⟩ := List.length_eq_three.1 ha
    exact hn a b c rfl

theorem evaluates_lambda {fn : FunctionValue} {args : List CellId}
    (hf : fn.executor = .operator (.form .lambda))
    (h : (SpecialForm.applyLambda e args).execute m = (o, m')) :
    Evaluates (.invocation fn e args) m.store o m'.store := by
  rw [SpecialForm.applyLambda.eq_def] at h
  split at h
  case h_1 params body =>
    obtain ⟨r, hp⟩ := parameters_exist m.store .lambda params
    cases r with
    | error x =>
      rw [execute_bind_error hp.execute] at h
      cases h
      exact .lambdaParameters hf hp
    | ok ps =>
      rw [execute_bind_ok hp.execute] at h
      cases h
      exact .lambda hf hp rfl rfl
  case h_2 hn =>
    cases h
    refine .formShape hf fun ha ↦ ?_
    obtain ⟨a, b, rfl⟩ := List.length_eq_two.1 ha
    exact hn a b rfl

theorem evaluates_branch (hs : Sound eval) {fn : FunctionValue} {args : List CellId}
    (hf : fn.executor = .operator (.form .branch))
    (h : (SpecialForm.applyBranch eval e args).execute m = (o, m')) (ho : o ≠ .error .tooDeep) :
    Evaluates (.invocation fn e args) m.store o m'.store := by
  rw [SpecialForm.applyBranch.eq_def] at h
  split at h
  case h_1 condition yes no =>
    obtain ⟨x, hx, rfl⟩ | ⟨v, m₁, hv, h⟩ := execute_bind_cases h
    · exact .branchFails hf (hs hx ho)
    · have hv := hs hv (by simp)
      rw [execute_bind_ok (execute_cell v)] at h
      split at h
      case h_1 hb => exact .branch hf hv hb (hs h ho)
      case h_2 hb => exact .branch hf hv hb (hs h ho)
      case h_3 ht hb =>
        cases h
        exact .branchCondition hf hv fun flag hf ↦ by cases flag <;> simp_all
  case h_2 hn =>
    cases h
    refine .formShape hf fun ha ↦ ?_
    obtain ⟨a, b, c, rfl⟩ := List.length_eq_three.1 ha
    exact hn a b c rfl

theorem evaluates_sequenceFrom (hs : Sound eval) {c : CellId} {cs : List CellId}
    (h : (SpecialForm.sequenceFrom eval e c cs).execute m = (o, m')) (ho : o ≠ .error .tooDeep) :
    Evaluates (.sequence e c cs) m.store o m'.store := by
  induction cs generalizing c m with
  | nil => exact .sequenceLast (hs h ho)
  | cons c' cs ih =>
    obtain ⟨x, hx, rfl⟩ | ⟨v, m₁, hv, h⟩ := execute_bind_cases h
    · exact .sequenceFails (hs hx ho)
    · exact .sequenceNext (hs hv (by simp)) (ih h)

theorem evaluates_form (hs : Sound eval) {fn : FunctionValue} {form : SpecialForm}
    {args : List CellId} (hf : fn.executor = .operator (.form form))
    (h : (form.apply eval e args).execute m = (o, m')) (ho : o ≠ .error .tooDeep) :
    Evaluates (.invocation fn e args) m.store o m'.store := by
  cases form with
  | define => exact evaluates_define hs hf h ho
  | defineFunction => exact evaluates_defineFunction hf h
  | lambda => exact evaluates_lambda hf h
  | branch => exact evaluates_branch hs hf h ho
  | sequence =>
    cases args with
    | nil =>
      cases h
      exact .formShape hf (by simp [Accepts])
    | cons c cs => exact .block hf (evaluates_sequenceFrom hs h ho)

theorem evaluates_host (hs : Sound eval) {fn : FunctionValue} {op : HostOperation}
    {args : List CellId} (hf : fn.executor = .operator (.host op))
    (h : (op.apply eval e args).execute m = (o, m')) (ho : o ≠ .error .tooDeep) :
    Evaluates (.invocation fn e args) m.store o m'.store := by
  cases op with
  | collect => cases h; exact .collect hf
  | count => cases h; exact .count hf
  | first =>
    cases args with
    | nil => cases h; exact .argumentMissing (.inl rfl) hf
    | cons a args => cases h; exact .first hf
  | evaluateLast =>
    obtain rfl | ⟨args, a, rfl⟩ := args.eq_nil_or_concat
    · cases h
      exact .argumentMissing (.inr rfl) hf
    · simp only [HostOperation.apply, List.concat_eq_append, List.getLast?_concat] at h ⊢
      exact .evaluateLast hf (hs h ho)

theorem evaluates_invoke (cfg : Settings) (hs : Sound eval) {fn : FunctionValue}
    {args : List CellId} (h : (invoke cfg eval fn e args).execute m = (o, m'))
    (ho : o ≠ .error .tooDeep) : Evaluates (.invocation fn e args) m.store o m'.store := by
  rw [invoke.eq_def] at h
  split at h
  case h_1 op hf => exact .builtin hf (yields_of_apply h ho)
  case h_2 form hf => exact evaluates_form hs hf h ho
  case h_3 op hf => exact evaluates_host hs hf h ho
  case h_4 captured params body hf =>
    by_cases hl : params.length = args.length
    · simp only [bindArguments, hl, if_true, execute_bind, execute_change] at h
      exact .closure hf hl (hs h ho)
    · simp only [bindArguments, hl, if_false, execute_bind, execute_throw, Prod.mk.injEq] at h
      obtain ⟨rfl, rfl⟩ := h
      exact .closureCount hf hl

theorem arguments_of_evalEach (hs : Sound eval) {fn : FunctionValue}
    {rest values vs : List CellId} {s' : Store}
    (h : (evalEach eval e rest).execute m = (.ok vs, m'))
    (hi : Evaluates (.invocation fn e (values ++ vs)) m'.store o s') :
    Evaluates (.arguments fn e values rest) m.store o s' := by
  induction rest generalizing m values vs with
  | nil =>
    cases h
    exact .argumentsDone (by simpa using hi)
  | cons a rest ih =>
    obtain ⟨x, hx, hr⟩ | ⟨v, m₁, hv, h⟩ := execute_bind_cases h
    · cases hr
    · obtain ⟨x, hx, hr⟩ | ⟨us, m₂, hu, h⟩ := execute_bind_cases h
      · cases hr
      · cases h
        exact .argument (hs hv (by simp)) (ih hu (by simpa using hi))

theorem arguments_of_evalEach_error (hs : Sound eval) {fn : FunctionValue}
    {rest values : List CellId} {x : Fault}
    (h : (evalEach eval e rest).execute m = (.error x, m')) (hx : x ≠ .tooDeep) :
    Evaluates (.arguments fn e values rest) m.store (.error x) m'.store := by
  induction rest generalizing m values with
  | nil => cases h
  | cons a rest ih =>
    obtain ⟨y, hy, hr⟩ | ⟨v, m₁, hv, h⟩ := execute_bind_cases h
    · cases hr
      exact .argumentFails (hs hy (by simpa using hx))
    · obtain ⟨y, hy, hr⟩ | ⟨us, m₂, hu, h⟩ := execute_bind_cases h
      · cases hr
        exact .argument (hs hv (by simp)) (ih hy)
      · cases h

/-- The last part of a call, once its arguments are there: tracing around the invocation. -/
def invokeTraced (cfg : Settings) (eval : Evaluate) (fn : FunctionValue) (e : ScopeId)
    (args : List CellId) : EvalM CellId := do
  traceEvent cfg (pure (.call fn.name fn.kind args.length))
  let result ← invoke cfg eval fn e args
  traceEvent cfg (return .returned fn.name (← snapshot result))
  return result

theorem outcome_invokeTraced (cfg : Settings) (eval : Evaluate) (fn : FunctionValue) (e : ScopeId)
    (args : List CellId) (m : Machine) :
    ∃ trace, outcome (invokeTraced cfg eval fn e args) m =
      outcome (invoke cfg eval fn e args) { m with trace := trace } := by
  obtain ⟨trace, ht⟩ := execute_traceEvent cfg (m := m)
    (execute_pure (Event.call fn.name fn.kind args.length))
  refine ⟨trace, ?_⟩
  simp only [outcome, invokeTraced, execute_bind_ok ht]
  rcases hi : (invoke cfg eval fn e args).execute { m with trace := trace } with ⟨x | r, m₁⟩
  · rw [execute_bind_error hi]
  · have hr : (do return Event.returned fn.name (← snapshot r) : EvalM Event).execute m₁ =
        (.ok (.returned fn.name (m₁.store.snapshot r)), m₁) := rfl
    obtain ⟨trace', ht'⟩ := execute_traceEvent cfg hr
    rw [execute_bind_ok hi, execute_bind_ok ht']
    rfl

theorem evaluates_invokeTraced (cfg : Settings) (hs : Sound eval) {fn : FunctionValue}
    {args : List CellId} (h : (invokeTraced cfg eval fn e args).execute m = (o, m'))
    (ho : o ≠ .error .tooDeep) : Evaluates (.invocation fn e args) m.store o m'.store := by
  obtain ⟨trace, ht⟩ := outcome_invokeTraced cfg eval fn e args m
  simp only [outcome, h, Prod.mk.injEq] at ht
  rw [ht.2]
  exact evaluates_invoke cfg hs (m := { m with trace := trace }) (Prod.ext ht.1.symm rfl) ho

theorem evalCall_eq (cfg : Settings) (eval : Evaluate) (e : ScopeId) (head : CellId)
    (args : List CellId) :
    evalCall cfg eval e head args = (do
      let f ← eval head e
      match ← cell f with
      | .function fn =>
        let args ← if fn.kind = .normal then evalEach eval e args else pure args
        invokeTraced cfg eval fn e args
      | _ => reject .notCallable f) := rfl

theorem evaluates_call (cfg : Settings) (hs : Sound eval) {c head : CellId} {k : HandleId}
    {args : List CellId} (hc : m.store.cell c = .list k) (hi : m.store.items k = head :: args)
    (h : (evalCall cfg eval e head args).execute m = (o, m')) (ho : o ≠ .error .tooDeep) :
    Evaluates (.cell c e) m.store o m'.store := by
  rw [evalCall_eq] at h
  obtain ⟨x, hx, rfl⟩ | ⟨f, m₁, hf, h⟩ := execute_bind_cases h
  · exact .headFails hc hi (hs hx ho)
  have hf := hs hf (by simp)
  rw [execute_bind_ok (execute_cell f)] at h
  split at h
  case h_1 fn hfn =>
    by_cases hk : fn.kind = .normal
    · rw [if_pos hk] at h
      refine .callNormal hc hi hf hfn hk ?_
      obtain ⟨x, hx, rfl⟩ | ⟨vs, m₂, hv, h⟩ := execute_bind_cases h
      · exact arguments_of_evalEach_error hs hx (by simpa using ho)
      · exact arguments_of_evalEach hs hv (evaluates_invokeTraced cfg hs h ho)
    · rw [if_neg hk, execute_bind_ok (execute_pure args)] at h
      exact .callRaw hc hi hf hfn hk (evaluates_invokeTraced cfg hs h ho)
  case h_2 hn =>
    cases h
    exact .notCallable hc hi hf hn

theorem sound_evalStep (cfg : Settings) (hs : Sound eval) : Sound (evalStep cfg eval) := by
  intro c e m m' o h ho
  rw [evalStep, execute_bind_ok (execute_cell c)] at h
  split at h
  case h_1 n hc =>
    obtain ⟨trace, ht⟩ := execute_traceEvent cfg (m := m) (execute_pure (Event.lookup n))
    rw [execute_bind_ok ht, execute_bind_ok execute_getStore] at h
    split at h
    case h_1 v hl => cases h; exact .name hc hl
    case h_2 hl => cases h; exact .unbound hc hl
  case h_2 hc | h_3 hc | h_4 hc | h_5 hc => cases h; exact .literal (by simp [hc, IsLiteral])
  case h_6 hc => cases h; exact .quoted hc
  case h_7 k hc =>
    rw [execute_bind_ok (execute_items k)] at h
    split at h
    case h_1 hi => cases h; exact .emptyCall hc hi
    case h_2 hi => exact evaluates_call cfg hs hc hi h ho
  case h_8 hc => cases h; exact .absent hc

theorem sound_evalDepth (cfg : Settings) (depth : Nat) : Sound (evalDepth cfg depth) := by
  induction depth with
  | zero =>
    intro c e m m' o h ho
    cases h
    exact absurd rfl ho
  | succ depth ih => exact sound_evalStep cfg ih

end LittleLisp.Semantics
