import LittleLisp.Proofs.Semantics.Soundness

namespace LittleLisp.Semantics

open EvalM

variable {α β : Type} {s s' s'' : Store} {o : Except Fault CellId} {c : CellId} {e : ScopeId}

/-- A computation that has this outcome from some budget on, for evaluations and comparisons. -/
def Eventually (x : Settings → Nat → EvalM α) (s : Store) (r : Except Fault α) (s' : Store) :
    Prop :=
  ∃ d₀, ∀ (cfg : Settings) (depth : Nat) (m : Machine), d₀ ≤ depth → d₀ ≤ cfg.compareDepth →
    m.store = s → outcome (x cfg depth) m = (r, s')

theorem execute_of_outcome {x : EvalM α} {m : Machine} {r : Except Fault α}
    (h : outcome x m = (r, s')) : ∃ m', x.execute m = (r, m') ∧ m'.store = s' := by
  simp only [outcome, Prod.mk.injEq] at h
  exact ⟨_, Prod.ext h.1 rfl, h.2⟩

namespace Eventually

variable {x : Settings → Nat → EvalM α} {f : Settings → Nat → α → EvalM β}

theorem always {r : Except Fault α}
    (h : ∀ cfg depth m, m.store = s → (x cfg depth).execute m = (r, { m with store := s' })) :
    Eventually x s r s' := by
  refine ⟨0, fun cfg depth m _ _ hm ↦ ?_⟩
  simp only [outcome, h cfg depth m hm]

theorem andThen {a : α} {r : Except Fault β} (hx : Eventually x s (.ok a) s')
    (hf : Eventually (fun cfg depth ↦ f cfg depth a) s' r s'') :
    Eventually (fun cfg depth ↦ x cfg depth >>= f cfg depth) s r s'' := by
  obtain ⟨d₁, hx⟩ := hx
  obtain ⟨d₂, hf⟩ := hf
  refine ⟨max d₁ d₂, fun cfg depth m hd hk hm ↦ ?_⟩
  obtain ⟨m₁, hx, hs⟩ := execute_of_outcome (hx cfg depth m (by omega) (by omega) hm)
  have hf := hf cfg depth m₁ (by omega) (by omega) hs
  simpa only [outcome, execute_bind_ok hx] using hf

theorem fails {y : Fault} (hx : Eventually x s (.error y) s') :
    Eventually (fun cfg depth ↦ x cfg depth >>= f cfg depth) s (.error y) s' := by
  obtain ⟨d₀, hx⟩ := hx
  refine ⟨d₀, fun cfg depth m hd hk hm ↦ ?_⟩
  obtain ⟨m₁, hx, hs⟩ := execute_of_outcome (hx cfg depth m hd hk hm)
  simp only [outcome, execute_bind_error hx, hs]

theorem reads {a : α} {r : Except Fault β} {y : EvalM α}
    (hy : ∀ m : Machine, m.store = s → y.execute m = (.ok a, m))
    (hf : Eventually (fun cfg depth ↦ f cfg depth a) s r s') :
    Eventually (fun cfg depth ↦ y >>= f cfg depth) s r s' :=
  andThen (always fun _ _ m hm ↦ by rw [hy m hm, ← hm]) hf

theorem readCell {k : Cell} {c : CellId} {f : Settings → Nat → Cell → EvalM β}
    {r : Except Fault β} (hc : s.cell c = k)
    (hf : Eventually (fun cfg depth ↦ f cfg depth k) s r s') :
    Eventually (fun cfg depth ↦ cell c >>= f cfg depth) s r s' :=
  reads (fun m hm ↦ by rw [execute_cell, hm, hc]) hf

theorem readItems {h : HandleId} {cs : List CellId} {f : Settings → Nat → List CellId → EvalM β}
    {r : Except Fault β} (hi : s.items h = cs)
    (hf : Eventually (fun cfg depth ↦ f cfg depth cs) s r s') :
    Eventually (fun cfg depth ↦ items h >>= f cfg depth) s r s' :=
  reads (fun m hm ↦ by rw [execute_items, hm, hi]) hf

theorem readStore {f : Settings → Nat → Store → EvalM β} {r : Except Fault β}
    (hf : Eventually (fun cfg depth ↦ f cfg depth s) s r s') :
    Eventually (fun cfg depth ↦ getStore >>= f cfg depth) s r s' :=
  reads (fun m hm ↦ by rw [execute_getStore, hm]) hf

theorem noteEvent (event : Event) :
    Eventually (fun cfg _ ↦ traceEvent cfg (pure event)) s (.ok ()) s := by
  refine ⟨0, fun cfg _ m _ _ hm ↦ ?_⟩
  obtain ⟨trace, ht⟩ := execute_traceEvent cfg (m := m) (execute_pure event)
  simp only [outcome, ht, hm]

theorem step (h : Eventually (fun cfg depth ↦ evalStep cfg (evalDepth cfg depth) c e) s o s') :
    Eventually (fun cfg depth ↦ evalDepth cfg depth c e) s o s' := by
  obtain ⟨d₀, h⟩ := h
  refine ⟨d₀ + 1, fun cfg depth m hd hk hm ↦ ?_⟩
  obtain ⟨depth, rfl⟩ := Nat.exists_eq_add_of_le' (Nat.le_of_add_left_le hd)
  exact h cfg depth m (by omega) (by omega) hm

theorem traced {fn : FunctionValue} {args : List CellId}
    (h : Eventually (fun cfg depth ↦ invoke cfg (evalDepth cfg depth) fn e args) s o s') :
    Eventually (fun cfg depth ↦ invokeTraced cfg (evalDepth cfg depth) fn e args) s o s' := by
  obtain ⟨d₀, h⟩ := h
  refine ⟨d₀, fun cfg depth m hd hk hm ↦ ?_⟩
  obtain ⟨trace, ht⟩ := outcome_invokeTraced cfg (evalDepth cfg depth) fn e args m
  rw [ht]
  exact h cfg depth _ hd hk hm

theorem call {f v : CellId} {h : HandleId} {args : List CellId} {fn : FunctionValue}
    (hc : s.cell c = .list h) (hi : s.items h = f :: args)
    (hf : Eventually (fun cfg depth ↦ evalDepth cfg depth f e) s (.ok v) s')
    (hv : s'.cell v = .function fn)
    (hr : Eventually (fun cfg depth ↦
      if fn.kind = .normal then
        evalEach (evalDepth cfg depth) e args >>= invokeTraced cfg (evalDepth cfg depth) fn e
      else invokeTraced cfg (evalDepth cfg depth) fn e args) s' o s'') :
    Eventually (fun cfg depth ↦ evalDepth cfg depth c e) s o s'' := by
  refine step (readCell hc (readItems hi ?_))
  simp only [evalCall_eq]
  refine andThen hf (readCell hv ?_)
  simpa only [pure_bind] using hr

end Eventually

def Task.run (cfg : Settings) (depth : Nat) : Task → EvalM CellId
  | .cell c e => evalDepth cfg depth c e
  | .arguments fn e values rest => do
    let vs ← evalEach (evalDepth cfg depth) e rest
    invokeTraced cfg (evalDepth cfg depth) fn e (values ++ vs)
  | .invocation fn e args => invoke cfg (evalDepth cfg depth) fn e args
  | .sequence e c cs => SpecialForm.sequenceFrom (evalDepth cfg depth) e c cs

open Eventually in
theorem eventually_formShape {form : SpecialForm} {args : List CellId}
    (ha : ¬ Accepts form args.length) :
    Eventually (fun cfg depth ↦ form.apply (evalDepth cfg depth) e args) s
      (.error (.formShape form)) s := by
  refine always fun cfg depth m hm ↦ ?_
  subst hm
  exact execute_formShape ha _ e m

open Eventually in
/-- What is derived is what the evaluator does from some budget on. -/
theorem Evaluates.eventually {t : Task} (h : Evaluates t s o s') :
    Eventually (fun cfg depth ↦ t.run cfg depth) s o s' := by
  induction h with
  | name hc hl | unbound hc hl =>
    refine step (readCell hc (andThen (noteEvent _) (readStore ?_)))
    simp only [hl]
    exact always fun _ _ m hm ↦ hm ▸ rfl
  | @literal s c e hc =>
    refine step (readCell rfl ?_)
    cases hk : s.cell c <;> simp only [hk, IsLiteral] at hc ⊢ <;>
      exact always fun _ _ m hm ↦ hm ▸ rfl
  | quoted hc => exact step (readCell hc (always fun _ _ m hm ↦ hm ▸ rfl))
  | emptyCall hc hi => exact step (readCell hc (readItems hi (always fun _ _ m hm ↦ hm ▸ rfl)))
  | absent hc => exact step (readCell hc (always fun _ _ m hm ↦ hm ▸ rfl))
  | headFails hc hi _ ih =>
    refine step (readCell hc (readItems hi ?_))
    exact fails ih
  | notCallable hc hi _ hv ih =>
    refine step (readCell hc (readItems hi ?_))
    refine andThen ih (readCell rfl ?_)
    split
    · exact absurd ‹_› (hv _)
    · exact always fun _ _ m hm ↦ hm ▸ rfl
  | callNormal hc hi _ hv hk _ ihf iha =>
    refine call hc hi ihf hv ?_
    simpa only [hk, if_true, Task.run, List.nil_append] using iha
  | callRaw hc hi _ hv hk _ ihf iha =>
    refine call hc hi ihf hv ?_
    simpa only [hk, if_false] using iha.traced
  | @argument s s' s'' a v e fn values rest o _ _ ihv ihr =>
    -- The rest is evaluated from the same machine; only the values before it are grouped anew.
    have h := andThen
      (f := fun cfg depth v ↦ Task.run cfg depth (.arguments fn e (values ++ [v]) rest)) ihv ihr
    simpa only [Task.run, evalEach, bind_assoc, pure_bind, List.append_assoc, List.cons_append,
      List.nil_append] using h
  | argumentFails _ ih =>
    simp only [Task.run, evalEach, bind_assoc]
    exact fails ih
  | argumentsDone _ ih =>
    simpa only [Task.run, evalEach, pure_bind, List.append_nil] using ih.traced
  | builtin hf hy =>
    obtain ⟨d₀, h⟩ := hy.apply
    refine ⟨d₀, fun cfg depth m hd hk hm ↦ ?_⟩
    simp only [Task.run, invoke, hf, outcome, h _ _ hk hm]
  | closure hf hl _ ih =>
    simp only [Task.run, invoke, hf]
    refine andThen (always fun cfg depth m hm ↦ ?_) ih
    subst hm
    simp [bindArguments, hl]
  | closureCount hf hl =>
    simp only [Task.run, invoke, hf]
    refine fails (always fun cfg depth m hm ↦ ?_)
    subst hm
    simp [bindArguments, hl]
  | formShape hf ha =>
    simp only [Task.run, invoke, hf]
    exact eventually_formShape ha
  | define hf hn _ ih =>
    simp only [Task.run, invoke, hf]
    refine reads (fun m hm ↦ execute_symbol .define (hm ▸ hn)) (andThen ih ?_)
    exact always fun _ _ m hm ↦ hm ▸ rfl
  | defineFails hf hn _ ih =>
    simp only [Task.run, invoke, hf]
    exact reads (fun m hm ↦ execute_symbol .define (hm ▸ hn)) (fails ih)
  | defineName hf hn =>
    simp only [Task.run, invoke, hf]
    refine fails (always fun _ _ m hm ↦ ?_)
    subst hm
    exact execute_symbol_error .define hn
  | defineFunction hf hn hp ha =>
    simp only [Task.run, invoke, hf]
    refine reads (fun m hm ↦ execute_symbol .defineFunction (hm ▸ hn)) ?_
    refine reads (fun m hm ↦ (hm ▸ hp).execute) ?_
    cases ha
    exact always fun _ _ m hm ↦ hm ▸ rfl
  | defineFunctionParameters hf hn hp =>
    simp only [Task.run, invoke, hf]
    refine reads (fun m hm ↦ execute_symbol .defineFunction (hm ▸ hn)) ?_
    refine fails (always fun _ _ m hm ↦ ?_)
    subst hm
    exact hp.execute
  | defineFunctionName hf hn =>
    simp only [Task.run, invoke, hf]
    refine fails (always fun _ _ m hm ↦ ?_)
    subst hm
    exact execute_symbol_error .defineFunction hn
  | lambda hf hp hs ha =>
    simp only [Task.run, invoke, hf]
    refine reads (fun m hm ↦ (hm ▸ hp).execute) ?_
    cases hs
    cases ha
    exact always fun _ _ m hm ↦ hm ▸ rfl
  | lambdaParameters hf hp =>
    simp only [Task.run, invoke, hf]
    refine fails (always fun _ _ m hm ↦ ?_)
    subst hm
    exact hp.execute
  | @branch _ _ _ _ _ _ _ _ _ flag _ hf _ hb _ ihc ih =>
    simp only [Task.run, invoke, hf]
    refine andThen ihc (readCell hb ?_)
    cases flag <;> exact ih
  | branchFails hf _ ih =>
    simp only [Task.run, invoke, hf]
    exact fails ih
  | branchCondition hf _ hb ih =>
    simp only [Task.run, invoke, hf]
    refine andThen ih (readCell rfl ?_)
    split
    · exact absurd ‹_› (hb _)
    · exact absurd ‹_› (hb _)
    · exact always fun _ _ m hm ↦ hm ▸ rfl
  | block hf _ ih =>
    simp only [Task.run, invoke, hf]
    exact ih
  | sequenceLast _ ih => exact ih
  | sequenceNext _ _ ihc ih => exact andThen ihc ih
  | sequenceFails _ ih => exact fails ih
  | collect hf | first hf | count hf =>
    simp only [Task.run, invoke, hf]
    exact always fun _ _ m hm ↦ hm ▸ rfl
  | evaluateLast hf _ ih =>
    simp only [Task.run, invoke, hf, HostOperation.apply, List.getLast?_concat]
    exact ih
  | argumentMissing ho hf =>
    simp only [Task.run, invoke, hf]
    rcases ho with rfl | rfl <;> exact always fun _ _ m hm ↦ hm ▸ rfl

theorem Evaluates.unique {t : Task} {o' : Except Fault CellId} (h : Evaluates t s o s')
    (h' : Evaluates t s o' s'') : o = o' ∧ s' = s'' := by
  obtain ⟨d₁, h⟩ := h.eventually
  obtain ⟨d₂, h'⟩ := h'.eventually
  let cfg : Settings := { compareDepth := max d₁ d₂ }
  have h := h cfg (max d₁ d₂) ⟨s, #[]⟩ (Nat.le_max_left ..) (Nat.le_max_left ..) rfl
  have h' := h' cfg (max d₁ d₂) ⟨s, #[]⟩ (Nat.le_max_right ..) (Nat.le_max_right ..) rfl
  exact Prod.mk.inj (h.symm.trans h')

theorem evaluates_of_outcome {cfg : Settings} {trace : Array Event}
    (h : outcome (evaluate cfg c e) ⟨s, trace⟩ = (o, s')) (ho : o ≠ .error .tooDeep) :
    Evaluates (.cell c e) s o s' := by
  obtain ⟨m', hm, rfl⟩ := execute_of_outcome h
  exact sound_evalDepth cfg cfg.evalDepth hm ho

theorem Evaluates.outcome_or_tooDeep (h : Evaluates (.cell c e) s o s') (cfg : Settings)
    (trace : Array Event) :
    outcome (evaluate cfg c e) ⟨s, trace⟩ = (o, s') ∨
      (outcome (evaluate cfg c e) ⟨s, trace⟩).1 = .error .tooDeep := by
  by_cases ho : (outcome (evaluate cfg c e) ⟨s, trace⟩).1 = .error .tooDeep
  · exact .inr ho
  · have h' := evaluates_of_outcome rfl ho
    obtain ⟨h₁, h₂⟩ := h'.unique h
    exact .inl (Prod.ext h₁ h₂)

def budget (d : Nat) (traced : Bool) : Settings := { evalDepth := d, compareDepth := d, traced }

/-- The rules derive an outcome exactly when all large budgets give it, and no budget gives another
one. Of two runs that do not exhaust their budgets, both have the same outcome and the same final
store, whatever the budgets and whether or not they are traced. -/
theorem evaluates_iff_large_budgets (c : CellId) (e : ScopeId) (s s' : Store)
    (o : Except Fault CellId) (traced : Bool) (trace : Array Event) :
    (Evaluates (.cell c e) s o s' ↔ o ≠ .error .tooDeep ∧ ∃ d₀, ∀ d, d₀ ≤ d →
      outcome (evaluate (budget d traced) c e) ⟨s, trace⟩ = (o, s')) ∧
    (Evaluates (.cell c e) s o s' → ∀ cfg : Settings,
      outcome (evaluate cfg c e) ⟨s, trace⟩ = (o, s') ∨
        (outcome (evaluate cfg c e) ⟨s, trace⟩).1 = .error .tooDeep) ∧
    ∀ (cfg cfg' : Settings) (trace' : Array Event),
      outcome (evaluate cfg c e) ⟨s, trace⟩ = outcome (evaluate cfg' c e) ⟨s, trace'⟩ ∨
        (outcome (evaluate cfg c e) ⟨s, trace⟩).1 = .error .tooDeep ∨
        (outcome (evaluate cfg' c e) ⟨s, trace'⟩).1 = .error .tooDeep := by
  refine ⟨⟨fun h ↦ ⟨h.ne_tooDeep, ?_⟩, ?_⟩, fun h cfg ↦ h.outcome_or_tooDeep cfg trace, ?_⟩
  · obtain ⟨d₀, h⟩ := h.eventually
    exact ⟨d₀, fun d hd ↦ h (budget d traced) d ⟨s, trace⟩ hd hd rfl⟩
  · rintro ⟨ho, d₀, h⟩
    exact evaluates_of_outcome (h d₀ (Nat.le_refl d₀)) ho
  · intro cfg cfg' trace'
    by_cases ho : (outcome (evaluate cfg c e) ⟨s, trace⟩).1 = .error .tooDeep
    · exact .inr (.inl ho)
    · have h := evaluates_of_outcome rfl ho
      obtain h' | h' := h.outcome_or_tooDeep cfg' trace'
      · exact .inl h'.symm
      · exact .inr (.inr h')

end LittleLisp.Semantics
