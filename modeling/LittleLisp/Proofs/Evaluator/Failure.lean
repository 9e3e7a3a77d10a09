import LittleLisp.Proofs.Evaluator.Parts

namespace LittleLisp

open EvalM Semantics

namespace Call

variable {cfg : Settings} {depth : Nat} {q : Call} {fn : FunctionValue} {args : List CellId}
  {m : Machine} {op : SpecialForm} {f : Fault}

theorem entering_store (cfg : Settings) (fn : FunctionValue) (args : List CellId) (m : Machine) :
    (entering cfg fn args m).store = m.store := by
  obtain ⟨trace, htrace⟩ := execute_traceEvent cfg (m := m)
    (execute_pure (Event.call fn.name fn.kind args.length))
  rw [entering, htrace]

theorem Applies.parts_eq (h : q.Applies cfg depth fn args m) (hk : fn.kind ≠ .normal) :
    ∃ head : Call, (head.run (evalDepth cfg depth)).2 = m ∧ q.parts cfg (evalDepth cfg depth) =
      head :: fn.parts (evalDepth cfg depth) q.scope args (entering cfg fn args m) := by
  obtain ⟨k, head, rest, v, m₁, hc, hi, hhead, hfn, hargs⟩ := id h
  have hdispatch := (applies_iff hc hi).1 h
  rw [if_neg hk] at hargs
  cases hargs
  refine ⟨⟨head, q.scope, q.machine⟩, congrArg Prod.snd hhead, ?_⟩
  simp only [parts, hc, hi, dispatchParts, hhead, hdispatch, onSuccess, hfn, if_neg hk]
  rfl

theorem Applies.rejects (h : q.Applies cfg depth fn args m)
    (hfn : fn.executor = .operator (.form op))
    (hfails : ∀ m', m'.store = m.store →
      (op.apply (evalDepth cfg depth) q.scope args).execute m' = (.error f, m')) :
    ∃ m', q.run (evalDepth cfg (depth + 1)) = (.error f, m') ∧ m'.store = m.store := by
  obtain ⟨trace, htrace⟩ := execute_traceEvent cfg (m := m)
    (execute_pure (Event.call fn.name fn.kind args.length))
  have hinvoke : (invoke cfg (evalDepth cfg depth) fn q.scope args).execute
      { m with trace := trace } = (.error f, { m with trace := trace }) := by
    simp only [invoke, hfn]
    exact hfails _ rfl
  refine ⟨{ m with trace := trace }, ?_, rfl⟩
  rw [h.run_eq, invokeTraced, execute_bind_ok htrace, execute_bind_error hinvoke]

theorem Applies.form_parts (h : q.Applies cfg depth fn args m) (hk : fn.kind ≠ .normal)
    (hfn : fn.executor = .operator (.form op)) :
    ∃ head : Call, (head.run (evalDepth cfg depth)).2 = m ∧ q.parts cfg (evalDepth cfg depth) =
      head :: op.parts (evalDepth cfg depth) q.scope args (entering cfg fn args m) := by
  obtain ⟨head, hhead, hparts⟩ := h.parts_eq hk
  refine ⟨head, hhead, ?_⟩
  rw [hparts]
  simp only [FunctionValue.parts, hfn]

end Call

def SpecialForm.Names (op : SpecialForm) : Prop := op = .define ∨ op = .defineFunction

namespace SpecialForm

variable {op : SpecialForm} {args : List CellId} {name : CellId} {m : Machine}

theorem Names.apply_eq (h : op.Names) (ha : Accepts op args.length) (hname : args.head? = some name)
    (hn : ∀ n, m.store.cell name ≠ .atom n) (eval : Evaluate) (e : ScopeId) :
    (op.apply eval e args).execute m =
      (.error (.nameNotSymbol op (m.store.snapshot name)), m) := by
  rcases h with rfl | rfl
  · obtain ⟨_, expr, rfl⟩ := List.length_eq_two.1 ha
    cases hname
    exact execute_bind_error (execute_symbol_error .define hn)
  · obtain ⟨_, params, body, rfl⟩ := List.length_eq_three.1 ha
    cases hname
    exact execute_bind_error (execute_symbol_error .defineFunction hn)

theorem Names.parts_eq (h : op.Names) (ha : Accepts op args.length) (hname : args.head? = some name)
    (hn : ∀ n, m.store.cell name ≠ .atom n) (eval : Evaluate) (e : ScopeId) :
    op.parts eval e args m = [] := by
  rcases h with rfl | rfl
  · obtain ⟨_, expr, rfl⟩ := List.length_eq_two.1 ha
    cases hname
    simp only [parts]
  · rfl

end SpecialForm

open Call

/-- A failing operator leaves the store as its parts left it. The parts of an evaluation are the
calls that it makes, one after the other. A fault of a part is that of the whole, which ends where
the part has ended. If the evaluation fails otherwise, all parts have succeeded, and the store is
the one that the last of them left: no binding and no list has changed since. A form that is
rejected for the number of its arguments or for its name has no part but its head, nor has one that
makes a function; and the value of a definition is the last part of it. -/
theorem failure_keeps_store (cfg : Settings) (depth : Nat) (q : Call) :
    let eval := evalDepth cfg depth
    let whole := q.run (evalDepth cfg (depth + 1))
    let parts := q.parts cfg eval
    (∀ p, p ∈ parts ↔ q.Makes cfg eval p) ∧ Consecutive eval q.machine.store parts ∧
    (∀ p ∈ parts, ∀ f m', p.run eval = (.error f, m') → whole = (.error f, m')) ∧
    (∀ f m', whole = (.error f, m') → m'.store = storeAfter eval q.machine.store parts ∧
      ((∃ p, parts.getLast? = some p ∧ p.run eval = (.error f, m')) ∨
        ∀ p ∈ parts, p.Succeeds eval)) ∧
    ∀ fn args m op, q.Applies cfg depth fn args m → fn.kind ≠ .normal →
      fn.executor = .operator (.form op) →
      (¬ Accepts op args.length → parts.length = 1 ∧
        ∃ m', whole = (.error (.formShape op), m') ∧ m'.store = m.store) ∧
      (∀ name, op.Names → Accepts op args.length → args.head? = some name →
        (∀ n, m.store.cell name ≠ .atom n) → parts.length = 1 ∧
        ∃ m', whole = (.error (.nameNotSymbol op (m.store.snapshot name)), m') ∧
          m'.store = m.store) ∧
      (op = .lambda ∨ op = .defineFunction → parts.length = 1 ∧
        ∀ f m', whole = (.error f, m') → m'.store = m.store) ∧
      ∀ name expr n, op = .define → args = [name, expr] → m.store.cell name = .atom n →
        ∃ head value, parts = [head, value] ∧ value.cell = expr ∧ value.scope = q.scope ∧
          value.machine.store = m.store := by
  intro eval whole parts
  have hperforms := performs cfg depth q
  refine ⟨mem_parts_iff cfg depth q, hperforms.consecutive, fun p hp f m' hf ↦ ?_,
    fun f m' hf ↦ ?_, fun fn args m op happlies hk hfn ↦ ?_⟩
  · exact hperforms.fails p hp (fun _ _ ↦ rfl) hf
  · exact (hperforms.fault hf).imp_right (Or.imp_right And.right)
  · obtain ⟨head, hhead, hparts⟩ := happlies.form_parts hk hfn
    have hsame := entering_store cfg fn args m
    refine ⟨fun ha ↦ ⟨?_, ?_⟩, fun name hnames ha hname hn ↦ ⟨?_, ?_⟩, fun hop ↦ ?_, ?_⟩
    · rw [show parts = _ from hparts, SpecialForm.parts_of_not_accepts ha]
      rfl
    · exact happlies.rejects hfn fun m' _ ↦ execute_formShape ha _ _ m'
    · rw [show parts = _ from hparts, hnames.parts_eq ha hname (hsame ▸ hn)]
      rfl
    · refine happlies.rejects hfn fun m' hm' ↦ ?_
      rw [← hm'] at hn ⊢
      exact hnames.apply_eq ha hname hn _ _
    · have hnil : op.parts eval q.scope args (entering cfg fn args m) = [] := by
        rcases hop with rfl | rfl <;> rfl
      rw [hnil] at hparts
      refine ⟨by rw [show parts = _ from hparts]; rfl, fun f m' hf ↦ ?_⟩
      rw [(hperforms.fault hf).1, hparts]
      exact congrArg Machine.store hhead
    · rintro name expr n rfl rfl hn
      rw [← hsame] at hn
      refine ⟨head, ⟨expr, q.scope, entering cfg fn [name, expr] m⟩, ?_, rfl, rfl, hsame⟩
      rw [show parts = _ from hparts]
      simp only [SpecialForm.parts, hn]

end LittleLisp
