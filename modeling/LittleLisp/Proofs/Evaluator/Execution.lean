import LittleLisp.Evaluator.Basic

/-!
Running computations. A computation is opened only through `execute`: one law for each operation,
and one for the sequence of two computations.
-/

namespace LittleLisp.EvalM

variable {α β : Type} {m m' : Machine}

/-- What a computation yields and the store that it leaves, without the trace. -/
def outcome (x : EvalM α) (m : Machine) : Except Fault α × Store :=
  ((x.execute m).1, (x.execute m).2.store)

@[simp] theorem execute_pure (a : α) : (pure a : EvalM α).execute m = (.ok a, m) := rfl

@[simp] theorem execute_throw (f : Fault) : (throw f : EvalM α).execute m = (.error f, m) := rfl

@[simp] theorem execute_getStore : getStore.execute m = (.ok m.store, m) := rfl

@[simp] theorem execute_change (f : Store → α × Store) :
    (change f).execute m = (.ok (f m.store).1, { m with store := (f m.store).2 }) := rfl

@[simp] theorem execute_cell (c : CellId) : (cell c).execute m = (.ok (m.store.cell c), m) := rfl

@[simp] theorem execute_items (h : HandleId) : (items h).execute m = (.ok (m.store.items h), m) :=
  rfl

@[simp] theorem execute_snapshot (c : CellId) :
    (snapshot c).execute m = (.ok (m.store.snapshot c), m) := rfl

@[simp] theorem execute_reject (f : Datum → Fault) (c : CellId) :
    (reject f c : EvalM α).execute m = (.error (f (m.store.snapshot c)), m) := rfl

@[simp] theorem execute_note (e : Event) :
    (note e).execute m = (.ok (), { m with trace := m.trace.push e }) := rfl

theorem execute_bind (x : EvalM α) (f : α → EvalM β) :
    (x >>= f).execute m =
      match x.execute m with
      | (.ok a, m') => (f a).execute m'
      | (.error e, m') => (.error e, m') := by
  have h : (x >>= f).execute m = ExceptT.bindCont f (x.execute m).1 (x.execute m).2 := rfl
  rw [h]
  rcases x.execute m with ⟨_ | _, m'⟩ <;> rfl

@[simp] theorem execute_map (f : α → β) (x : EvalM α) :
    (f <$> x).execute m = ((x.execute m).1.map f, (x.execute m).2) := by
  rw [← bind_pure_comp, execute_bind]
  rcases x.execute m with ⟨_ | _, m'⟩ <;> rfl

theorem execute_bind_ok {x : EvalM α} {f : α → EvalM β} {a : α} (h : x.execute m = (.ok a, m')) :
    (x >>= f).execute m = (f a).execute m' := by rw [execute_bind, h]

theorem execute_bind_error {x : EvalM α} {f : α → EvalM β} {e : Fault}
    (h : x.execute m = (.error e, m')) : (x >>= f).execute m = (.error e, m') := by
  rw [execute_bind, h]

theorem execute_bind_cases {x : EvalM α} {f : α → EvalM β} {r : Except Fault β}
    (h : (x >>= f).execute m = (r, m')) :
    (∃ e, x.execute m = (.error e, m') ∧ r = .error e) ∨
      ∃ a m₁, x.execute m = (.ok a, m₁) ∧ (f a).execute m₁ = (r, m') := by
  rw [execute_bind] at h
  rcases hx : x.execute m with ⟨e | a, m₁⟩ <;> simp only [hx] at h
  · cases h
    exact .inl ⟨e, rfl, rfl⟩
  · exact .inr ⟨a, m₁, rfl, h⟩

theorem execute_traceEvent (cfg : Settings) {event : EvalM Event} {e : Event}
    (h : event.execute m = (.ok e, m)) :
    ∃ trace, (traceEvent cfg event).execute m = (.ok (), { m with trace := trace }) := by
  by_cases ht : cfg.traced
  · exact ⟨m.trace.push e, by simp [traceEvent, ht, execute_bind_ok h]⟩
  · exact ⟨m.trace, by simp [traceEvent, ht]⟩

theorem execute_listOperand (op : Builtin) {l : CellId} {h : HandleId}
    (hl : m.store.cell l = .list h) : (op.listOperand l).execute m = (.ok h, m) := by
  simp [Builtin.listOperand, execute_bind, hl]

theorem execute_listOperand_error (op : Builtin) {l : CellId}
    (hl : ∀ h, m.store.cell l ≠ .list h) :
    (op.listOperand l).execute m = (.error (.operandNotList op (m.store.snapshot l)), m) := by
  simp [Builtin.listOperand, execute_bind]

theorem execute_symbol (form : SpecialForm) {c : CellId} {n : Text}
    (hc : m.store.cell c = .atom n) : (form.symbol c).execute m = (.ok n, m) := by
  simp [SpecialForm.symbol, execute_bind, hc]

theorem execute_symbol_error (form : SpecialForm) {c : CellId}
    (hc : ∀ n, m.store.cell c ≠ .atom n) :
    (form.symbol c).execute m = (.error (.nameNotSymbol form (m.store.snapshot c)), m) := by
  simp [SpecialForm.symbol, execute_bind]

end LittleLisp.EvalM
