import LittleLisp.Proofs.Evaluator.Tracing

/-!
The parts of an evaluation: the calls that it makes, as a list in the order in which they are made.
A part begins in the store in which the one before it has ended; only the body of a closure begins
in a store with a new frame. A computation that fails has either failed in its last part, or all of
its parts have succeeded and it leaves the store as the last one left it.
-/

namespace LittleLisp

open EvalM

variable {α β : Type}

def onSuccess (r : Except Fault α × Machine) (next : α → Machine → List β) : List β :=
  match r with
  | (.ok a, m) => next a m
  | (.error _, _) => []

/-- Cells that are evaluated in a scope one after the other, up to the first fault. -/
def inTurn (eval : Evaluate) (e : ScopeId) : List CellId → Machine → List Call
  | [], _ => []
  | c :: cs, m => ⟨c, e, m⟩ :: onSuccess ((eval c e).execute m) fun _ m' ↦ inTurn eval e cs m'

def SpecialForm.parts (form : SpecialForm) (eval : Evaluate) (e : ScopeId) (args : List CellId)
    (m : Machine) : List Call :=
  match form, args with
  | .define, [name, expr] =>
    match m.store.cell name with
    | .atom _ => [⟨expr, e, m⟩]
    | _ => []
  | .sequence, es => inTurn eval e es m
  | .branch, [condition, yes, no] =>
    ⟨condition, e, m⟩ :: onSuccess ((eval condition e).execute m) fun c m' ↦
      match m'.store.cell c with
      | .bool flag => [⟨if flag then yes else no, e, m'⟩]
      | _ => []
  | _, _ => []

def HostOperation.parts (op : HostOperation) (e : ScopeId) (args : List CellId) (m : Machine) :
    List Call :=
  match op with
  | .evaluateLast => args.getLast?.toList.map fun c ↦ ⟨c, e, m⟩
  | _ => []

def FunctionValue.parts (fn : FunctionValue) (eval : Evaluate) (e : ScopeId) (args : List CellId)
    (m : Machine) : List Call :=
  match fn.executor with
  | .operator (.builtin _) => []
  | .operator (.form op) => op.parts eval e args m
  | .operator (.host op) => op.parts e args m
  | .closure captured params body =>
    if params.length = args.length then
      let frame := m.store.addFrame captured (params.zip args)
      [⟨body, frame.1, { m with store := frame.2 }⟩]
    else []

def dispatchParts (eval : Evaluate) (e : ScopeId) (head : CellId) (args : List CellId)
    (m : Machine) : List Call :=
  ⟨head, e, m⟩ :: onSuccess ((eval head e).execute m) fun f m' ↦
    match m'.store.cell f with
    | .function fn => if fn.kind = .normal then inTurn eval e args m' else []
    | _ => []

namespace Call

def entering (cfg : Settings) (fn : FunctionValue) (args : List CellId) (m : Machine) : Machine :=
  ((traceEvent cfg (pure (.call fn.name fn.kind args.length))).execute m).2

/-- The calls that the evaluation of `q` makes, in order. -/
def parts (cfg : Settings) (eval : Evaluate) (q : Call) : List Call :=
  match q.machine.store.cell q.cell with
  | .list h =>
    match q.machine.store.items h with
    | head :: args =>
      dispatchParts eval q.scope head args q.machine ++
        onSuccess ((dispatch eval q.scope head args).execute q.machine) fun call m ↦
          call.1.parts eval q.scope call.2 (entering cfg call.1 call.2 m)
    | [] => []
  | _ => []

def Succeeds (eval : Evaluate) (p : Call) : Prop := ∃ v, (p.run eval).1 = .ok v

/-- A call begins in a store, or in that store with a frame of its own. -/
def BeginsIn (s : Store) (p : Call) : Prop :=
  p.machine.store = s ∨ ∃ captured bindings,
    s.addFrame captured bindings = (p.scope, p.machine.store)

/-- Calls one after the other: all but the last succeed, and each begins where the one before it has
ended. -/
def Consecutive (eval : Evaluate) : Store → List Call → Prop
  | _, [] => True
  | s, p :: ps =>
    p.BeginsIn s ∧ (ps ≠ [] → p.Succeeds eval) ∧ Consecutive eval (p.run eval).2.store ps

def storeAfter (eval : Evaluate) (s : Store) (ps : List Call) : Store :=
  match ps.getLast? with
  | some p => (p.run eval).2.store
  | none => s

section

variable {eval : Evaluate} {s : Store} {p : Call} {ps ps' : List Call}

theorem storeAfter_cons :
    storeAfter eval s (p :: ps) = storeAfter eval (p.run eval).2.store ps := by
  rw [storeAfter, storeAfter, List.getLast?_cons]
  cases ps.getLast? <;> rfl

theorem storeAfter_append :
    storeAfter eval s (ps ++ ps') = storeAfter eval (storeAfter eval s ps) ps' := by
  induction ps generalizing s with
  | nil => rfl
  | cons p ps ih => rw [List.cons_append, storeAfter_cons, storeAfter_cons, ih]

theorem Consecutive.append (h : Consecutive eval s ps) (hall : ∀ p ∈ ps, p.Succeeds eval)
    (h' : Consecutive eval (storeAfter eval s ps) ps') : Consecutive eval s (ps ++ ps') := by
  induction ps generalizing s with
  | nil => exact h'
  | cons p ps ih =>
    rw [storeAfter_cons] at h'
    obtain ⟨hbegins, -, hrest⟩ := h
    refine ⟨hbegins, fun _ ↦ hall p List.mem_cons_self, ?_⟩
    exact ih hrest (fun p' hp' ↦ hall p' (List.mem_cons_of_mem p hp')) h'

end

end Call

open Call

/-- From `m` and with `eval`, the computation makes the calls `ps`, one after the other. It depends
on the evaluator through these calls only and fails if one of them fails. If it fails otherwise, the
store is as the last call left it, and the budget is not to blame unless `exhausted`. If `settled`,
a success leaves the store like that too. -/
structure Performs (exhausted settled : Prop) (X : Evaluate → EvalM α) (eval : Evaluate)
    (m : Machine) (ps : List Call) : Prop where
  heeds : ∀ eval', (∀ p ∈ ps, p.run eval' = p.run eval) →
    (X eval').execute m = (X eval).execute m
  fails : ∀ p ∈ ps, ∀ {eval' f m'}, (∀ q ≠ p, q.run eval' = q.run eval) →
    p.run eval' = (.error f, m') → (X eval').execute m = (.error f, m')
  consecutive : Consecutive eval m.store ps
  leaves : settled → ∀ {a m'}, (X eval).execute m = (.ok a, m') →
    m'.store = storeAfter eval m.store ps
  fault : ∀ {f m'}, (X eval).execute m = (.error f, m') →
    m'.store = storeAfter eval m.store ps ∧
      ((∃ p, ps.getLast? = some p ∧ p.run eval = (.error f, m')) ∨
        (f = .tooDeep → exhausted) ∧ ∀ p ∈ ps, p.Succeeds eval)

namespace Performs

variable {exhausted exhausted' settled settled' : Prop} {X : Evaluate → EvalM α}
  {F : Evaluate → α → EvalM β} {eval : Evaluate} {m : Machine} {ps : List Call}

theorem mono (h : Performs exhausted settled X eval m ps) (hex : exhausted → exhausted')
    (hset : settled' → settled) : Performs exhausted' settled' X eval m ps where
  heeds := h.heeds
  fails := h.fails
  consecutive := h.consecutive
  leaves hs := h.leaves (hset hs)
  fault hf := (h.fault hf).imp_right (Or.imp_right (And.imp_left fun h' hd ↦ hex (h' hd)))

theorem succeeds (h : Performs exhausted settled X eval m ps) {a : α} {m' : Machine}
    (hrun : (X eval).execute m = (.ok a, m')) : ∀ p ∈ ps, p.Succeeds eval := by
  intro p hp
  rcases hres : p.run eval with ⟨f | v, m₁⟩
  · cases hrun.symm.trans (h.fails p hp (fun _ _ ↦ rfl) hres)
  · exact ⟨v, by rw [hres]⟩

theorem requestedBy_iff (h : Performs exhausted settled X eval m ps) (p : Call) :
    p.RequestedBy X eval m ↔ p ∈ ps := by
  constructor
  · rintro ⟨eval', hagree, hne⟩
    refine Classical.byContradiction fun hp ↦ hne (h.heeds eval' fun p' hp' ↦ hagree p' ?_)
    rintro rfl
    exact hp hp'
  · intro hp
    exact requestedBy_of_fails fun f ↦ h.fails p hp (fun _ hq ↦ run_failingAt_of_ne hq f eval)
      (run_failingAt_self p f eval)

theorem of_eq {Y : Evaluate → EvalM α} {m₁ : Machine} (h : Performs exhausted settled Y eval m₁ ps)
    (heq : ∀ eval', (X eval').execute m = (Y eval').execute m₁) (hs : m₁.store = m.store) :
    Performs exhausted settled X eval m ps where
  heeds eval' hagree := by rw [heq, heq, h.heeds eval' hagree]
  fails p hp _ _ _ hagree hf := by rw [heq, h.fails p hp hagree hf]
  consecutive := hs ▸ h.consecutive
  leaves hset _ _ hrun := hs ▸ h.leaves hset ((heq eval).symm.trans hrun)
  fault hrun := hs ▸ h.fault ((heq eval).symm.trans hrun)

theorem constant {r : Except Fault α} {m' : Machine}
    (h : ∀ eval', (X eval').execute m = (r, m')) (hset : settled → m'.store = m.store)
    (hfault : ∀ f, r = .error f → m'.store = m.store ∧ (f = .tooDeep → exhausted)) :
    Performs exhausted settled X eval m [] where
  heeds eval' _ := by rw [h, h]
  fails p hp := absurd hp List.not_mem_nil
  consecutive := trivial
  leaves hs _ _ hrun := by
    cases (h eval).symm.trans hrun
    exact hset hs
  fault hrun := by
    cases (h eval).symm.trans hrun
    obtain ⟨hs, hdeep⟩ := hfault _ rfl
    exact ⟨hs, .inr ⟨hdeep, nofun⟩⟩

theorem ending {X : Evaluate → EvalM CellId} {p : Call} (hbegins : p.BeginsIn m.store)
    (h : ∀ eval', (X eval').execute m = p.run eval') :
    Performs exhausted settled X eval m [p] where
  heeds eval' hagree := by rw [h, h, hagree p (List.mem_singleton_self p)]
  fails p' hp' _ _ _ _ hf := by
    obtain rfl := List.mem_singleton.1 hp'
    rw [h, hf]
  consecutive := ⟨hbegins, fun hne ↦ absurd rfl hne, trivial⟩
  leaves _ _ _ hrun := by
    rw [h] at hrun
    exact (congrArg (fun r ↦ r.2.store) hrun).symm
  fault hrun := by
    rw [h] at hrun
    exact ⟨(congrArg (fun r ↦ r.2.store) hrun).symm, .inl ⟨p, rfl, hrun⟩⟩

theorem call (c : CellId) (e : ScopeId) :
    Performs exhausted settled (fun eval ↦ eval c e) eval m [⟨c, e, m⟩] :=
  ending (.inl rfl) fun _ ↦ rfl

theorem bind_of_error {f : Fault} {m₁ : Machine} (hX : Performs exhausted settled X eval m ps)
    (hrun : (X eval).execute m = (.error f, m₁)) :
    Performs exhausted settled' (fun eval ↦ X eval >>= F eval) eval m ps where
  heeds eval' hagree := by
    rw [execute_bind_error hrun, execute_bind_error ((hX.heeds eval' hagree).trans hrun)]
  fails p hp _ _ _ hagree hf := execute_bind_error (hX.fails p hp hagree hf)
  consecutive := hX.consecutive
  leaves _ _ _ hbind := by
    rw [execute_bind_error hrun] at hbind
    cases hbind
  fault hbind := by
    rw [execute_bind_error hrun] at hbind
    cases hbind
    exact hX.fault hrun

theorem bind_of_ok {a : α} {m₁ : Machine} {ps' : List Call}
    (hX : Performs exhausted True X eval m ps) (hrun : (X eval).execute m = (.ok a, m₁))
    (hF : Performs exhausted settled (fun eval ↦ F eval a) eval m₁ ps') :
    Performs exhausted settled (fun eval ↦ X eval >>= F eval) eval m (ps ++ ps') := by
  have hstore : m₁.store = storeAfter eval m.store ps := hX.leaves trivial hrun
  have hall := hX.succeeds hrun
  refine ⟨fun eval' hagree ↦ ?_, fun p hp eval' f m' hagree hf ↦ ?_, ?_, fun hset b m' hbind ↦ ?_,
    fun {f m'} hbind ↦ ?_⟩
  · have hfirst := hX.heeds eval' fun p hp ↦ hagree p (List.mem_append_left ps' hp)
    rw [execute_bind_ok hrun, execute_bind_ok (hfirst.trans hrun)]
    exact hF.heeds eval' fun p hp ↦ hagree p (List.mem_append_right ps hp)
  · by_cases hmem : p ∈ ps
    · exact execute_bind_error (hX.fails p hmem hagree hf)
    · have hfirst := hX.heeds eval' fun p' hp' ↦ hagree p' fun heq ↦ hmem (heq ▸ hp')
      rw [execute_bind_ok (hfirst.trans hrun)]
      exact hF.fails p ((List.mem_append.1 hp).resolve_left hmem) hagree hf
  · exact hX.consecutive.append hall (hstore ▸ hF.consecutive)
  · rw [execute_bind_ok hrun] at hbind
    rw [storeAfter_append, ← hstore]
    exact hF.leaves hset hbind
  · rw [execute_bind_ok hrun] at hbind
    obtain ⟨hs, hwhy⟩ := hF.fault hbind
    rw [storeAfter_append, ← hstore]
    refine ⟨hs, hwhy.imp ?_ ?_⟩
    · rintro ⟨p, hlast, hp⟩
      exact ⟨p, by rw [List.getLast?_append, hlast, Option.some_or], hp⟩
    · rintro ⟨hdeep, hall'⟩
      exact ⟨hdeep, fun p hp ↦ (List.mem_append.1 hp).elim (hall p) (hall' p)⟩

theorem bind {ps' : α → Machine → List Call} (hX : Performs exhausted True X eval m ps)
    (hF : ∀ a m₁, (X eval).execute m = (.ok a, m₁) →
      Performs exhausted settled (fun eval ↦ F eval a) eval m₁ (ps' a m₁)) :
    Performs exhausted settled (fun eval ↦ X eval >>= F eval) eval m
      (ps ++ onSuccess ((X eval).execute m) ps') := by
  rcases hrun : (X eval).execute m with ⟨f | a, m₁⟩
  · rw [onSuccess, List.append_nil]
    exact hX.bind_of_error hrun
  · exact hX.bind_of_ok hrun (hF a m₁ hrun)

theorem followed (hX : Performs exhausted settled X eval m ps) (hset : settled' → settled)
    (hF : ∀ a m₁, ∃ b m₂, (settled' → m₂.store = m₁.store) ∧
      ∀ eval', (F eval' a).execute m₁ = (.ok b, m₂)) :
    Performs exhausted settled' (fun eval ↦ X eval >>= F eval) eval m ps := by
  rcases hrun : (X eval).execute m with ⟨f | a, m₁⟩
  · exact hX.bind_of_error hrun
  · obtain ⟨b, m₂, hstore, hnext⟩ := hF a m₁
    refine ⟨fun eval' hagree ↦ ?_, fun p hp _ _ _ hagree hf ↦ ?_, hX.consecutive,
      fun hs _ _ hbind ↦ ?_, fun hbind ↦ ?_⟩
    · rw [execute_bind_ok hrun, execute_bind_ok ((hX.heeds eval' hagree).trans hrun), hnext, hnext]
    · exact execute_bind_error (hX.fails p hp hagree hf)
    · rw [execute_bind_ok hrun, hnext] at hbind
      cases hbind
      rw [hstore hs]
      exact hX.leaves (hset hs) hrun
    · rw [execute_bind_ok hrun, hnext] at hbind
      cases hbind

theorem rejected {f : Fault} (h : ∀ eval', (X eval').execute m = (.error f, m))
    (hf : f ≠ .tooDeep) :
    Performs exhausted settled X eval m [] := by
  refine constant h (fun _ ↦ rfl) ?_
  rintro _ ⟨⟩
  exact ⟨rfl, fun hdeep ↦ absurd hdeep hf⟩

theorem reads {x : EvalM α} {a : α} (hx : x.execute m = (.ok a, m))
    (hF : Performs exhausted settled (fun eval ↦ F eval a) eval m ps) :
    Performs exhausted settled (fun eval ↦ x >>= F eval) eval m ps :=
  hF.of_eq (fun _ ↦ execute_bind_ok hx) rfl

theorem checks {x : EvalM α} {f : Fault} (hx : x.execute m = (.error f, m)) (hf : f ≠ .tooDeep) :
    Performs exhausted settled (fun eval ↦ x >>= F eval) eval m [] :=
  rejected (fun _ ↦ execute_bind_error hx) hf

end Performs

/-- An operator on values that fails has changed nothing, and only a comparison is ever too deep. -/
theorem Builtin.apply_error {op : Builtin} {budget : Nat} {args : List CellId} {f : Fault}
    {m m' : Machine} (h : (op.apply budget args).execute m = (.error f, m')) :
    m'.store = m.store ∧ (f = .tooDeep → op = .eq ∧
      ∃ a b, args = [a, b] ∧ m.store.same? budget a b = none) := by
  by_cases hf : f = .tooDeep
  · subst hf
    cases op with
    | eq =>
      rw [apply, applyEq.eq_def] at h
      split at h
      case h_1 a b =>
        rw [execute_bind_ok execute_getStore] at h
        split at h
        case h_1 => cases h
        case h_2 hnone =>
          cases h
          exact ⟨rfl, fun _ ↦ ⟨rfl, a, b, rfl, hnone⟩⟩
      case h_2 => cases h
    | add => exact absurd rfl (Semantics.yields_fold (.inl rfl) (fun _ ↦ .sum) h).ne_tooDeep
    | mul =>
      exact absurd rfl
        (Semantics.yields_fold (.inr (.inr (.inl rfl))) (fun _ ↦ .product) h).ne_tooDeep
    | sub =>
      exact absurd rfl (Semantics.yields_foldFirst (.inl rfl) (fun _ _ ↦ .difference) h).ne_tooDeep
    | div =>
      exact absurd rfl (Semantics.yields_foldFirst (.inr rfl) (fun _ _ ↦ .quotient) h).ne_tooDeep
    | list => cases h
    | push => exact absurd rfl (Semantics.yields_push h).ne_tooDeep
    | car => exact absurd rfl (Semantics.yields_car h).ne_tooDeep
    | cdr => exact absurd rfl (Semantics.yields_cdr h).ne_tooDeep
  · refine ⟨?_, fun hdeep ↦ absurd hdeep hf⟩
    have hyields := Semantics.yields_of_apply h fun herror ↦ hf (Except.error.inj herror)
    generalize m'.store = s' at hyields
    cases hyields <;> rfl

def FunctionValue.Exhausts (cfg : Settings) (fn : FunctionValue) (args : List CellId) (s : Store) :
    Prop :=
  fn.executor = .operator (.builtin .eq) ∧
    ∃ a b, args = [a, b] ∧ s.same? cfg.compareDepth a b = none

theorem onSuccess_nil (r : Except Fault α × Machine) :
    onSuccess r (fun _ _ ↦ ([] : List β)) = [] := by
  rcases r with ⟨_ | _, _⟩ <;> rfl

theorem SpecialForm.parts_of_not_accepts {op : SpecialForm} {args : List CellId}
    (h : ¬ Semantics.Accepts op args.length) (eval : Evaluate) (e : ScopeId) (m : Machine) :
    op.parts eval e args m = [] := by
  unfold parts
  split
  case h_1 => exact absurd rfl h
  case h_2 =>
    cases args with
    | nil => rfl
    | cons c cs => exact absurd (Nat.le_add_left 1 cs.length) h
  case h_3 => exact absurd rfl h
  case h_4 => rfl

namespace Performs

variable {exhausted settled : Prop} {eval : Evaluate}

theorem evalEach (e : ScopeId) (cs : List CellId) (m : Machine) :
    Performs exhausted True (fun eval ↦ evalEach eval e cs) eval m (inTurn eval e cs m) := by
  induction cs generalizing m with
  | nil => exact constant (fun _ ↦ rfl) (fun _ ↦ rfl) nofun
  | cons c cs ih =>
    refine (call c e).bind fun v m₁ _ ↦ (ih m₁).followed id fun vs m₂ ↦ ?_
    exact ⟨_, _, fun _ ↦ rfl, fun _ ↦ rfl⟩

theorem sequenceFrom (e : ScopeId) (c : CellId) (cs : List CellId) (m : Machine) :
    Performs exhausted settled (fun eval ↦ SpecialForm.sequenceFrom eval e c cs) eval m
      (inTurn eval e (c :: cs) m) := by
  induction cs generalizing c m with
  | nil =>
    have hparts : inTurn eval e [c] m = [⟨c, e, m⟩] := congrArg _ (onSuccess_nil _)
    rw [hparts]
    exact call c e
  | cons c' cs ih => exact (call c e).bind fun _ m₁ _ ↦ ih c' m₁

section Forms

open SpecialForm Semantics

variable (e : ScopeId) (m : Machine)

theorem define (name expr : CellId) :
    Performs exhausted False (fun eval ↦ applyDefine eval e [name, expr]) eval m
      (SpecialForm.parts .define eval e [name, expr] m) := by
  cases hc : m.store.cell name with
  | atom n =>
    simp only [SpecialForm.parts, hc]
    refine reads (execute_symbol .define hc) ((call expr e).followed id fun v m₁ ↦ ?_)
    exact ⟨_, _, False.elim, fun _ ↦ rfl⟩
  | _ =>
    simp only [SpecialForm.parts, hc]
    exact checks (execute_symbol_error .define (by rw [hc]; nofun)) nofun

theorem defineFunction (name params body : CellId) :
    Performs exhausted False (fun _ ↦ applyDefineFunction e [name, params, body]) eval m [] := by
  by_cases hname : ∃ n, m.store.cell name = .atom n
  · obtain ⟨n, hn⟩ := hname
    refine reads (execute_symbol .defineFunction hn) ?_
    obtain ⟨r, hparams⟩ := parameters_exist m.store .defineFunction params
    cases r with
    | error f => exact checks hparams.execute hparams.ne_tooDeep
    | ok ps => exact reads hparams.execute (constant (fun _ ↦ rfl) False.elim nofun)
  · exact checks (execute_symbol_error .defineFunction (not_exists.1 hname)) nofun

theorem branch (condition yes no : CellId) :
    Performs exhausted settled (fun eval ↦ applyBranch eval e [condition, yes, no]) eval m
      (SpecialForm.parts .branch eval e [condition, yes, no] m) := by
  refine (call condition e).bind fun c m₁ _ ↦ reads (execute_cell c) ?_
  cases m₁.store.cell c with
  | bool flag => cases flag <;> exact call _ e
  | _ => exact rejected (fun _ ↦ execute_reject .conditionNotBool c) nofun

theorem lambda (params body : CellId) :
    Performs exhausted False (fun _ ↦ applyLambda e [params, body]) eval m [] := by
  obtain ⟨r, hparams⟩ := parameters_exist m.store .lambda params
  cases r with
  | error f => exact checks hparams.execute hparams.ne_tooDeep
  | ok ps => exact reads hparams.execute (constant (fun _ ↦ rfl) False.elim nofun)

theorem form (op : SpecialForm) (args : List CellId) :
    Performs exhausted False (fun eval ↦ op.apply eval e args) eval m
      (op.parts eval e args m) := by
  by_cases ha : Accepts op args.length
  · cases op with
    | define =>
      obtain ⟨name, expr, rfl⟩ := List.length_eq_two.1 ha
      exact define e m name expr
    | defineFunction =>
      obtain ⟨name, params, body, rfl⟩ := List.length_eq_three.1 ha
      exact defineFunction e m name params body
    | sequence =>
      cases args with
      | nil => cases ha
      | cons c cs => exact sequenceFrom e c cs m
    | branch =>
      obtain ⟨condition, yes, no, rfl⟩ := List.length_eq_three.1 ha
      exact branch e m condition yes no
    | lambda =>
      obtain ⟨params, body, rfl⟩ := List.length_eq_two.1 ha
      exact lambda e m params body
  · rw [parts_of_not_accepts ha]
    exact rejected (fun eval' ↦ execute_formShape ha eval' e m) nofun

end Forms

theorem host (op : HostOperation) (e : ScopeId) (args : List CellId) (m : Machine) :
    Performs exhausted False (fun eval ↦ op.apply eval e args) eval m (op.parts e args m) := by
  cases op with
  | collect | count => exact constant (fun _ ↦ rfl) False.elim nofun
  | first =>
    cases args with
    | nil => exact rejected (fun _ ↦ rfl) nofun
    | cons c cs => exact constant (fun _ ↦ rfl) False.elim nofun
  | evaluateLast =>
    simp only [HostOperation.apply, HostOperation.parts]
    cases args.getLast? with
    | none => exact rejected (fun _ ↦ rfl) nofun
    | some c => exact call c e

theorem invoke (cfg : Settings) (fn : FunctionValue) (e : ScopeId) (args : List CellId)
    (m : Machine) :
    Performs (fn.Exhausts cfg args m.store) False (fun eval ↦ invoke cfg eval fn e args) eval m
      (fn.parts eval e args m) := by
  rcases hfn : fn.executor with (op | op | op) | ⟨captured, params, body⟩ <;>
    simp only [LittleLisp.invoke, FunctionValue.parts, hfn]
  · rcases hrun : (op.apply cfg.compareDepth args).execute m with ⟨r, m'⟩
    refine constant (fun _ ↦ hrun) False.elim ?_
    rintro f rfl
    obtain ⟨hstore, hdeep⟩ := Builtin.apply_error hrun
    refine ⟨hstore, fun hf ↦ ?_⟩
    obtain ⟨rfl, hsame⟩ := hdeep hf
    exact ⟨hfn, hsame⟩
  · exact form e m op args
  · exact host op e args m
  · by_cases hlength : params.length = args.length
    · simp only [bindArguments, if_pos hlength]
      refine ending (.inr ⟨captured, params.zip args, ?_⟩) fun _ ↦ ?_
      · rfl
      · exact execute_bind_ok (execute_change _)
    · simp only [bindArguments, if_neg hlength]
      exact checks (execute_throw (.argumentCount params args.length)) (by simp)

open Semantics (invokeTraced) in
theorem invokeTraced (cfg : Settings) (fn : FunctionValue) (e : ScopeId) (args : List CellId)
    (m : Machine) :
    Performs (fn.Exhausts cfg args m.store) False (fun eval ↦ invokeTraced cfg eval fn e args) eval
      m (fn.parts eval e args (entering cfg fn args m)) := by
  obtain ⟨trace, htrace⟩ := execute_traceEvent cfg (m := m)
    (execute_pure (Event.call fn.name fn.kind args.length))
  have hentering : entering cfg fn args m = { m with trace := trace } := by rw [entering, htrace]
  rw [hentering]
  refine ((invoke cfg fn e args { m with trace := trace }).followed id fun v m₁ ↦ ?_).of_eq
    (fun _ ↦ execute_bind_ok htrace) rfl
  have hreturned : (do return Event.returned fn.name (← snapshot v) : EvalM Event).execute m₁ =
      (.ok (.returned fn.name (m₁.store.snapshot v)), m₁) := rfl
  obtain ⟨trace', htrace'⟩ := execute_traceEvent cfg hreturned
  exact ⟨v, _, False.elim, fun _ ↦ execute_bind_ok htrace'⟩

theorem dispatch (e : ScopeId) (head : CellId) (args : List CellId) (m : Machine) :
    Performs exhausted True (fun eval ↦ dispatch eval e head args) eval m
      (dispatchParts eval e head args m) := by
  refine (call head e).bind fun f m₁ _ ↦ reads (execute_cell f) ?_
  cases m₁.store.cell f with
  | function fn =>
    by_cases hk : fn.kind = .normal
    · simp only [hk, if_true]
      exact (evalEach e args m₁).followed id fun vs m₂ ↦ ⟨_, _, fun _ ↦ rfl, fun _ ↦ rfl⟩
    · simp only [hk, if_false]
      exact constant (fun _ ↦ rfl) (fun _ ↦ rfl) nofun
  | _ => exact rejected (fun _ ↦ execute_reject .notCallable f) nofun

end Performs

namespace Call

variable (cfg : Settings) (depth : Nat) (q : Call)

/-- The evaluation of a call performs its parts, and runs out of budget by itself only in a
comparison. -/
theorem performs :
    Performs (∃ fn args m, q.Applies cfg depth fn args m ∧ fn.Exhausts cfg args m.store) False
      (fun eval ↦ evalStep cfg eval q.cell q.scope) (evalDepth cfg depth) q.machine
      (q.parts cfg (evalDepth cfg depth)) := by
  refine .reads (execute_cell q.cell) ?_
  cases hc : q.machine.store.cell q.cell with
  | atom name =>
    simp only [parts, hc]
    obtain ⟨trace, htrace⟩ := execute_traceEvent cfg (m := q.machine)
      (execute_pure (Event.lookup name))
    refine Performs.of_eq ?_ (fun _ ↦ execute_bind_ok htrace) rfl
    refine .reads execute_getStore ?_
    cases q.machine.store.lookup? q.scope name with
    | some v => exact .constant (fun _ ↦ rfl) False.elim nofun
    | none => exact .rejected (fun _ ↦ execute_throw (.unbound name)) nofun
  | list h =>
    simp only [parts, hc]
    refine .reads (execute_items h) ?_
    cases hi : q.machine.store.items h with
    | nil => exact .rejected (fun _ ↦ execute_throw .emptyCall) nofun
    | cons head args =>
      simp only [evalCall_eq_dispatch]
      refine (Performs.dispatch q.scope head args q.machine).bind fun call m hrun ↦ ?_
      refine (Performs.invokeTraced cfg call.1 q.scope call.2 m).mono (fun hex ↦ ?_) id
      exact ⟨call.1, call.2, m, (applies_iff hc hi).2 hrun, hex⟩
  | absent =>
    simp only [parts, hc]
    exact .rejected (fun _ ↦ execute_reject .notEvaluable q.cell) nofun
  | _ =>
    simp only [parts, hc]
    exact .constant (fun _ ↦ rfl) False.elim nofun

theorem mem_parts_iff (p : Call) :
    p ∈ q.parts cfg (evalDepth cfg depth) ↔ q.Makes cfg (evalDepth cfg depth) p :=
  ((performs cfg depth q).requestedBy_iff p).symm

end Call

end LittleLisp
