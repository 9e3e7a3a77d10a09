import LittleLisp.Proofs.Evaluator.Capture
import LittleLisp.Proofs.Renaming.Writing

/-!
Evaluation does not depend on the names of what a store holds, nor on what else it holds. Started
on machines whose stores match, evaluations of related cells in related scopes end with matching
stores, with the same events noted, and with related values or the same fault. The two evaluators
may differ in the scope that unnamed functions capture, if one is as good as the other.
-/

namespace LittleLisp.Renaming

open EvalM

variable {R R' : Renaming} {m m' : Machine} {α β γ δ : Type}

structure Agree (R : Renaming) (m m' : Machine) : Prop where
  store : R.Matches m.store m'.store
  trace : m.trace = m'.trace

inductive SameResult (Q : α → β → Prop) : Except Fault α → Except Fault β → Prop
  | ok {a : α} {b : β} (value : Q a b) : SameResult Q (.ok a) (.ok b)
  | error (f : Fault) : SameResult Q (.error f) (.error f)

/-- From `m` and `m'`, two computations do the same, with values that `Q` relates. -/
def Simulates (R : Renaming) (m m' : Machine) (x : EvalM α) (y : EvalM β)
    (Q : Renaming → α → β → Prop) : Prop :=
  ∃ R', R.Advances R' m.store m'.store (x.execute m).2.store (y.execute m').2.store ∧
    (x.execute m).2.trace = (y.execute m').2.trace ∧
    SameResult (Q R') (x.execute m).1 (y.execute m').1

namespace Simulates

variable {Q : Renaming → α → β → Prop} {P : Renaming → γ → δ → Prop}

theorem bind {x : EvalM γ} {y : EvalM δ} {f : γ → EvalM α} {g : δ → EvalM β}
    (hx : R.Simulates m m' x y P)
    (hf : ∀ {R' : Renaming} {a : γ} {b : δ} {m₁ m₁' : Machine}, R.Within R' → R'.Agree m₁ m₁' →
      P R' a b → R'.Simulates m₁ m₁' (f a) (g b) Q) :
    R.Simulates m m' (x >>= f) (y >>= g) Q := by
  obtain ⟨R₁, h₁, htrace, hresult⟩ := hx
  rcases hrun : x.execute m with ⟨r, m₁⟩
  rcases hrun' : y.execute m' with ⟨r', m₁'⟩
  rw [hrun, hrun'] at h₁ htrace hresult
  cases hresult with
  | ok value =>
    obtain ⟨R₂, h₂, htrace₂, hresult₂⟩ := hf h₁.within ⟨h₁.after, htrace⟩ value
    rw [Simulates, execute_bind_ok hrun, execute_bind_ok hrun']
    exact ⟨R₂, h₁.trans h₂, htrace₂, hresult₂⟩
  | error f =>
    rw [Simulates, execute_bind_error hrun, execute_bind_error hrun']
    exact ⟨R₁, h₁, htrace, .error f⟩

theorem reads {x : EvalM γ} {y : EvalM δ} {a : γ} {b : δ} {f : γ → EvalM α} {g : δ → EvalM β}
    (hx : x.execute m = (.ok a, m)) (hy : y.execute m' = (.ok b, m'))
    (h : R.Simulates m m' (f a) (g b) Q) : R.Simulates m m' (x >>= f) (y >>= g) Q := by
  rwa [Simulates, execute_bind_ok hx, execute_bind_ok hy]

theorem ite_bind {c : Prop} [Decidable c] {x y : EvalM γ} {x' y' : EvalM δ} {f : γ → EvalM α}
    {g : δ → EvalM β}
    (h : R.Simulates m m' ((if c then x else y) >>= f) ((if c then x' else y') >>= g) Q) :
    R.Simulates m m' (if c then x >>= f else y >>= f) (if c then x' >>= g else y' >>= g) Q := by
  by_cases hc : c
  · simpa only [hc, if_true] using h
  · simpa only [hc, if_false] using h

end Simulates

namespace Agree

variable {Q : Renaming → α → β → Prop} (hA : R.Agree m m')
include hA

theorem pure {a : α} {b : β} (h : Q R a b) : R.Simulates m m' (pure a) (pure b) Q :=
  ⟨R, hA.store.advances, hA.trace, .ok h⟩

theorem throw (f : Fault) : R.Simulates m m' (throw f) (throw f) Q :=
  ⟨R, hA.store.advances, hA.trace, .error f⟩

theorem reject (f : Datum → Fault) {c c' : CellId} (hc : R.cell c c') :
    R.Simulates m m' (reject f c) (reject f c') Q := by
  rw [Simulates, execute_reject, execute_reject, hA.store.snapshot hc]
  exact ⟨R, hA.store.advances, hA.trace, .error _⟩

theorem change {f : Store → α × Store} {g : Store → β × Store}
    (h : R.Alike m.store m'.store (f m.store) (g m'.store) Q) :
    R.Simulates m m' (change f) (change g) Q := by
  obtain ⟨R₁, h₁, hvalue⟩ := h
  exact ⟨R₁, h₁, hA.trace, .ok hvalue⟩

theorem traceEvent (cfg : Settings) {event event' : EvalM Event} {v : Event}
    (h : event.execute m = (.ok v, m)) (h' : event'.execute m' = (.ok v, m')) :
    R.Simulates m m' (traceEvent cfg event) (traceEvent cfg event') fun _ _ _ ↦ True := by
  by_cases ht : cfg.traced
  · refine ⟨R, ?_, ?_, ?_⟩
    all_goals
      simp only [LittleLisp.traceEvent, ht, if_true]
      rw [execute_bind_ok h, execute_bind_ok h']
    · exact hA.store.advances
    · simp [hA.trace]
    · exact .ok trivial
  · simp only [LittleLisp.traceEvent, ht]
    exact hA.pure trivial

end Agree

section Builtins

variable (hA : R.Agree m m')
include hA

theorem simulates_readAll {content? : Cell → Option β} (f : Datum → Fault)
    (hcontent : ∀ {x x'}, R.SameCell x x' → content? x = content? x') {cs cs' : List CellId}
    (h : R.SameCells cs cs') :
    R.Simulates m m' (readAll content? f cs) (readAll content? f cs') fun _ xs ys ↦ xs = ys := by
  induction h with
  | nil => exact hA.pure rfl
  | @cons c c' cs cs' hc _ ih =>
    refine .reads (execute_cell c) (execute_cell c') ?_
    rw [hcontent (hA.store.cell hc)]
    cases content? (m'.store.cell c') with
    | some a =>
      refine ih.bind ?_
      rintro R₁ xs _ m₁ m₁' - h₁ rfl
      exact h₁.pure rfl
    | none => exact hA.reject _ hc

theorem simulates_numbers (op : Builtin) {cs cs' : List CellId} (h : R.SameCells cs cs') :
    R.Simulates m m' (op.numbers cs) (op.numbers cs') fun _ xs ys ↦ xs = ys :=
  simulates_readAll hA _ (fun h ↦ by cases h <;> rfl) h

theorem simulates_number (x : Binary64) :
    R.Simulates m m' (Builtin.number x) (Builtin.number x) Renaming.cell :=
  hA.change (hA.store.addCell (.number x))

theorem simulates_fold (op : Builtin) (start : Binary64) (f : Binary64 → Binary64 → Binary64)
    {cs cs' : List CellId} (h : R.SameCells cs cs') :
    R.Simulates m m' (op.fold start f cs) (op.fold start f cs') Renaming.cell := by
  refine (simulates_numbers hA op h).bind ?_
  rintro R₁ xs _ m₁ m₁' - h₁ rfl
  exact simulates_number h₁ _

theorem simulates_foldFirst (op : Builtin) (f : Binary64 → Binary64 → Binary64)
    {cs cs' : List CellId} (h : R.SameCells cs cs') :
    R.Simulates m m' (op.foldFirst f cs) (op.foldFirst f cs') Renaming.cell := by
  refine (simulates_numbers hA op h).bind ?_
  rintro R₁ xs _ m₁ m₁' - h₁ rfl
  cases xs with
  | nil => exact h₁.throw _
  | cons x xs => exact simulates_number h₁ _

theorem simulates_emptyList :
    R.Simulates m m' Builtin.emptyList Builtin.emptyList Renaming.cell :=
  hA.change (hA.store.addList .nil)

theorem simulates_listOperand (op : Builtin) {c c' : CellId} (hc : R.cell c c') :
    R.Simulates m m' (op.listOperand c) (op.listOperand c') Renaming.handle := by
  refine .reads (execute_cell c) (execute_cell c') ?_
  have hcell := hA.store.cell hc
  generalize m.store.cell c = x, m'.store.cell c' = x' at hcell
  cases hcell with
  | list items => exact hA.pure items
  | _ => exact hA.reject _ hc

theorem simulates_push {cs cs' : List CellId} (h : R.SameCells cs cs') :
    R.Simulates m m' (Builtin.applyPush cs) (Builtin.applyPush cs') Renaming.cell := by
  match h with
  | .cons hv (.cons hl .nil) =>
    refine (simulates_listOperand hA .push hl).bind ?_
    intro R₁ l l' m₁ m₁' hR h₁ hhandle
    obtain ⟨R₂, h₂⟩ := h₁.store.push hhandle (hR.rel hv)
    exact h₁.change ⟨R₂, h₂, h₂.within.rel (hR.rel hl)⟩
  | .nil => exact hA.throw _
  | .cons _ .nil => exact hA.throw _
  | .cons _ (.cons _ (.cons _ hcs)) =>
    simp only [Builtin.applyPush, List.length_cons, hcs.length_eq]
    exact hA.throw _

theorem simulates_car {cs cs' : List CellId} (h : R.SameCells cs cs') :
    R.Simulates m m' (Builtin.applyCar cs) (Builtin.applyCar cs') Renaming.cell := by
  match h with
  | .cons hl .nil =>
    refine (simulates_listOperand hA .car hl).bind ?_
    intro R₁ l l' m₁ m₁' _ h₁ hhandle
    refine .reads execute_getStore execute_getStore ?_
    have hsplit := h₁.store.split? hhandle
    generalize m₁.store.split? l = o, m₁'.store.split? l' = o' at hsplit
    cases hsplit with
    | some hfirst => exact h₁.pure hfirst.1
    | none => exact simulates_emptyList h₁
  | .nil => exact hA.throw _
  | .cons _ (.cons _ hcs) =>
    simp only [Builtin.applyCar, List.length_cons, hcs.length_eq]
    exact hA.throw _

theorem simulates_cdr {cs cs' : List CellId} (h : R.SameCells cs cs') :
    R.Simulates m m' (Builtin.applyCdr cs) (Builtin.applyCdr cs') Renaming.cell := by
  match h with
  | .cons hl .nil =>
    refine (simulates_listOperand hA .cdr hl).bind ?_
    intro R₁ l l' m₁ m₁' _ h₁ hhandle
    refine .reads execute_getStore execute_getStore ?_
    have hsplit := h₁.store.split? hhandle
    generalize m₁.store.split? l = o, m₁'.store.split? l' = o' at hsplit
    cases hsplit with
    | @some p p' hrest =>
      obtain ⟨v, r⟩ := p
      obtain ⟨v', r'⟩ := p'
      obtain ⟨-, hrest⟩ := hrest
      cases hrest with
      | some hn =>
        obtain ⟨R₂, h₂, hcell, -⟩ := h₁.store.addListFrom (.some hn)
        exact h₁.change ⟨R₂, h₂, hcell⟩
      | none => exact simulates_emptyList h₁
    | none => exact simulates_emptyList h₁
  | .nil => exact hA.throw _
  | .cons _ (.cons _ hcs) =>
    simp only [Builtin.applyCdr, List.length_cons, hcs.length_eq]
    exact hA.throw _

theorem simulates_eq (depth : Nat) {cs cs' : List CellId} (h : R.SameCells cs cs') :
    R.Simulates m m' (Builtin.applyEq depth cs) (Builtin.applyEq depth cs') Renaming.cell := by
  match h with
  | .cons ha (.cons hb .nil) =>
    refine .reads execute_getStore execute_getStore ?_
    rw [hA.store.same? depth ha hb]
    split
    · exact hA.change (hA.store.addCell (.bool _))
    · exact hA.throw _
  | .nil => exact hA.throw _
  | .cons _ .nil => exact hA.throw _
  | .cons _ (.cons _ (.cons _ hcs)) =>
    simp only [Builtin.applyEq, List.length_cons, hcs.length_eq]
    exact hA.throw _

theorem simulates_builtin (depth : Nat) (op : Builtin) {cs cs' : List CellId}
    (h : R.SameCells cs cs') :
    R.Simulates m m' (op.apply depth cs) (op.apply depth cs') Renaming.cell := by
  cases op with
  | add => exact simulates_fold hA .add _ _ h
  | sub => exact simulates_foldFirst hA .sub _ h
  | mul => exact simulates_fold hA .mul _ _ h
  | div => exact simulates_foldFirst hA .div _ h
  | list => exact hA.change (hA.store.addList h)
  | push => exact simulates_push hA h
  | car => exact simulates_car hA h
  | cdr => exact simulates_cdr hA h
  | eq => exact simulates_eq hA depth h

end Builtins

def Evaluators (eval eval' : Evaluate) : Prop :=
  ∀ {R : Renaming} {m m' : Machine} {c c' : CellId} {e e' : ScopeId}, R.Agree m m' →
    R.cell c c' → R.scope e e' → R.Simulates m m' (eval c e) (eval' c' e') Renaming.cell

def Captures (capture capture' : Capture) : Prop :=
  ∀ {R : Renaming} {m m' : Machine} {e e' : ScopeId}, R.Agree m m' → R.scope e e' →
    R.Simulates m m' (capture e) (capture' e') Captured

theorem SameCells.zip (params : List Text) {cs cs' : List CellId} (h : R.SameCells cs cs') :
    R.SameBindings (params.zip cs) (params.zip cs') := by
  induction h generalizing params with
  | nil =>
    rw [List.zip_nil_right]
    exact .nil
  | cons hc _ ih =>
    cases params with
    | nil => exact .nil
    | cons p params => exact .cons ⟨rfl, hc⟩ (ih params)

section Forms

variable {eval eval' : Evaluate} {e e' : ScopeId} {args args' : List CellId} (hA : R.Agree m m')
include hA

theorem simulates_symbol (form : SpecialForm) {c c' : CellId} (hc : R.cell c c') :
    R.Simulates m m' (form.symbol c) (form.symbol c') fun _ n n' ↦ n = n' := by
  refine .reads (execute_cell c) (execute_cell c') ?_
  have hcell := hA.store.cell hc
  generalize m.store.cell c = x, m'.store.cell c' = x' at hcell
  cases hcell with
  | atom name => exact hA.pure rfl
  | _ => exact hA.reject _ hc

theorem simulates_parameters (form : SpecialForm) {c c' : CellId} (hc : R.cell c c') :
    R.Simulates m m' (form.parameters c) (form.parameters c') fun _ ps ps' ↦ ps = ps' := by
  refine .reads (execute_cell c) (execute_cell c') ?_
  have hcell := hA.store.cell hc
  generalize m.store.cell c = x, m'.store.cell c' = x' at hcell
  cases hcell with
  | list items =>
    refine .reads (execute_items _) (execute_items _) ?_
    exact simulates_readAll hA _ (fun h ↦ by cases h <;> rfl) (hA.store.items items)
  | _ => exact hA.reject _ hc

theorem simulates_defineFunction (he : R.scope e e') (h : R.SameCells args args') :
    R.Simulates m m' (SpecialForm.applyDefineFunction e args)
      (SpecialForm.applyDefineFunction e' args') Renaming.cell := by
  match h with
  | .cons hname (.cons hparams (.cons hbody .nil)) =>
    refine (simulates_symbol hA .defineFunction hname).bind ?_
    rintro R₁ n _ m₁ m₁' hR₁ h₁ rfl
    refine (simulates_parameters h₁ .defineFunction (hR₁.rel hparams)).bind ?_
    rintro R₂ ps _ m₂ m₂' hR₂ h₂ rfl
    have hR := hR₁.trans hR₂
    have hfn := Renaming.SameFunction.closure n .normal ps (.inl (hR.rel he)) (hR.rel hbody)
    refine (h₂.change (h₂.store.addCell (.function hfn))).bind ?_
    intro R₃ f f' m₃ m₃' hR₃ h₃ hf
    refine h₃.change ⟨R₃, ?_, hf⟩
    exact h₃.store.define (hR₃.rel (hR.rel he)) n hf
  | .nil => exact hA.throw _
  | .cons _ .nil => exact hA.throw _
  | .cons _ (.cons _ .nil) => exact hA.throw _
  | .cons _ (.cons _ (.cons _ (.cons _ _))) => exact hA.throw _

theorem simulates_lambdaWith {capture capture' : Capture} (hκ : Captures capture capture')
    (he : R.scope e e') (h : R.SameCells args args') :
    R.Simulates m m' (lambdaWith capture e args) (lambdaWith capture' e' args') Renaming.cell := by
  match h with
  | .cons hparams (.cons hbody .nil) =>
    refine (simulates_parameters hA .lambda hparams).bind ?_
    rintro R₁ ps _ m₁ m₁' hR₁ h₁ rfl
    refine (hκ h₁ (hR₁.rel he)).bind ?_
    intro R₂ captured captured' m₂ m₂' hR₂ h₂ hcaptured
    have hR := hR₁.trans hR₂
    exact h₂.change (h₂.store.addCell (.function (.closure _ _ ps hcaptured (hR.rel hbody))))
  | .nil => exact hA.throw _
  | .cons _ .nil => exact hA.throw _
  | .cons _ (.cons _ (.cons _ _)) => exact hA.throw _

variable (hE : Evaluators eval eval')
include hE

theorem simulates_define (he : R.scope e e') (h : R.SameCells args args') :
    R.Simulates m m' (SpecialForm.applyDefine eval e args)
      (SpecialForm.applyDefine eval' e' args') Renaming.cell := by
  match h with
  | .cons hname (.cons hexpr .nil) =>
    refine (simulates_symbol hA .define hname).bind ?_
    rintro R₁ n _ m₁ m₁' hR₁ h₁ rfl
    refine (hE h₁ (hR₁.rel hexpr) (hR₁.rel he)).bind ?_
    intro R₂ v v' m₂ m₂' hR₂ h₂ hv
    have hR := hR₁.trans hR₂
    exact h₂.change ⟨R₂, h₂.store.define (hR.rel he) n hv, hR.rel hname⟩
  | .nil => exact hA.throw _
  | .cons _ .nil => exact hA.throw _
  | .cons _ (.cons _ (.cons _ _)) => exact hA.throw _

theorem simulates_sequenceFrom {c c' : CellId} (he : R.scope e e') (hc : R.cell c c')
    (h : R.SameCells args args') :
    R.Simulates m m' (SpecialForm.sequenceFrom eval e c args)
      (SpecialForm.sequenceFrom eval' e' c' args') Renaming.cell := by
  induction args generalizing R m m' c c' args' with
  | nil =>
    cases h
    exact hE hA hc he
  | cons d ds ih =>
    cases h with
    | cons hd hds =>
      refine (hE hA hc he).bind ?_
      intro R₁ _ _ m₁ m₁' hR₁ h₁ _
      exact ih h₁ (hR₁.rel he) (hR₁.rel hd) (hR₁.sameCells hds)

theorem simulates_branch (he : R.scope e e') (h : R.SameCells args args') :
    R.Simulates m m' (SpecialForm.applyBranch eval e args)
      (SpecialForm.applyBranch eval' e' args') Renaming.cell := by
  match h with
  | .cons hcondition (.cons hyes (.cons hno .nil)) =>
    refine (hE hA hcondition he).bind ?_
    intro R₁ c c' m₁ m₁' hR₁ h₁ hc
    refine .reads (execute_cell c) (execute_cell c') ?_
    have hcell := h₁.store.cell hc
    generalize m₁.store.cell c = x, m₁'.store.cell c' = x' at hcell
    cases hcell with
    | bool flag =>
      cases flag with
      | true => exact hE h₁ (hR₁.rel hyes) (hR₁.rel he)
      | false => exact hE h₁ (hR₁.rel hno) (hR₁.rel he)
    | _ => exact h₁.reject _ hc
  | .nil => exact hA.throw _
  | .cons _ .nil => exact hA.throw _
  | .cons _ (.cons _ .nil) => exact hA.throw _
  | .cons _ (.cons _ (.cons _ (.cons _ _))) => exact hA.throw _

theorem simulates_host (op : HostOperation) (he : R.scope e e') (h : R.SameCells args args') :
    R.Simulates m m' (op.apply eval e args) (op.apply eval' e' args') Renaming.cell := by
  cases op with
  | collect => exact hA.change (hA.store.addList h)
  | first =>
    cases h with
    | nil => exact hA.throw _
    | cons hc _ => exact hA.pure hc
  | evaluateLast =>
    have hlast := getLast?_of_forall₂ h
    simp only [HostOperation.apply]
    generalize args.getLast? = o, args'.getLast? = o' at hlast
    cases hlast with
    | some hc => exact hE hA hc he
    | none => exact hA.throw _
  | count =>
    simp only [HostOperation.apply, h.length_eq]
    exact hA.change (hA.store.addCell (.number _))

theorem simulates_body {captured captured' : ScopeId} (hcaptured : R.Captured captured captured')
    (params : List Text) {body body' : CellId} (hbody : R.cell body body')
    (h : R.SameCells args args') :
    R.Simulates m m' (bindArguments captured params args >>= eval body)
      (bindArguments captured' params args' >>= eval' body') Renaming.cell := by
  have hbind : R.Simulates m m' (bindArguments captured params args)
      (bindArguments captured' params args') Renaming.scope := by
    simp only [bindArguments, h.length_eq]
    split
    · exact hA.change (hA.store.addFrame hcaptured (SameCells.zip params h))
    · exact hA.throw _
  refine hbind.bind ?_
  intro R₁ frame frame' m₁ m₁' hR₁ h₁ hframe
  exact hE h₁ (hR₁.rel hbody) hframe

variable {capture capture' : Capture} (hκ : Captures capture capture') (cfg : Settings)
include hκ

theorem simulates_invokeWith {fn fn' : FunctionValue} (hfn : R.SameFunction fn fn')
    (he : R.scope e e') (h : R.SameCells args args') :
    R.Simulates m m' (invokeWith cfg capture eval fn e args)
      (invokeWith cfg capture' eval' fn' e' args') Renaming.cell := by
  cases hfn with
  | operator name kind op =>
    cases op with
    | builtin op => exact simulates_builtin hA cfg.compareDepth op h
    | form op =>
      cases op with
      | define => exact simulates_define hA hE he h
      | defineFunction => exact simulates_defineFunction hA he h
      | sequence =>
        cases h with
        | nil => exact hA.throw _
        | cons hc hcs => exact simulates_sequenceFrom hA hE he hc hcs
      | branch => exact simulates_branch hA hE he h
      | lambda => exact simulates_lambdaWith hA hκ he h
    | host op => exact simulates_host hA hE op he h
  | closure name kind params captured body => exact simulates_body hA hE captured params body h

omit hκ in
theorem simulates_evalEach (he : R.scope e e') (h : R.SameCells args args') :
    R.Simulates m m' (evalEach eval e args) (evalEach eval' e' args') SameCells := by
  induction args generalizing R m m' args' with
  | nil =>
    cases h
    exact hA.pure .nil
  | cons c cs ih =>
    cases h with
    | cons hc hcs =>
      refine (hE hA hc he).bind ?_
      intro R₁ v v' m₁ m₁' hR₁ h₁ hv
      refine (ih h₁ (hR₁.rel he) (hR₁.sameCells hcs)).bind ?_
      intro R₂ vs vs' m₂ m₂' hR₂ h₂ hvs
      exact h₂.pure (.cons (hR₂.rel hv) hvs)

theorem simulates_evalCallWith {head head' : CellId} (he : R.scope e e')
    (hhead : R.cell head head') (h : R.SameCells args args') :
    R.Simulates m m' (evalCallWith cfg capture eval e head args)
      (evalCallWith cfg capture' eval' e' head' args') Renaming.cell := by
  refine (hE hA hhead he).bind ?_
  intro R₁ f f' m₁ m₁' hR₁ h₁ hf
  refine .reads (execute_cell f) (execute_cell f') ?_
  have hcell := h₁.store.cell hf
  generalize m₁.store.cell f = x, m₁'.store.cell f' = x' at hcell
  cases hcell with
  | @function fn fn' hfn =>
    have hname : fn.name = fn'.name ∧ fn.kind = fn'.kind := by cases hfn <;> exact ⟨rfl, rfl⟩
    have harguments : R₁.Simulates m₁ m₁'
        (if fn.kind = .normal then evalEach eval e args else pure args)
        (if fn.kind = .normal then evalEach eval' e' args' else pure args') SameCells := by
      split
      · exact simulates_evalEach h₁ hE (hR₁.rel he) (hR₁.sameCells h)
      · exact h₁.pure (hR₁.sameCells h)
    simp only [← hname.1, ← hname.2]
    refine .ite_bind (harguments.bind ?_)
    intro R₂ vs vs' m₂ m₂' hR₂ h₂ hvs
    rw [hvs.length_eq]
    refine (h₂.traceEvent cfg (execute_pure _) (execute_pure _)).bind ?_
    intro R₃ _ _ m₃ m₃' hR₃ h₃ _
    have hR := hR₂.trans hR₃
    refine (simulates_invokeWith h₃ hE hκ cfg (hR.sameFunction hfn) (hR.rel (hR₁.rel he))
      (hR₃.sameCells hvs)).bind ?_
    intro R₄ v v' m₄ m₄' hR₄ h₄ hv
    have hevent := execute_bind_ok (f := fun d ↦ (pure (.returned fn.name d) : EvalM Event))
      (execute_snapshot (m := m₄) v)
    have hevent' := execute_bind_ok (f := fun d ↦ (pure (.returned fn.name d) : EvalM Event))
      (execute_snapshot (m := m₄') v')
    rw [h₄.store.snapshot hv] at hevent
    refine (h₄.traceEvent cfg hevent hevent').bind ?_
    intro R₅ _ _ m₅ m₅' hR₅ h₅ _
    exact h₅.pure (hR₅.rel hv)
  | _ => exact h₁.reject _ hf

theorem simulates_evalStepWith {c c' : CellId} (hc : R.cell c c') (he : R.scope e e') :
    R.Simulates m m' (evalStepWith cfg capture eval c e) (evalStepWith cfg capture' eval' c' e')
      Renaming.cell := by
  have hcell := hA.store.cell hc
  have hread := execute_cell (m := m) c
  have hread' := execute_cell (m := m') c'
  generalize m.store.cell c = x, m'.store.cell c' = x' at hcell hread hread'
  refine .reads hread hread' ?_
  cases hcell with
  | list items =>
    refine .reads (execute_items _) (execute_items _) ?_
    have hitems := hA.store.items items
    generalize m.store.items _ = cs, m'.store.items _ = cs' at hitems
    cases hitems with
    | nil => exact hA.throw _
    | cons hhead hargs => exact simulates_evalCallWith hA hE hκ cfg he hhead hargs
  | atom name =>
    refine .reads hread hread' ?_
    refine (hA.traceEvent cfg (execute_pure _) (execute_pure _)).bind ?_
    intro R₁ _ _ m₁ m₁' hR₁ h₁ _
    refine .reads execute_getStore execute_getStore ?_
    have hvalue := h₁.store.lookup? (.inl (hR₁.rel he)) name
    generalize m₁.store.lookup? e name = o, m₁'.store.lookup? e' name = o' at hvalue
    cases hvalue with
    | some hv => exact h₁.pure hv
    | none => exact h₁.throw _
  | quoted inner => exact .reads hread hread' (hA.pure inner)
  | absent => exact .reads hread hread' (hA.reject _ hc)
  | number | str | bool | function => exact .reads hread hread' (hA.pure hc)

end Forms

/-- Evaluation with a budget commutes with every renaming. -/
theorem evaluators_evalDepthWith (cfg : Settings) {capture capture' : Capture}
    (hκ : Captures capture capture') (depth : Nat) :
    Evaluators (evalDepthWith cfg capture depth) (evalDepthWith cfg capture' depth) := by
  induction depth with
  | zero =>
    intro R m m' c c' e e' hA _ _
    exact hA.throw _
  | succ depth ih =>
    intro R m m' c c' e e' hA hc he
    exact simulates_evalStepWith hA ih hκ cfg hc he

theorem captures_child : Captures .child .child := by
  intro R m m' e e' hA he
  obtain ⟨R₁, h₁, hscope⟩ := hA.store.addScope (.some (.inl he))
  exact hA.change ⟨R₁, h₁, .inl hscope⟩

/-- A scope that binds nothing is as good as the scope around it. -/
theorem captures_flat : Captures .child .flat := by
  intro R m m' e e' hA he
  obtain ⟨R₁, h₁, hhidden⟩ := hA.store.addChild he
  exact ⟨R₁, h₁, hA.trace, .ok (.inr hhidden)⟩

theorem evaluators_evaluate (cfg : Settings) : Evaluators (evaluate cfg) (evaluate cfg) := by
  rw [evaluate, ← evalDepthWith_child]
  exact evaluators_evalDepthWith cfg captures_child cfg.evalDepth

theorem evaluators_flat (cfg : Settings) :
    Evaluators (evaluate cfg) (evaluateWith cfg .flat) := by
  rw [evaluate, ← evalDepthWith_child]
  exact evaluators_evalDepthWith cfg captures_flat cfg.evalDepth

end LittleLisp.Renaming
