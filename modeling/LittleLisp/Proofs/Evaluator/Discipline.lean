import LittleLisp.Proofs.Evaluator.Execution
import LittleLisp.Proofs.Store.Growth

/-!
Invariants of evaluation. A discipline says which cells may be evaluated, which may be values and
which scopes may be used, and how each operation on the store keeps this up. The evaluator keeps
every discipline, at every depth and whatever the outcome, and has no faults but ordinary ones; and
since it evaluates only what it may, it does not depend on what its parts would give on other cells.
-/

namespace LittleLisp

open EvalM

/-- The faults that a program can cause. The others stand for a token of no known kind, or for an
operand that is missing or is not what its operation takes. -/
def Fault.ordinary : Fault → Bool
  | .unknownToken _ _ | .listExpected _ _ | .splitOfEmpty | .notPrintable | .unhashable _
  | .missingArgument => false
  | _ => true

/-- A function that can be called without handing data to the evaluator: operators on values get
values, and a body is code. -/
def FunctionValue.Callable (code : CellId → Prop) (scope : ScopeId → Prop) (fn : FunctionValue) :
    Prop :=
  match fn.executor with
  | .operator (.builtin _) => fn.kind = .normal
  | .operator (.form _) => fn.kind ≠ .normal
  | .operator (.host _) => False
  | .closure captured _ body => fn.kind = .normal ∧ scope captured ∧ code body

theorem FunctionValue.Callable.mono {fn : FunctionValue} {code code' : CellId → Prop}
    {scope scope' : ScopeId → Prop} (hf : fn.Callable code scope) (hc : ∀ c, code c → code' c)
    (he : ∀ e, scope e → scope' e) : fn.Callable code' scope' := by
  unfold FunctionValue.Callable at hf ⊢
  split <;> rename_i hx <;> simp only [hx] at hf
  · exact hf
  · exact hf
  · exact ⟨hf.1, he _ hf.2.1, hc _ hf.2.2⟩

/-- The stores, cells and scopes that a run may meet, with a law for each operation on the store.
-/
structure Discipline where
  inv : Store → Prop
  code : Store → CellId → Prop
  value : Store → CellId → Prop
  scope : Store → ScopeId → Prop
  code_mono {s s' : Store} {c : CellId} : s.Extends s' → code s c → code s' c
  value_mono {s s' : Store} {c : CellId} : s.Extends s' → value s c → value s' c
  scope_mono {s s' : Store} {e : ScopeId} : s.Extends s' → scope s e → scope s' e
  -- What is read.
  literal {s : Store} {c : CellId} : inv s → code s c → (∀ h, s.cell c ≠ .list h) → value s c
  quoted {s : Store} {c i : CellId} : inv s → code s c → s.cell c = .quoted i → value s i
  item {s : Store} {c i : CellId} {h : HandleId} :
    inv s → code s c → s.cell c = .list h → i ∈ s.items h → code s i
  lookup {s : Store} {e : ScopeId} {n : Text} {v : CellId} :
    inv s → scope s e → s.lookup? e n = some v → value s v
  callable {s : Store} {f : CellId} {fn : FunctionValue} :
    inv s → value s f → s.cell f = .function fn → fn.Callable (code s) (scope s)
  first {s : Store} {l v : CellId} {h : HandleId} {r : Option NodeId} :
    inv s → value s l → s.cell l = .list h → s.split? h = some (v, r) → value s v
  -- What is written.
  addNumber {s : Store} (x : Binary64) : inv s →
    inv (s.addCell (.number x)).2 ∧ value (s.addCell (.number x)).2 (s.addCell (.number x)).1
  addBool {s : Store} (b : Bool) : inv s →
    inv (s.addCell (.bool b)).2 ∧ value (s.addCell (.bool b)).2 (s.addCell (.bool b)).1
  addClosure {s : Store} {e : ScopeId} {body : CellId} (n : Text) (ps : List Text) :
    inv s → scope s e → code s body →
    let made := s.addCell (.function ⟨n, .normal, .closure e ps body⟩)
    inv made.2 ∧ value made.2 made.1
  addList {s : Store} {vs : List CellId} : inv s → (∀ v ∈ vs, value s v) →
    inv (s.addList vs).2 ∧ value (s.addList vs).2 (s.addList vs).1
  addRest {s : Store} {l v : CellId} {h : HandleId} {n : NodeId} :
    inv s → value s l → s.cell l = .list h → s.split? h = some (v, some n) →
    inv (s.addListFrom (some n)).2 ∧ value (s.addListFrom (some n)).2 (s.addListFrom (some n)).1
  push {s : Store} {l v : CellId} {h : HandleId} :
    inv s → value s l → s.cell l = .list h → value s v → inv (s.push h v)
  define {s : Store} {e : ScopeId} {v : CellId} (n : Text) :
    inv s → scope s e → value s v → inv (s.define e n v)
  addScope {s : Store} {e : ScopeId} : inv s → scope s e →
    inv (s.addScope (some e)).2 ∧ scope (s.addScope (some e)).2 (s.addScope (some e)).1

namespace Discipline

variable {D : Discipline} {α β : Type} {m : Machine} {x x' : EvalM α} {Q : Store → α → Prop}
  {R : Store → β → Prop}

/-- From `m`, `x` changes nothing and has no fault but an ordinary one. -/
structure Still (m : Machine) (x : EvalM α) : Prop where
  machine : (x.execute m).2 = m
  fault : ∀ {f}, (x.execute m).1 = .error f → f.ordinary = true

namespace Still

theorem map (hx : Still m x) (f : α → β) : Still m (f <$> x) where
  machine := by
    rw [execute_map]
    exact hx.machine
  fault {g} h := by
    rw [execute_map] at h
    rcases hrun : (x.execute m).1 with g' | a <;> rw [hrun] at h
    · cases h
      exact hx.fault hrun
    · cases h

theorem reads {a : α} {f : α → EvalM β} (hx : x.execute m = (.ok a, m)) (hf : Still m (f a)) :
    Still m (x >>= f) where
  machine := by
    rw [execute_bind_ok hx]
    exact hf.machine
  fault h := by
    rw [execute_bind_ok hx] at h
    exact hf.fault h

theorem reject {f : Datum → Fault} (hf : ∀ d, (f d).ordinary = true) (c : CellId) :
    Still m (EvalM.reject f c : EvalM α) where
  machine := by rw [execute_reject]
  fault h := by
    cases h
    exact hf _

end Still

theorem readAll_still (content? : Cell → Option α) {f : Datum → Fault}
    (hf : ∀ d, (f d).ordinary = true) (cs : List CellId) : Still m (readAll content? f cs) := by
  induction cs with
  | nil => exact ⟨rfl, nofun⟩
  | cons c cs ih =>
    refine .reads (execute_cell c) ?_
    split
    · rw [bind_pure_comp]
      exact ih.map _
    · exact .reject hf c

theorem numbers_still (op : Builtin) (cs : List CellId) : Still m (op.numbers cs) :=
  readAll_still Cell.number? (fun _ ↦ rfl) cs

theorem parameters_still (form : SpecialForm) (c : CellId) : Still m (form.parameters c) := by
  refine .reads (execute_cell c) ?_
  split
  · exact .reads (execute_items _) (readAll_still Cell.name? (fun _ ↦ rfl) _)
  · exact .reject (fun _ ↦ rfl) c

/-- From `m`, `x` keeps the discipline and yields what `Q` says or has an ordinary fault, and `x'`
does the same as `x`. -/
structure Follows (D : Discipline) (m : Machine) (x x' : EvalM α) (Q : Store → α → Prop) :
    Prop where
  same : x'.execute m = x.execute m
  inv : D.inv (x.execute m).2.store
  grows : m.store.Extends (x.execute m).2.store
  result : ∀ {a}, (x.execute m).1 = .ok a → Q (x.execute m).2.store a
  fault : ∀ {f}, (x.execute m).1 = .error f → f.ordinary = true

namespace Follows

theorem of_eq {r : Except Fault α} {m' : Machine} (hx : x.execute m = (r, m'))
    (hx' : x'.execute m = (r, m')) (hi : D.inv m'.store) (hg : m.store.Extends m'.store)
    (hr : ∀ a, r = .ok a → Q m'.store a) (hf : ∀ f, r = .error f → f.ordinary = true) :
    D.Follows m x x' Q := by
  refine ⟨hx'.trans hx.symm, ?_, ?_, ?_, ?_⟩
  · rwa [hx]
  · rwa [hx]
  · intro a ha
    rw [hx] at ha ⊢
    exact hr a ha
  · intro f h
    rw [hx] at h
    exact hf f h

theorem of_ok {a : α} {m' : Machine} (hx : x.execute m = (.ok a, m')) (hi : D.inv m'.store)
    (hg : m.store.Extends m'.store) (ha : Q m'.store a) : D.Follows m x x Q := by
  refine of_eq hx hx hi hg ?_ nofun
  intro b hb
  cases hb
  exact ha

theorem of_error {f : Fault} (hx : x.execute m = (.error f, m)) (hx' : x'.execute m = (.error f, m))
    (hf : f.ordinary = true) (hi : D.inv m.store) : D.Follows m x x' Q := by
  refine of_eq hx hx' hi (.refl _) nofun ?_
  intro g hg
  cases hg
  exact hf

theorem pure {a : α} (hi : D.inv m.store) (ha : Q m.store a) :
    D.Follows m (pure a) (pure a) Q :=
  of_ok (execute_pure a) hi (.refl _) ha

theorem throw {f : Fault} (hf : f.ordinary = true) (hi : D.inv m.store) :
    D.Follows m (throw f) (throw f) Q :=
  of_error (execute_throw f) (execute_throw f) hf hi

theorem reject {f : Datum → Fault} (hf : ∀ d, (f d).ordinary = true) (c : CellId)
    (hi : D.inv m.store) : D.Follows m (reject f c) (reject f c) Q :=
  of_error (execute_reject f c) (execute_reject f c) (hf _) hi

theorem change {f : Store → α × Store} (hi : D.inv (f m.store).2)
    (hg : m.store.Extends (f m.store).2) (hq : Q (f m.store).2 (f m.store).1) :
    D.Follows m (change f) (change f) Q :=
  of_ok (execute_change f) hi hg hq

theorem bind {f f' : α → EvalM β} (hx : D.Follows m x x' Q)
    (hf : ∀ a m', x.execute m = (.ok a, m') → D.inv m'.store → m.store.Extends m'.store →
      Q m'.store a → D.Follows m' (f a) (f' a) R) :
    D.Follows m (x >>= f) (x' >>= f') R := by
  obtain ⟨hsame, hi, hg, hr, hfault⟩ := hx
  rcases hrun : x.execute m with ⟨e | a, m'⟩ <;> rw [hrun] at hsame hi hg hr hfault
  · refine of_eq (execute_bind_error hrun) (execute_bind_error hsame) hi hg nofun ?_
    intro f h
    cases h
    exact hfault rfl
  · have hnext := hf a m' hrun hi hg (hr rfl)
    refine ⟨?_, ?_, ?_, ?_, ?_⟩
    · rw [execute_bind_ok hrun, execute_bind_ok hsame, hnext.same]
    · rw [execute_bind_ok hrun]
      exact hnext.inv
    · rw [execute_bind_ok hrun]
      exact hg.trans hnext.grows
    · rw [execute_bind_ok hrun]
      exact hnext.result
    · rw [execute_bind_ok hrun]
      exact hnext.fault

theorem reads {a : α} {f f' : α → EvalM β} (hx : x.execute m = (.ok a, m))
    (hf : D.Follows m (f a) (f' a) R) : D.Follows m (x >>= f) (x >>= f') R := by
  refine ⟨?_, ?_, ?_, ?_, ?_⟩
  · rw [execute_bind_ok hx, execute_bind_ok hx, hf.same]
  all_goals rw [execute_bind_ok hx]
  · exact hf.inv
  · exact hf.grows
  · exact hf.result
  · exact hf.fault

theorem ite_bind {p : Prop} [Decidable p] {y y' : EvalM α} {f f' : α → EvalM β}
    (h : D.Follows m ((if p then x else y) >>= f) ((if p then x' else y') >>= f') R) :
    D.Follows m (if p then x >>= f else y >>= f) (if p then x' >>= f' else y' >>= f') R := by
  by_cases hp : p
  · simpa only [hp, if_true] using h
  · simpa only [hp, if_false] using h

theorem still (hx : Still m x) (hi : D.inv m.store) : D.Follows m x x fun _ _ ↦ True := by
  have hrun : x.execute m = ((x.execute m).1, m) := Prod.ext rfl hx.machine
  exact of_eq hrun hrun hi (.refl _) (fun _ _ ↦ trivial) fun _ ↦ hx.fault

end Follows

theorem follows_traceEvent (cfg : Settings) {event : EvalM Event} {e : Event} {f f' : EvalM β}
    (h : event.execute m = (.ok e, m))
    (hf : ∀ trace, D.Follows { m with trace := trace } f f' R) :
    D.Follows m (traceEvent cfg event >>= fun _ ↦ f) (traceEvent cfg event >>= fun _ ↦ f') R := by
  obtain ⟨trace, ht⟩ := execute_traceEvent cfg h
  obtain ⟨hsame, hi, hg, hr, hfault⟩ := hf trace
  refine ⟨?_, ?_, ?_, ?_, ?_⟩
  · rw [execute_bind_ok ht, execute_bind_ok ht, hsame]
  all_goals rw [execute_bind_ok ht]
  · exact hi
  · exact hg
  · exact hr
  · exact hfault

section Builtins

variable (hi : D.inv m.store)
include hi

theorem follows_number (x : Binary64) :
    D.Follows m (Builtin.number x) (Builtin.number x) D.value := by
  obtain ⟨hinv, hval⟩ := D.addNumber x hi
  exact .change hinv (Store.appends_addCell _ _).toExtends hval

theorem follows_emptyList : D.Follows m Builtin.emptyList Builtin.emptyList D.value := by
  have hnil : ∀ v ∈ ([] : List CellId), D.value m.store v := nofun
  obtain ⟨hinv, hval⟩ := D.addList hi hnil
  exact .change hinv (Store.appends_addList _ _).toExtends hval

theorem follows_listOperand (op : Builtin) {l : CellId} {f : HandleId → EvalM CellId}
    (hf : ∀ h, m.store.cell l = .list h → D.Follows m (f h) (f h) D.value) :
    D.Follows m (op.listOperand l >>= f) (op.listOperand l >>= f) D.value := by
  by_cases hl : ∃ h, m.store.cell l = .list h
  · obtain ⟨h, hl⟩ := hl
    exact .reads (execute_listOperand op hl) (hf h hl)
  · have hfail := execute_bind_error (f := f) (execute_listOperand_error op (not_exists.1 hl))
    exact .of_error hfail hfail rfl hi

theorem follows_push {args : List CellId} (ha : ∀ a ∈ args, D.value m.store a) :
    D.Follows m (Builtin.applyPush args) (Builtin.applyPush args) D.value := by
  rw [Builtin.applyPush.eq_def]
  split
  case h_1 v l =>
    refine follows_listOperand hi .push fun h hl ↦ ?_
    have hv : D.value m.store v := ha v (by simp)
    have hlist : D.value m.store l := ha l (by simp)
    have hg := Store.extends_push h v m.store
    exact .change (D.push hi hlist hl hv) hg (D.value_mono hg hlist)
  case h_2 => exact .throw rfl hi

theorem follows_car {args : List CellId} (ha : ∀ a ∈ args, D.value m.store a) :
    D.Follows m (Builtin.applyCar args) (Builtin.applyCar args) D.value := by
  rw [Builtin.applyCar.eq_def]
  split
  case h_1 l =>
    refine follows_listOperand hi .car fun h hl ↦ .reads execute_getStore ?_
    split
    case h_1 v r hsplit => exact .pure hi (D.first hi (ha l (by simp)) hl hsplit)
    case h_2 => exact follows_emptyList hi
  case h_2 => exact .throw rfl hi

theorem follows_cdr {args : List CellId} (ha : ∀ a ∈ args, D.value m.store a) :
    D.Follows m (Builtin.applyCdr args) (Builtin.applyCdr args) D.value := by
  rw [Builtin.applyCdr.eq_def]
  split
  case h_1 l =>
    refine follows_listOperand hi .cdr fun h hl ↦ .reads execute_getStore ?_
    split
    case h_1 v n hsplit =>
      obtain ⟨hinv, hval⟩ := D.addRest hi (ha l (by simp)) hl hsplit
      exact .change hinv (Store.appends_addListFrom _ _).toExtends hval
    case h_2 => exact follows_emptyList hi
  case h_2 => exact .throw rfl hi

theorem follows_builtin (op : Builtin) (compareDepth : Nat) {args : List CellId}
    (ha : ∀ a ∈ args, D.value m.store a) :
    D.Follows m (op.apply compareDepth args) (op.apply compareDepth args) D.value := by
  have hfold : ∀ (op : Builtin) start f, D.Follows m (op.fold start f args)
      (op.fold start f args) D.value := by
    intro op start f
    refine (Follows.still (numbers_still op args) hi).bind ?_
    intro xs m' _ hi' _ _
    exact follows_number hi' _
  have hfoldFirst : ∀ (op : Builtin) f, D.Follows m (op.foldFirst f args)
      (op.foldFirst f args) D.value := by
    intro op f
    refine (Follows.still (numbers_still op args) hi).bind ?_
    intro xs m' _ hi' _ _
    cases xs with
    | nil => exact .throw rfl hi'
    | cons y ys => exact follows_number hi' _
  cases op with
  | add | mul => exact hfold _ _ _
  | sub | div => exact hfoldFirst _ _
  | list =>
    obtain ⟨hinv, hval⟩ := D.addList hi ha
    exact .change hinv (Store.appends_addList _ _).toExtends hval
  | push => exact follows_push hi ha
  | car => exact follows_car hi ha
  | cdr => exact follows_cdr hi ha
  | eq =>
    simp only [Builtin.apply]
    rw [Builtin.applyEq.eq_def]
    split
    case h_1 a b =>
      refine .reads execute_getStore ?_
      split
      case h_1 r _ =>
        obtain ⟨hinv, hval⟩ := D.addBool r hi
        exact .change hinv (Store.appends_addCell _ _).toExtends hval
      case h_2 => exact .throw rfl hi
    case h_2 => exact .throw rfl hi

end Builtins

/-- On code, `eval` keeps the discipline and yields values, and `eval'` does the same. -/
def Evaluators (D : Discipline) (eval eval' : Evaluate) : Prop :=
  ∀ ⦃c : CellId⦄ ⦃e : ScopeId⦄ ⦃m : Machine⦄, D.inv m.store → D.code m.store c →
    D.scope m.store e → D.Follows m (eval c e) (eval' c e) D.value

section Forms

variable {eval eval' : Evaluate} {e : ScopeId} {args : List CellId}

theorem follows_symbol (form : SpecialForm) {c : CellId} {f f' : Text → EvalM CellId}
    (hi : D.inv m.store)
    (hf : ∀ n, m.store.cell c = .atom n → D.Follows m (f n) (f' n) D.value) :
    D.Follows m (form.symbol c >>= f) (form.symbol c >>= f') D.value := by
  by_cases hc : ∃ n, m.store.cell c = .atom n
  · obtain ⟨n, hc⟩ := hc
    exact .reads (execute_symbol form hc) (hf n hc)
  · have hfail := execute_symbol_error form (not_exists.1 hc)
    exact .of_error (execute_bind_error hfail) (execute_bind_error hfail) rfl hi

theorem follows_define (hE : D.Evaluators eval eval') (hi : D.inv m.store)
    (he : D.scope m.store e) (ha : ∀ a ∈ args, D.code m.store a) :
    D.Follows m (SpecialForm.applyDefine eval e args) (SpecialForm.applyDefine eval' e args)
      D.value := by
  rw [SpecialForm.applyDefine.eq_def, SpecialForm.applyDefine.eq_def]
  split
  case h_1 name expr =>
    refine follows_symbol .define hi ?_
    intro n hname
    have hval : D.value m.store name := D.literal hi (ha name (by simp)) (by simp [hname])
    refine (hE hi (ha expr (by simp)) he).bind ?_
    intro v m' _ hi' hg hv
    have hg' := Store.extends_define e n v m'.store
    exact .change (D.define n hi' (D.scope_mono hg he) hv) hg'
      (D.value_mono (hg.trans hg') hval)
  case h_2 => exact .throw rfl hi

theorem follows_defineFunction (hi : D.inv m.store) (he : D.scope m.store e)
    (ha : ∀ a ∈ args, D.code m.store a) :
    D.Follows m (SpecialForm.applyDefineFunction e args) (SpecialForm.applyDefineFunction e args)
      D.value := by
  rw [SpecialForm.applyDefineFunction.eq_def]
  split
  case h_1 name params body =>
    refine follows_symbol .defineFunction hi ?_
    intro n _
    refine (Follows.still (parameters_still .defineFunction params) hi).bind ?_
    intro ps m₁ _ hi₁ hg₁ _
    obtain ⟨hinv, hval⟩ := D.addClosure n ps hi₁ (D.scope_mono hg₁ he)
      (D.code_mono hg₁ (ha body (by simp)))
    refine (Follows.change (Q := D.value) hinv (Store.appends_addCell _ _).toExtends hval).bind ?_
    intro fn m₂ _ hi₂ hg₂ hfn
    have hg₃ := Store.extends_define e n fn m₂.store
    exact .change (D.define n hi₂ (D.scope_mono (hg₁.trans hg₂) he) hfn) hg₃
      (D.value_mono hg₃ hfn)
  case h_2 => exact .throw rfl hi

theorem follows_lambda (hi : D.inv m.store) (he : D.scope m.store e)
    (ha : ∀ a ∈ args, D.code m.store a) :
    D.Follows m (SpecialForm.applyLambda e args) (SpecialForm.applyLambda e args) D.value := by
  rw [SpecialForm.applyLambda.eq_def]
  split
  case h_1 params body =>
    refine (Follows.still (parameters_still .lambda params) hi).bind ?_
    intro ps m₁ _ hi₁ hg₁ _
    obtain ⟨hinv, hscope⟩ := D.addScope hi₁ (D.scope_mono hg₁ he)
    refine (Follows.change (Q := D.scope) hinv (Store.extends_addScope _ _) hscope).bind ?_
    intro captured m₂ _ hi₂ hg₂ hcap
    have hbody : D.code m₂.store body := D.code_mono (hg₁.trans hg₂) (ha body (by simp))
    obtain ⟨hinv, hval⟩ := D.addClosure (SpecialForm.name .lambda) ps hi₂ hcap hbody
    exact .change hinv (Store.appends_addCell _ _).toExtends hval
  case h_2 => exact .throw rfl hi

theorem follows_sequenceFrom (hE : D.Evaluators eval eval') {c : CellId} (hi : D.inv m.store)
    (he : D.scope m.store e) (hc : D.code m.store c) (ha : ∀ a ∈ args, D.code m.store a) :
    D.Follows m (SpecialForm.sequenceFrom eval e c args) (SpecialForm.sequenceFrom eval' e c args)
      D.value := by
  induction args generalizing c m with
  | nil => exact hE hi hc he
  | cons a args ih =>
    refine (hE hi hc he).bind ?_
    intro _ m' _ hi' hg _
    refine ih hi' (D.scope_mono hg he) (D.code_mono hg (ha a (by simp))) ?_
    intro b hb
    exact D.code_mono hg (ha b (List.mem_cons_of_mem a hb))

theorem follows_branch (hE : D.Evaluators eval eval') (hi : D.inv m.store)
    (he : D.scope m.store e) (ha : ∀ a ∈ args, D.code m.store a) :
    D.Follows m (SpecialForm.applyBranch eval e args) (SpecialForm.applyBranch eval' e args)
      D.value := by
  rw [SpecialForm.applyBranch.eq_def, SpecialForm.applyBranch.eq_def]
  split
  case h_1 condition yes no =>
    refine (hE hi (ha condition (by simp)) he).bind ?_
    intro c m' _ hi' hg _
    have he' := D.scope_mono hg he
    refine .reads (execute_cell c) ?_
    split
    · exact hE hi' (D.code_mono hg (ha yes (by simp))) he'
    · exact hE hi' (D.code_mono hg (ha no (by simp))) he'
    · exact .reject (fun _ ↦ rfl) c hi'
  case h_2 => exact .throw rfl hi

theorem follows_form (hE : D.Evaluators eval eval') (op : SpecialForm) (hi : D.inv m.store)
    (he : D.scope m.store e) (ha : ∀ a ∈ args, D.code m.store a) :
    D.Follows m (op.apply eval e args) (op.apply eval' e args) D.value := by
  cases op with
  | define => exact follows_define hE hi he ha
  | defineFunction => exact follows_defineFunction hi he ha
  | sequence =>
    cases args with
    | nil => exact .throw rfl hi
    | cons c cs =>
      refine follows_sequenceFrom hE hi he (ha c (by simp)) ?_
      intro a h
      exact ha a (List.mem_cons_of_mem c h)
  | branch => exact follows_branch hE hi he ha
  | lambda => exact follows_lambda hi he ha

end Forms

section Calls

variable {eval eval' : Evaluate} {e : ScopeId} {args : List CellId} {fn : FunctionValue}

def Suits (D : Discipline) (fn : FunctionValue) (s : Store) (args : List CellId) : Prop :=
  ∀ a ∈ args, if fn.kind = .normal then D.value s a else D.code s a

theorem inv_defineAll {bound : List (Text × CellId)} {s : Store} (hi : D.inv s)
    (he : D.scope s e) (hb : ∀ p ∈ bound, D.value s p.2) :
    let s' := bound.foldl (fun s p ↦ s.define e p.1 p.2) s
    D.inv s' ∧ s.Extends s' := by
  induction bound generalizing s with
  | nil => exact ⟨hi, .refl s⟩
  | cons p bound ih =>
    have hg := Store.extends_define e p.1 p.2 s
    have hp := D.define p.1 hi he (hb p (by simp))
    have hrest : ∀ q ∈ bound, D.value (s.define e p.1 p.2) q.2 := by
      intro q hq
      exact D.value_mono hg (hb q (List.mem_cons_of_mem p hq))
    obtain ⟨hi', hg'⟩ := ih hp (D.scope_mono hg he) hrest
    exact ⟨hi', hg.trans hg'⟩

theorem follows_bindArguments {captured : ScopeId} (params : List Text) (hi : D.inv m.store)
    (hc : D.scope m.store captured) (ha : ∀ a ∈ args, D.value m.store a) :
    D.Follows m (bindArguments captured params args) (bindArguments captured params args)
      D.scope := by
  rw [bindArguments]
  split
  · obtain ⟨hi₁, hs₁⟩ := D.addScope hi hc
    have hg₁ := Store.extends_addScope (some captured) m.store
    have hb : ∀ p ∈ params.zip args, D.value (m.store.addScope (some captured)).2 p.2 := by
      intro p hp
      exact D.value_mono hg₁ (ha p.2 (List.of_mem_zip hp).2)
    obtain ⟨hi₂, hg₂⟩ := inv_defineAll hi₁ hs₁ hb
    exact .change hi₂ (hg₁.trans hg₂) (D.scope_mono hg₂ hs₁)
  · exact .throw rfl hi

theorem follows_invoke (cfg : Settings) (hE : D.Evaluators eval eval') (hi : D.inv m.store)
    (he : D.scope m.store e) (hf : fn.Callable (D.code m.store) (D.scope m.store))
    (ha : D.Suits fn m.store args) :
    D.Follows m (invoke cfg eval fn e args) (invoke cfg eval' fn e args) D.value := by
  unfold FunctionValue.Callable at hf
  unfold invoke
  split
  case h_1 op hx =>
    have hk : fn.kind = .normal := by simpa only [hx] using hf
    refine follows_builtin hi op cfg.compareDepth ?_
    intro a h
    simpa only [hk, if_true] using ha a h
  case h_2 op hx =>
    have hk : fn.kind ≠ .normal := by simpa only [hx] using hf
    refine follows_form hE op hi he ?_
    intro a h
    simpa only [hk, if_false] using ha a h
  case h_3 op hx => simp only [hx] at hf
  case h_4 captured params body hx =>
    simp only [hx] at hf
    obtain ⟨hk, hcap, hbody⟩ := hf
    refine (follows_bindArguments params hi hcap ?_).bind ?_
    · intro a h
      simpa only [hk, if_true] using ha a h
    · intro frame m' _ hi' hg hframe
      exact hE hi' (D.code_mono hg hbody) hframe

theorem follows_evalEach (hE : D.Evaluators eval eval') (hi : D.inv m.store)
    (he : D.scope m.store e) (ha : ∀ a ∈ args, D.code m.store a) :
    D.Follows m (evalEach eval e args) (evalEach eval' e args)
      fun s vs ↦ ∀ v ∈ vs, D.value s v := by
  induction args generalizing m with
  | nil => exact .pure hi nofun
  | cons c cs ih =>
    refine (hE hi (ha c (by simp)) he).bind ?_
    intro v m₁ _ hi₁ hg₁ hv
    have hcs : ∀ a ∈ cs, D.code m₁.store a := by
      intro a h
      exact D.code_mono hg₁ (ha a (List.mem_cons_of_mem c h))
    refine (ih hi₁ (D.scope_mono hg₁ he) hcs).bind ?_
    intro vs m₂ _ hi₂ hg₂ hvs
    exact .pure hi₂ (List.forall_mem_cons.2 ⟨D.value_mono hg₂ hv, hvs⟩)

theorem follows_arguments (fn : FunctionValue) (hE : D.Evaluators eval eval')
    (hi : D.inv m.store) (he : D.scope m.store e) (ha : ∀ a ∈ args, D.code m.store a) :
    D.Follows m (if fn.kind = .normal then evalEach eval e args else pure args)
      (if fn.kind = .normal then evalEach eval' e args else pure args) (D.Suits fn) := by
  by_cases hk : fn.kind = .normal
  · have hsuits : D.Suits fn = fun s vs ↦ ∀ v ∈ vs, D.value s v := by
      funext s vs
      simp only [Suits, hk, if_true]
    rw [if_pos hk, if_pos hk, hsuits]
    exact follows_evalEach hE hi he ha
  · have hsuits : D.Suits fn = fun s vs ↦ ∀ v ∈ vs, D.code s v := by
      funext s vs
      simp only [Suits, hk, if_false]
    rw [if_neg hk, if_neg hk, hsuits]
    exact .pure hi ha

theorem follows_call (cfg : Settings) (hE : D.Evaluators eval eval') {head : CellId}
    (hi : D.inv m.store) (he : D.scope m.store e) (hh : D.code m.store head)
    (ha : ∀ a ∈ args, D.code m.store a) :
    D.Follows m (evalCall cfg eval e head args) (evalCall cfg eval' e head args) D.value := by
  refine (hE hi hh he).bind ?_
  intro f m₁ _ hi₁ hg₁ hval
  refine .reads (execute_cell f) ?_
  split
  case h_1 fn hfn =>
    have ha₁ : ∀ a ∈ args, D.code m₁.store a := by
      intro a h
      exact D.code_mono hg₁ (ha a h)
    refine .ite_bind ((follows_arguments fn hE hi₁ (D.scope_mono hg₁ he) ha₁).bind ?_)
    intro vs m₂ _ hi₂ hg₂ hvs
    refine follows_traceEvent cfg (execute_pure _) ?_
    intro trace
    have hcall₂ : fn.Callable (D.code m₂.store) (D.scope m₂.store) :=
      D.callable hi₂ (D.value_mono hg₂ hval) (hg₂.cell_eq_of_ne_absent hfn nofun)
    have he₂ : D.scope m₂.store e := D.scope_mono (hg₁.trans hg₂) he
    refine (follows_invoke (m := { m₂ with trace := trace }) cfg hE hi₂ he₂ hcall₂ hvs).bind ?_
    intro v m₃ _ hi₃ _ hv
    exact follows_traceEvent cfg (execute_bind_ok (execute_snapshot v)) fun trace ↦ .pure hi₃ hv
  case h_2 => exact .reject (fun _ ↦ rfl) f hi₁

/-- A step of the evaluator keeps a discipline if the evaluator of its parts does, and gives the
same with every other evaluator of its parts that agrees on code. -/
theorem evaluators_evalStep (cfg : Settings) (hE : D.Evaluators eval eval') :
    D.Evaluators (evalStep cfg eval) (evalStep cfg eval') := by
  intro c e m hi hc he
  refine .reads (execute_cell c) ?_
  split
  case h_1 name _ =>
    refine follows_traceEvent cfg (execute_pure _) fun trace ↦ .reads execute_getStore ?_
    split
    case h_1 v hv => exact .pure hi (D.lookup hi he hv)
    case h_2 => exact .throw rfl hi
  case h_6 i hcell => exact .pure hi (D.quoted hi hc hcell)
  case h_7 h hcell =>
    refine .reads (execute_items h) ?_
    split
    case h_1 => exact .throw rfl hi
    case h_2 head args hitems =>
      have hmem : ∀ i ∈ head :: args, D.code m.store i := by
        intro i hi'
        exact D.item hi hc hcell (hitems ▸ hi')
      exact follows_call cfg hE hi he (hmem head (by simp)) fun a h ↦
        hmem a (List.mem_cons_of_mem head h)
  case h_8 => exact .reject (fun _ ↦ rfl) c hi
  all_goals
    rename_i hcell
    exact .pure hi (D.literal hi hc (by simp [hcell]))

/-- The evaluator keeps every discipline. -/
theorem evaluators_evalDepth (D : Discipline) (cfg : Settings) (depth : Nat) :
    D.Evaluators (evalDepth cfg depth) (evalDepth cfg depth) := by
  induction depth with
  | zero => exact fun c e m hi _ _ ↦ .throw rfl hi
  | succ depth ih => exact evaluators_evalStep cfg ih

end Calls

end Discipline

end LittleLisp
