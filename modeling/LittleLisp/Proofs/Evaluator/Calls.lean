import LittleLisp.Proofs.Evaluator.Discipline

/-!
What happens inside an evaluation: the calls of the evaluator that it makes, at every depth, and
the functions that it applies. A call is made if its outcome matters: since no fault is ever
caught, an evaluator that fails on this call only would be noticed.
-/

namespace LittleLisp

open EvalM

/-- The evaluator gets a cell, in a scope and on a machine. -/
structure Call where
  cell : CellId
  scope : ScopeId
  machine : Machine

namespace Call

def run (q : Call) (eval : Evaluate) : Except Fault CellId × Machine :=
  (eval q.cell q.scope).execute q.machine

/-- With `eval` for the parts, the evaluation of `q` makes the call `q'`: another evaluator that
differs on this call only can give another outcome. -/
def Makes (cfg : Settings) (eval : Evaluate) (q q' : Call) : Prop :=
  ∃ eval' : Evaluate, (∀ p ≠ q', p.run eval' = p.run eval) ∧
    q.run (evalStep cfg eval') ≠ q.run (evalStep cfg eval)

/-- The calls made by the evaluation of `q`, with the budget that is left to each. -/
inductive Hands (cfg : Settings) (q : Call) : Nat → Call → Prop
  | self : Hands cfg q cfg.evalDepth q
  | part {depth : Nat} {p p' : Call} (outer : Hands cfg q (depth + 1) p)
      (makes : p.Makes cfg (evalDepth cfg depth) p') : Hands cfg q depth p'

/-- The evaluation of `q` applies `fn` to `args`, on the machine where these are ready. -/
def Applies (cfg : Settings) (depth : Nat) (q : Call) (fn : FunctionValue) (args : List CellId)
    (m : Machine) : Prop :=
  ∃ h head rest f m', q.machine.store.cell q.cell = .list h ∧
    q.machine.store.items h = head :: rest ∧
    (evalDepth cfg depth head q.scope).execute q.machine = (.ok f, m') ∧
    m'.store.cell f = .function fn ∧
    (if fn.kind = .normal then evalEach (evalDepth cfg depth) q.scope rest else pure rest).execute
      m' = (.ok args, m)

def Pushes (cfg : Settings) (depth : Nat) (q : Call) (h : HandleId) (v : CellId) (m : Machine) :
    Prop :=
  ∃ fn l, q.Applies cfg depth fn [v, l] m ∧ fn.executor = .operator (.builtin .push) ∧
    m.store.cell l = .list h

open Classical in
/-- The evaluator that fails on `q` with a fault and agrees with `eval` on every other call. -/
noncomputable def failingAt (q : Call) (f : Fault) (eval : Evaluate) : Evaluate := fun c e m ↦
  if Call.mk c e m = q then (.error f, m) else eval c e m

theorem run_failingAt_self (q : Call) (f : Fault) (eval : Evaluate) :
    q.run (q.failingAt f eval) = (.error f, q.machine) := if_pos rfl

theorem run_failingAt_of_ne {q p : Call} (h : p ≠ q) (f : Fault) (eval : Evaluate) :
    p.run (q.failingAt f eval) = p.run eval := if_neg h

/-- With `eval`, a computation over an evaluator makes the call `p`, from the machine `m`. -/
def RequestedBy {α : Type} (p : Call) (X : Evaluate → EvalM α) (eval : Evaluate) (m : Machine) :
    Prop :=
  ∃ eval' : Evaluate, (∀ q ≠ p, q.run eval' = q.run eval) ∧
    (X eval').execute m ≠ (X eval).execute m

theorem requestedBy_of_fails {α : Type} {X : Evaluate → EvalM α} {eval : Evaluate} {m : Machine}
    {p : Call} (h : ∀ f, (X (p.failingAt f eval)).execute m = (.error f, p.machine)) :
    p.RequestedBy X eval m := by
  by_cases hr : (X eval).execute m = (.error .tooDeep, p.machine)
  · refine ⟨p.failingAt .emptyCall eval, fun q hq ↦ run_failingAt_of_ne hq _ _, ?_⟩
    rw [h, hr]
    nofun
  · refine ⟨p.failingAt .tooDeep eval, fun q hq ↦ run_failingAt_of_ne hq _ _, ?_⟩
    rw [h]
    exact Ne.symm hr

theorem makes_of_fails {cfg : Settings} {eval : Evaluate} {q q' : Call}
    (h : ∀ f, q.run (evalStep cfg (q'.failingAt f eval)) = (.error f, q'.machine)) :
    q.Makes cfg eval q' :=
  requestedBy_of_fails (X := fun eval ↦ evalStep cfg eval q.cell q.scope) h

theorem makes_head (cfg : Settings) (eval : Evaluate) {q : Call} {h : HandleId} {head : CellId}
    {args : List CellId} (hc : q.machine.store.cell q.cell = .list h)
    (hi : q.machine.store.items h = head :: args) :
    q.Makes cfg eval ⟨head, q.scope, q.machine⟩ := by
  refine makes_of_fails fun f ↦ ?_
  have hhead := run_failingAt_self ⟨head, q.scope, q.machine⟩ f eval
  rw [run, evalStep, execute_bind_ok (execute_cell _)]
  simp only [hc]
  rw [execute_bind_ok (execute_items _)]
  simp only [hi]
  exact execute_bind_error hhead

end Call

namespace Discipline

variable {D : Discipline} {cfg : Settings} {depth : Nat} {q q' : Call}

structure Admits (D : Discipline) (q : Call) : Prop where
  inv : D.inv q.machine.store
  code : D.code q.machine.store q.cell
  scope : D.scope q.machine.store q.scope

theorem Admits.follows (hq : D.Admits q) (cfg : Settings) (depth : Nat) :
    D.Follows q.machine (evalDepth cfg depth q.cell q.scope) (evalDepth cfg depth q.cell q.scope)
      D.value :=
  evaluators_evalDepth D cfg depth hq.inv hq.code hq.scope

theorem Admits.makes (hq : D.Admits q) (hm : q.Makes cfg (evalDepth cfg depth) q') :
    D.Admits q' := by
  obtain ⟨eval', hagree, hne⟩ := hm
  refine Classical.byContradiction fun hn ↦ hne ?_
  -- An evaluator that differs on a call that is not admitted makes no difference.
  have hE : D.Evaluators (evalDepth cfg depth) eval' := by
    intro c e m hi hc he
    have hp : D.Admits ⟨c, e, m⟩ := ⟨hi, hc, he⟩
    have hsame := hagree ⟨c, e, m⟩ fun h ↦ hn (h ▸ hp)
    exact { hp.follows cfg depth with same := hsame }
  exact (evaluators_evalStep cfg hE hq.inv hq.code hq.scope).same

theorem Admits.hands {p : Call} (hq : D.Admits q) (hh : q.Hands cfg depth p) : D.Admits p := by
  induction hh with
  | self => exact hq
  | part _ makes ih => exact ih.makes makes

theorem Admits.applies {fn : FunctionValue} {args : List CellId} {m : Machine} (hq : D.Admits q)
    (ha : q.Applies cfg depth fn args m) :
    D.inv m.store ∧ fn.Callable (D.code m.store) (D.scope m.store) ∧ D.Suits fn m.store args := by
  obtain ⟨h, head, rest, f, m', hcell, hitems, hhead, hfn, hargs⟩ := ha
  have hmem : ∀ i ∈ head :: rest, D.code q.machine.store i := by
    intro i hi
    exact D.item hq.inv hq.code hcell (hitems ▸ hi)
  have hE := evaluators_evalDepth D cfg depth
  obtain ⟨-, hi₁, hg₁, hval, -⟩ := hE hq.inv (hmem head (by simp)) hq.scope
  rw [hhead] at hi₁ hg₁ hval
  have hrest : ∀ i ∈ rest, D.code m'.store i := by
    intro i hi
    exact D.code_mono hg₁ (hmem i (List.mem_cons_of_mem head hi))
  obtain ⟨-, hi₂, hg₂, hsuits, -⟩ :=
    follows_arguments fn hE hi₁ (D.scope_mono hg₁ hq.scope) hrest
  rw [hargs] at hi₂ hg₂ hsuits
  refine ⟨hi₂, ?_, hsuits rfl⟩
  exact D.callable hi₂ (D.value_mono hg₂ (hval rfl)) (hg₂.cell_eq_of_ne_absent hfn nofun)

theorem Admits.pushes {h : HandleId} {v : CellId} {m : Machine} (hq : D.Admits q)
    (hp : q.Pushes cfg depth h v m) :
    D.inv m.store ∧ D.value m.store v ∧ ∃ l, D.value m.store l ∧ m.store.cell l = .list h := by
  obtain ⟨fn, l, happ, hx, hl⟩ := hp
  obtain ⟨hi, hcall, hsuits⟩ := hq.applies happ
  have hk : fn.kind = .normal := by simpa only [FunctionValue.Callable, hx] using hcall
  have hval : ∀ a ∈ [v, l], D.value m.store a := by
    intro a ha
    simpa only [hk, if_true] using hsuits a ha
  exact ⟨hi, hval v (by simp), l, hval l (by simp), hl⟩

end Discipline

end LittleLisp
