import LittleLisp.Proofs.Evaluator.Execution

/-!
The evaluator with another choice of the scope that an unnamed function captures. With a new scope
inside the current one it is the evaluator of the language. The flat choice is the current scope
itself, which named functions capture too.
-/

namespace LittleLisp

open EvalM

/-- Finds the scope to capture, given the current one. -/
abbrev Capture := ScopeId → EvalM ScopeId

namespace Capture

def child : Capture := fun scope ↦ change (·.addScope (some scope))

def flat : Capture := fun scope ↦ pure scope

end Capture

section Evaluator

variable (cfg : Settings) (capture : Capture)

def lambdaWith (scope : ScopeId) : List CellId → EvalM CellId
  | [params, body] => do
    let ps ← SpecialForm.parameters .lambda params
    let captured ← capture scope
    change (·.addCell (.function ⟨SpecialForm.name .lambda, .normal, .closure captured ps body⟩))
  | _ => throw (.formShape .lambda)

def invokeWith (eval : Evaluate) (fn : FunctionValue) (scope : ScopeId) (args : List CellId) :
    EvalM CellId :=
  match fn.executor with
  | .operator (.form .lambda) => lambdaWith capture scope args
  | _ => invoke cfg eval fn scope args

def evalCallWith (eval : Evaluate) (scope : ScopeId) (head : CellId) (args : List CellId) :
    EvalM CellId := do
  let f ← eval head scope
  match ← cell f with
  | .function fn =>
    let args ← if fn.kind = .normal then evalEach eval scope args else pure args
    traceEvent cfg (pure (.call fn.name fn.kind args.length))
    let result ← invokeWith cfg capture eval fn scope args
    traceEvent cfg (return .returned fn.name (← snapshot result))
    return result
  | _ => reject .notCallable f

def evalStepWith (eval : Evaluate) : Evaluate := fun c scope ↦ do
  match ← cell c with
  | .list h =>
    match ← items h with
    | [] => throw .emptyCall
    | head :: args => evalCallWith cfg capture eval scope head args
  | _ => evalStep cfg eval c scope

def evalDepthWith : Nat → Evaluate
  | 0 => fun _ _ ↦ throw .tooDeep
  | depth + 1 => evalStepWith cfg capture (evalDepthWith depth)

def evaluateWith : Evaluate := evalDepthWith cfg capture cfg.evalDepth

variable {cfg}

theorem invokeWith_child (eval : Evaluate) : invokeWith cfg .child eval = invoke cfg eval := by
  funext fn scope args
  obtain ⟨name, kind, executor⟩ := fn
  rw [invokeWith]
  split
  case h_1 hx =>
    cases hx
    rfl
  case h_2 => rfl

theorem evalStepWith_child (eval : Evaluate) :
    evalStepWith cfg .child eval = evalStep cfg eval := by
  have hcall : evalCallWith cfg .child eval = evalCall cfg eval := by
    funext scope head args
    rewrite [evalCallWith, invokeWith_child]
    rfl
  funext c scope m
  change (evalStepWith cfg .child eval c scope).execute m = (evalStep cfg eval c scope).execute m
  rw [evalStepWith, execute_bind_ok (execute_cell c)]
  split
  case h_1 h hc =>
    rewrite [evalStep, execute_bind_ok (execute_cell c), hc, hcall]
    rfl
  case h_2 => rfl

theorem evalDepthWith_child (depth : Nat) :
    evalDepthWith cfg .child depth = evalDepth cfg depth := by
  induction depth with
  | zero => rfl
  | succ depth ih => rw [evalDepthWith, ih, evalStepWith_child, evalDepth]

end Evaluator

end LittleLisp
