import LittleLisp.Evaluator.Builtins
import LittleLisp.Evaluator.Forms

/-!
The evaluator. A name is looked up, a literal is its own value, a quote gives what it quotes, and a
non-empty list is a call. One step is written over an evaluator for its parts, and the evaluator of
a given depth is that step over the evaluator of the next smaller depth.
-/

namespace LittleLisp

open EvalM

variable (cfg : Settings)

def traceEvent (event : EvalM Event) : EvalM Unit := do
  if cfg.traced then note (← event)

/-- The scope in which a closure's body runs: its parameters, inside the scope that it captured. -/
def bindArguments (captured : ScopeId) (params : List Text) (args : List CellId) :
    EvalM ScopeId := do
  if params.length = args.length then change (·.addFrame captured (params.zip args))
  else throw (.argumentCount params args.length)

def invoke (eval : Evaluate) (fn : FunctionValue) (scope : ScopeId) (args : List CellId) :
    EvalM CellId := do
  match fn.executor with
  | .operator (.builtin op) => op.apply cfg.compareDepth args
  | .operator (.form op) => op.apply eval scope args
  | .operator (.host op) => op.apply eval scope args
  | .closure captured params body => eval body (← bindArguments captured params args)

def evalEach (eval : Evaluate) (scope : ScopeId) : List CellId → EvalM (List CellId)
  | [] => return []
  | c :: cs => do
    let v ← eval c scope
    return v :: (← evalEach eval scope cs)

def evalCall (eval : Evaluate) (scope : ScopeId) (head : CellId) (args : List CellId) :
    EvalM CellId := do
  let f ← eval head scope
  match ← cell f with
  | .function fn =>
    let args ← if fn.kind = .normal then evalEach eval scope args else pure args
    traceEvent cfg (pure (.call fn.name fn.kind args.length))
    let result ← invoke cfg eval fn scope args
    traceEvent cfg (return .returned fn.name (← snapshot result))
    return result
  | _ => reject .notCallable f

def evalStep (eval : Evaluate) : Evaluate := fun c scope ↦ do
  match ← cell c with
  | .atom name =>
    traceEvent cfg (pure (.lookup name))
    match (← getStore).lookup? scope name with
    | some value => return value
    | none => throw (.unbound name)
  | .number _ | .str _ | .bool _ | .function _ => return c
  | .quoted inner => return inner
  | .list h =>
    match ← items h with
    | [] => throw .emptyCall
    | head :: args => evalCall cfg eval scope head args
  | .absent => reject .notEvaluable c

def evalDepth : Nat → Evaluate
  | 0 => fun _ _ ↦ throw .tooDeep
  | depth + 1 => evalStep cfg (evalDepth depth)

def evaluate : Evaluate := evalDepth cfg cfg.evalDepth

end LittleLisp
