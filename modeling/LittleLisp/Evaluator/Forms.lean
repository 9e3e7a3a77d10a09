import LittleLisp.Evaluator.Machine

namespace LittleLisp

abbrev Evaluate := CellId → ScopeId → EvalM CellId

namespace SpecialForm

open EvalM

def symbol (form : SpecialForm) (c : CellId) : EvalM Text := do
  match ← cell c with
  | .atom name => return name
  | _ => reject (.nameNotSymbol form) c

def parameterNames (form : SpecialForm) : List CellId → EvalM (List Text) :=
  readAll Cell.name? (.parameterNotSymbol form)

def parameters (form : SpecialForm) (c : CellId) : EvalM (List Text) := do
  match ← cell c with
  | .list h => parameterNames form (← items h)
  | _ => reject (.parametersNotList form) c

def applyDefine (eval : Evaluate) (scope : ScopeId) : List CellId → EvalM CellId
  | [name, expr] => do
    let n ← symbol .define name
    let value ← eval expr scope
    change fun s ↦ (name, s.define scope n value)
  | _ => throw (.formShape .define)

/-- A named function closes over the scope that binds it, so its body can use its own name and
later definitions. -/
def applyDefineFunction (scope : ScopeId) : List CellId → EvalM CellId
  | [name, params, body] => do
    let n ← symbol .defineFunction name
    let ps ← parameters .defineFunction params
    let fn ← change (·.addCell (.function ⟨n, .normal, .closure scope ps body⟩))
    change fun s ↦ (fn, s.define scope n fn)
  | _ => throw (.formShape .defineFunction)

def sequenceFrom (eval : Evaluate) (scope : ScopeId) : CellId → List CellId → EvalM CellId
  | e, [] => eval e scope
  | e, e' :: es => do
    let _ ← eval e scope
    sequenceFrom eval scope e' es

def applySequence (eval : Evaluate) (scope : ScopeId) : List CellId → EvalM CellId
  | e :: es => sequenceFrom eval scope e es
  | [] => throw (.formShape .sequence)

/-- Only a boolean chooses a branch. -/
def applyBranch (eval : Evaluate) (scope : ScopeId) : List CellId → EvalM CellId
  | [condition, yes, no] => do
    let c ← eval condition scope
    match ← cell c with
    | .bool true => eval yes scope
    | .bool false => eval no scope
    | _ => reject .conditionNotBool c
  | _ => throw (.formShape .branch)

/-- An unnamed function captures a new scope inside the current one. -/
def applyLambda (scope : ScopeId) : List CellId → EvalM CellId
  | [params, body] => do
    let ps ← parameters .lambda params
    let captured ← change (·.addScope (some scope))
    change (·.addCell (.function ⟨SpecialForm.name .lambda, .normal, .closure captured ps body⟩))
  | _ => throw (.formShape .lambda)

def apply (eval : Evaluate) (form : SpecialForm) (scope : ScopeId) (args : List CellId) :
    EvalM CellId :=
  match form with
  | .define => applyDefine eval scope args
  | .defineFunction => applyDefineFunction scope args
  | .sequence => applySequence eval scope args
  | .branch => applyBranch eval scope args
  | .lambda => applyLambda scope args

end SpecialForm

namespace HostOperation

open EvalM

def apply (eval : Evaluate) (op : HostOperation) (scope : ScopeId) (args : List CellId) :
    EvalM CellId :=
  match op with
  | .collect => change (·.addList args)
  | .first =>
    match args.head? with
    | some c => return c
    | none => throw .missingArgument
  | .evaluateLast =>
    match args.getLast? with
    | some c => eval c scope
    | none => throw .missingArgument
  | .count => change (·.addCell (.number (.ofNat args.length)))

end HostOperation

end LittleLisp
