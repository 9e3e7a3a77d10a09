import LittleLisp.Evaluator.Basic
import LittleLisp.Proofs.Semantics.Comparison

/-!
Evaluation by rules. The rules thread the store through the parts of an expression in the order in
which they are evaluated and stop at the first fault; no rule mentions a budget.
-/

namespace LittleLisp.Semantics

open LittleLisp.Store

def HoldNumbers (s : Store) (cs : List CellId) (xs : List Binary64) : Prop :=
  cs.map s.cell = xs.map .number

def HoldNames (s : Store) (cs : List CellId) (ns : List Text) : Prop :=
  cs.map s.cell = ns.map .atom

def IsArithmetic (op : Builtin) : Prop := op = .add ∨ op = .sub ∨ op = .mul ∨ op = .div

/-- The number of operands of an operator whose last operand is a list. -/
inductive ListOperands : Builtin → Nat → Prop
  | push : ListOperands .push 2
  | car : ListOperands .car 1
  | cdr : ListOperands .cdr 1

inductive Yields (s : Store) : Builtin → List CellId → Except Fault CellId → Store → Prop
  | notNumeric {op : Builtin} {before after : List CellId} {xs : List Binary64} {c : CellId} :
      IsArithmetic op → HoldNumbers s before xs → (∀ x, s.cell c ≠ .number x) →
      Yields s op (before ++ c :: after) (.error (.notNumeric op (s.snapshot c))) s
  | sum {args : List CellId} {xs : List Binary64} :
      HoldNumbers s args xs →
      Yields s .add args (.ok (s.addCell (.number (xs.foldl .add (.zero false)))).1)
        (s.addCell (.number (xs.foldl .add (.zero false)))).2
  | product {args : List CellId} {xs : List Binary64} :
      HoldNumbers s args xs →
      Yields s .mul args (.ok (s.addCell (.number (xs.foldl .mul (.ofNat 1)))).1)
        (s.addCell (.number (xs.foldl .mul (.ofNat 1)))).2
  | difference {args : List CellId} {x : Binary64} {xs : List Binary64} :
      HoldNumbers s args (x :: xs) →
      Yields s .sub args (.ok (s.addCell (.number (xs.foldl .sub x))).1)
        (s.addCell (.number (xs.foldl .sub x))).2
  | quotient {args : List CellId} {x : Binary64} {xs : List Binary64} :
      HoldNumbers s args (x :: xs) →
      Yields s .div args (.ok (s.addCell (.number (xs.foldl .div x))).1)
        (s.addCell (.number (xs.foldl .div x))).2
  | operandsMissing {op : Builtin} :
      op = .sub ∨ op = .div → Yields s op [] (.error (.operandsMissing op)) s
  | list {args : List CellId} : Yields s .list args (.ok (s.addList args).1) (s.addList args).2
  | push {v l : CellId} {h : HandleId} :
      s.cell l = .list h → Yields s .push [v, l] (.ok l) (s.push h v)
  | car {l first : CellId} {h : HandleId} {rest : List CellId} :
      s.cell l = .list h → s.items h = first :: rest → Yields s .car [l] (.ok first) s
  | carEmpty {l : CellId} {h : HandleId} :
      s.cell l = .list h → s.items h = [] →
      Yields s .car [l] (.ok (s.addList []).1) (s.addList []).2
  /-- The rest of a list starts at its second node. -/
  | cdr {l : CellId} {h : HandleId} {n₁ n₂ : NodeId} {rest : List NodeId} :
      s.cell l = .list h → s.chain h = n₁ :: n₂ :: rest →
      Yields s .cdr [l] (.ok (s.addListFrom (some n₂)).1) (s.addListFrom (some n₂)).2
  | cdrEmpty {l : CellId} {h : HandleId} :
      s.cell l = .list h → (s.chain h).length ≤ 1 →
      Yields s .cdr [l] (.ok (s.addList []).1) (s.addList []).2
  | operandNotList {op : Builtin} {args : List CellId} {l : CellId} :
      ListOperands op args.length → args.getLast? = some l → (∀ h, s.cell l ≠ .list h) →
      Yields s op args (.error (.operandNotList op (s.snapshot l))) s
  | operandCount {op : Builtin} {n : Nat} {args : List CellId} :
      ListOperands op n → args.length ≠ n →
      Yields s op args (.error (.operandCount op n args.length)) s
  | same {a : CellId} :
      Yields s .eq [a, a] (.ok (s.addCell (.bool true)).1) (s.addCell (.bool true)).2
  | compared {a b : CellId} {r : Bool} :
      a ≠ b → Compares s (.cells a b) r →
      Yields s .eq [a, b] (.ok (s.addCell (.bool r)).1) (s.addCell (.bool r)).2
  | comparandCount {args : List CellId} :
      args.length ≠ 2 → Yields s .eq args (.error (.comparandCount args.length)) s

inductive Parameters (s : Store) (form : SpecialForm) (c : CellId) : Except Fault (List Text) → Prop
  | names {h : HandleId} {ns : List Text} :
      s.cell c = .list h → HoldNames s (s.items h) ns → Parameters s form c (.ok ns)
  | notSymbol {h : HandleId} {before after : List CellId} {ns : List Text} {p : CellId} :
      s.cell c = .list h → s.items h = before ++ p :: after → HoldNames s before ns →
      (∀ n, s.cell p ≠ .atom n) →
      Parameters s form c (.error (.parameterNotSymbol form (s.snapshot p)))
  | notList :
      (∀ h, s.cell c ≠ .list h) → Parameters s form c (.error (.parametersNotList form (s.snapshot c)))

def Accepts : SpecialForm → Nat → Prop
  | .define, n => n = 2
  | .defineFunction, n => n = 3
  | .sequence, n => 1 ≤ n
  | .branch, n => n = 3
  | .lambda, n => n = 2

inductive Task where
  | cell (c : CellId) (scope : ScopeId)
  /-- The rest of the arguments of a call, after those whose values are known. -/
  | arguments (fn : FunctionValue) (scope : ScopeId) (values rest : List CellId)
  /-- A call with its arguments as the function gets them. -/
  | invocation (fn : FunctionValue) (scope : ScopeId) (args : List CellId)
  /-- Expressions in order, of which the last gives the value. -/
  | sequence (scope : ScopeId) (c : CellId) (cs : List CellId)

def IsLiteral : Cell → Prop
  | .number _ | .str _ | .bool _ | .function _ => True
  | _ => False

inductive Evaluates : Task → Store → Except Fault CellId → Store → Prop
  | name {s : Store} {c v : CellId} {e : ScopeId} {n : Text} :
      s.cell c = .atom n → s.lookup? e n = some v → Evaluates (.cell c e) s (.ok v) s
  | unbound {s : Store} {c : CellId} {e : ScopeId} {n : Text} :
      s.cell c = .atom n → s.lookup? e n = none →
      Evaluates (.cell c e) s (.error (.unbound n)) s
  | literal {s : Store} {c : CellId} {e : ScopeId} :
      IsLiteral (s.cell c) → Evaluates (.cell c e) s (.ok c) s
  | quoted {s : Store} {c inner : CellId} {e : ScopeId} :
      s.cell c = .quoted inner → Evaluates (.cell c e) s (.ok inner) s
  | emptyCall {s : Store} {c : CellId} {e : ScopeId} {h : HandleId} :
      s.cell c = .list h → s.items h = [] → Evaluates (.cell c e) s (.error .emptyCall) s
  | absent {s : Store} {c : CellId} {e : ScopeId} :
      s.cell c = .absent → Evaluates (.cell c e) s (.error (.notEvaluable (s.snapshot c))) s
  | headFails {s s' : Store} {c f : CellId} {e : ScopeId} {h : HandleId} {args : List CellId}
      {x : Fault} :
      s.cell c = .list h → s.items h = f :: args → Evaluates (.cell f e) s (.error x) s' →
      Evaluates (.cell c e) s (.error x) s'
  | notCallable {s s' : Store} {c f v : CellId} {e : ScopeId} {h : HandleId}
      {args : List CellId} :
      s.cell c = .list h → s.items h = f :: args → Evaluates (.cell f e) s (.ok v) s' →
      (∀ fn, s'.cell v ≠ .function fn) →
      Evaluates (.cell c e) s (.error (.notCallable (s'.snapshot v))) s'
  | callNormal {s s' s'' : Store} {c f v : CellId} {e : ScopeId} {h : HandleId}
      {args : List CellId} {fn : FunctionValue} {o : Except Fault CellId} :
      s.cell c = .list h → s.items h = f :: args → Evaluates (.cell f e) s (.ok v) s' →
      s'.cell v = .function fn → fn.kind = .normal →
      Evaluates (.arguments fn e [] args) s' o s'' → Evaluates (.cell c e) s o s''
  | callRaw {s s' s'' : Store} {c f v : CellId} {e : ScopeId} {h : HandleId}
      {args : List CellId} {fn : FunctionValue} {o : Except Fault CellId} :
      s.cell c = .list h → s.items h = f :: args → Evaluates (.cell f e) s (.ok v) s' →
      s'.cell v = .function fn → fn.kind ≠ .normal →
      Evaluates (.invocation fn e args) s' o s'' → Evaluates (.cell c e) s o s''
  | argument {s s' s'' : Store} {a v : CellId} {e : ScopeId} {fn : FunctionValue}
      {values rest : List CellId} {o : Except Fault CellId} :
      Evaluates (.cell a e) s (.ok v) s' →
      Evaluates (.arguments fn e (values ++ [v]) rest) s' o s'' →
      Evaluates (.arguments fn e values (a :: rest)) s o s''
  | argumentFails {s s' : Store} {a : CellId} {e : ScopeId} {fn : FunctionValue}
      {values rest : List CellId} {x : Fault} :
      Evaluates (.cell a e) s (.error x) s' →
      Evaluates (.arguments fn e values (a :: rest)) s (.error x) s'
  | argumentsDone {s s' : Store} {e : ScopeId} {fn : FunctionValue} {values : List CellId}
      {o : Except Fault CellId} :
      Evaluates (.invocation fn e values) s o s' → Evaluates (.arguments fn e values []) s o s'
  | builtin {s s' : Store} {e : ScopeId} {fn : FunctionValue} {op : Builtin}
      {args : List CellId} {o : Except Fault CellId} :
      fn.executor = .operator (.builtin op) → Yields s op args o s' →
      Evaluates (.invocation fn e args) s o s'
  | closure {s s' : Store} {e captured : ScopeId} {fn : FunctionValue} {params : List Text}
      {body : CellId} {args : List CellId} {o : Except Fault CellId} :
      fn.executor = .closure captured params body → params.length = args.length →
      Evaluates (.cell body (s.addFrame captured (params.zip args)).1)
        (s.addFrame captured (params.zip args)).2 o s' →
      Evaluates (.invocation fn e args) s o s'
  | closureCount {s : Store} {e captured : ScopeId} {fn : FunctionValue} {params : List Text}
      {body : CellId} {args : List CellId} :
      fn.executor = .closure captured params body → params.length ≠ args.length →
      Evaluates (.invocation fn e args) s (.error (.argumentCount params args.length)) s
  | formShape {s : Store} {e : ScopeId} {fn : FunctionValue} {form : SpecialForm}
      {args : List CellId} :
      fn.executor = .operator (.form form) → ¬ Accepts form args.length →
      Evaluates (.invocation fn e args) s (.error (.formShape form)) s
  | define {s s' : Store} {e : ScopeId} {fn : FunctionValue} {name expr v : CellId} {n : Text} :
      fn.executor = .operator (.form .define) → s.cell name = .atom n →
      Evaluates (.cell expr e) s (.ok v) s' →
      Evaluates (.invocation fn e [name, expr]) s (.ok name) (s'.define e n v)
  | defineFails {s s' : Store} {e : ScopeId} {fn : FunctionValue} {name expr : CellId} {n : Text}
      {x : Fault} :
      fn.executor = .operator (.form .define) → s.cell name = .atom n →
      Evaluates (.cell expr e) s (.error x) s' →
      Evaluates (.invocation fn e [name, expr]) s (.error x) s'
  | defineName {s : Store} {e : ScopeId} {fn : FunctionValue} {name expr : CellId} :
      fn.executor = .operator (.form .define) → (∀ n, s.cell name ≠ .atom n) →
      Evaluates (.invocation fn e [name, expr]) s
        (.error (.nameNotSymbol .define (s.snapshot name))) s
  /-- The function captures the scope that binds it. -/
  | defineFunction {s : Store} {e : ScopeId} {fn : FunctionValue} {name params body : CellId}
      {n : Text} {ps : List Text} {f : CellId} {s' : Store} :
      fn.executor = .operator (.form .defineFunction) → s.cell name = .atom n →
      Parameters s .defineFunction params (.ok ps) →
      s.addCell (.function ⟨n, .normal, .closure e ps body⟩) = (f, s') →
      Evaluates (.invocation fn e [name, params, body]) s (.ok f) (s'.define e n f)
  | defineFunctionParameters {s : Store} {e : ScopeId} {fn : FunctionValue}
      {name params body : CellId} {n : Text} {x : Fault} :
      fn.executor = .operator (.form .defineFunction) → s.cell name = .atom n →
      Parameters s .defineFunction params (.error x) →
      Evaluates (.invocation fn e [name, params, body]) s (.error x) s
  | defineFunctionName {s : Store} {e : ScopeId} {fn : FunctionValue} {name params body : CellId} :
      fn.executor = .operator (.form .defineFunction) → (∀ n, s.cell name ≠ .atom n) →
      Evaluates (.invocation fn e [name, params, body]) s
        (.error (.nameNotSymbol .defineFunction (s.snapshot name))) s
  /-- The function captures a new scope inside the current one. -/
  | lambda {s s' s'' : Store} {e captured : ScopeId} {fn : FunctionValue} {params body f : CellId}
      {ps : List Text} :
      fn.executor = .operator (.form .lambda) → Parameters s .lambda params (.ok ps) →
      s.addScope (some e) = (captured, s') →
      s'.addCell (.function ⟨"lambda", .normal, .closure captured ps body⟩) = (f, s'') →
      Evaluates (.invocation fn e [params, body]) s (.ok f) s''
  | lambdaParameters {s : Store} {e : ScopeId} {fn : FunctionValue} {params body : CellId}
      {x : Fault} :
      fn.executor = .operator (.form .lambda) → Parameters s .lambda params (.error x) →
      Evaluates (.invocation fn e [params, body]) s (.error x) s
  | branch {s s' s'' : Store} {e : ScopeId} {fn : FunctionValue} {condition yes no v : CellId}
      {flag : Bool} {o : Except Fault CellId} :
      fn.executor = .operator (.form .branch) → Evaluates (.cell condition e) s (.ok v) s' →
      s'.cell v = .bool flag → Evaluates (.cell (if flag then yes else no) e) s' o s'' →
      Evaluates (.invocation fn e [condition, yes, no]) s o s''
  | branchFails {s s' : Store} {e : ScopeId} {fn : FunctionValue} {condition yes no : CellId}
      {x : Fault} :
      fn.executor = .operator (.form .branch) → Evaluates (.cell condition e) s (.error x) s' →
      Evaluates (.invocation fn e [condition, yes, no]) s (.error x) s'
  | branchCondition {s s' : Store} {e : ScopeId} {fn : FunctionValue}
      {condition yes no v : CellId} :
      fn.executor = .operator (.form .branch) → Evaluates (.cell condition e) s (.ok v) s' →
      (∀ flag, s'.cell v ≠ .bool flag) →
      Evaluates (.invocation fn e [condition, yes, no]) s
        (.error (.conditionNotBool (s'.snapshot v))) s'
  | block {s s' : Store} {e : ScopeId} {fn : FunctionValue} {c : CellId} {cs : List CellId}
      {o : Except Fault CellId} :
      fn.executor = .operator (.form .sequence) → Evaluates (.sequence e c cs) s o s' →
      Evaluates (.invocation fn e (c :: cs)) s o s'
  | sequenceLast {s s' : Store} {e : ScopeId} {c : CellId} {o : Except Fault CellId} :
      Evaluates (.cell c e) s o s' → Evaluates (.sequence e c []) s o s'
  | sequenceNext {s s' s'' : Store} {e : ScopeId} {c c' v : CellId} {cs : List CellId}
      {o : Except Fault CellId} :
      Evaluates (.cell c e) s (.ok v) s' → Evaluates (.sequence e c' cs) s' o s'' →
      Evaluates (.sequence e c (c' :: cs)) s o s''
  | sequenceFails {s s' : Store} {e : ScopeId} {c c' : CellId} {cs : List CellId} {x : Fault} :
      Evaluates (.cell c e) s (.error x) s' → Evaluates (.sequence e c (c' :: cs)) s (.error x) s'
  | collect {s : Store} {e : ScopeId} {fn : FunctionValue} {args : List CellId} :
      fn.executor = .operator (.host .collect) →
      Evaluates (.invocation fn e args) s (.ok (s.addList args).1) (s.addList args).2
  | first {s : Store} {e : ScopeId} {fn : FunctionValue} {a : CellId} {args : List CellId} :
      fn.executor = .operator (.host .first) →
      Evaluates (.invocation fn e (a :: args)) s (.ok a) s
  | evaluateLast {s s' : Store} {e : ScopeId} {fn : FunctionValue} {a : CellId}
      {args : List CellId} {o : Except Fault CellId} :
      fn.executor = .operator (.host .evaluateLast) → Evaluates (.cell a e) s o s' →
      Evaluates (.invocation fn e (args ++ [a])) s o s'
  | argumentMissing {s : Store} {e : ScopeId} {fn : FunctionValue} {op : HostOperation} :
      op = .first ∨ op = .evaluateLast → fn.executor = .operator (.host op) →
      Evaluates (.invocation fn e []) s (.error .missingArgument) s
  | count {s : Store} {e : ScopeId} {fn : FunctionValue} {args : List CellId} :
      fn.executor = .operator (.host .count) →
      Evaluates (.invocation fn e args) s (.ok (s.addCell (.number (.ofNat args.length))).1)
        (s.addCell (.number (.ofNat args.length))).2

theorem Parameters.ne_tooDeep {s : Store} {form : SpecialForm} {c : CellId} {x : Fault}
    (h : Parameters s form c (.error x)) : x ≠ .tooDeep := by
  cases h <;> simp

theorem Yields.ne_tooDeep {s s' : Store} {op : Builtin} {args : List CellId} {x : Fault}
    (h : Yields s op args (.error x) s') : x ≠ .tooDeep := by
  cases h <;> simp

/-- The rules never derive that something is too deep. -/
theorem Evaluates.ne_tooDeep {t : Task} {s s' : Store} {o : Except Fault CellId}
    (h : Evaluates t s o s') : o ≠ .error .tooDeep := by
  induction h with
  | builtin _ hy => rintro rfl; exact hy.ne_tooDeep rfl
  | defineFunctionParameters _ _ hp | lambdaParameters _ hp =>
    rintro ⟨⟩; exact hp.ne_tooDeep rfl
  | _ => first | assumption | simp

end LittleLisp.Semantics
