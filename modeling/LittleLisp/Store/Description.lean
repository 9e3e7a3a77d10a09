import LittleLisp.Store.Scope
import LittleLisp.Store.Unfold

namespace LittleLisp.Store

def describe (s : Store) (c : CellId) : String := (s.snapshot c).described

def describeAll (s : Store) (cs : List CellId) : String :=
  "[" ++ ", ".intercalate (cs.map s.describe) ++ "]"

def describeList (s : Store) (h : HandleId) : String :=
  "LispList(" ++ s.describeAll (s.items h) ++ ")"

def describeFirstNode (s : Store) (h : HandleId) : String :=
  match s.head h with
  | some n => "ListNode(" ++ s.describe (s.nodeValue n) ++ ")"
  | none => "None"

def describeExecutor (s : Store) : Executor → Text
  | .operator op => op.describe
  | .closure _ params body =>
    "(λ (" ++ Text.join " " params ++ ") " ++ s.describe body ++ ")"

def describeFunction (s : Store) (fn : FunctionValue) : Text :=
  "FunctionValue(" ++ Text.quotedString fn.name ++ ", " ++ fn.kind.name ++ ", " ++
    s.describeExecutor fn.executor ++ ")"

def describeBindings (s : Store) (bindings : List (Text × CellId)) : Text :=
  "\x7b" ++ Text.join ", " (bindings.map fun p ↦ p.1 ++ ": " ++ s.describe p.2) ++ "\x7d"

def describeScope (s : Store) (e : ScopeId) : Text :=
  s.describeBindings (s.bindings e) ++
    (if (s.scopes[e]?.bind (·.outer)).isSome then " -> ..." else "")

def describeScopeChain (s : Store) (e : ScopeId) : Text :=
  "<Environment chain: " ++
    Text.join " -> " ((s.scopeChain e).map fun p ↦ s.describeBindings p.2.bindings) ++ ">"

end LittleLisp.Store
