import LittleLisp.Store.Basic

/-!
Scopes. A name is looked up in a scope and then in the scopes around it; a definition changes one
scope only.
-/

namespace LittleLisp

/-- Rebinding keeps the place of a name; a new name comes last. -/
def bind (name : Text) (c : CellId) : List (Text × CellId) → List (Text × CellId)
  | [] => [(name, c)]
  | (n, old) :: rest => if n = name then (n, c) :: rest else (n, old) :: bind name c rest

namespace Store

def addScope (outer : Option ScopeId) (s : Store) : ScopeId × Store :=
  (s.scopes.size, { s with scopes := s.scopes.push ⟨[], outer⟩ })

/-- A scope and the scopes around it, innermost first. The scopes around a scope are older than it,
so as many steps as there are scopes reach the outermost one. -/
def scopeChainFrom (s : Store) : Nat → Option ScopeId → List (ScopeId × Scope)
  | fuel + 1, some e =>
    match s.scopes[e]? with
    | some scope => (e, scope) :: scopeChainFrom s fuel scope.outer
    | none => []
  | _, _ => []

def scopeChain (s : Store) (e : ScopeId) : List (ScopeId × Scope) :=
  s.scopeChainFrom s.scopes.size (some e)

def bindings (s : Store) (e : ScopeId) : List (Text × CellId) :=
  match s.scopes[e]? with
  | some scope => scope.bindings
  | none => []

def findScope? (s : Store) (e : ScopeId) (name : Text) : Option ScopeId :=
  ((s.scopeChain e).find? fun p ↦ (p.2.bindings.lookup name).isSome).map (·.1)

def lookup? (s : Store) (e : ScopeId) (name : Text) : Option CellId :=
  (s.scopeChain e).findSome? fun p ↦ p.2.bindings.lookup name

def names (s : Store) (e : ScopeId) : List Text := (s.bindings e).map (·.1)

def define (e : ScopeId) (name : Text) (c : CellId) (s : Store) : Store :=
  { s with scopes := s.scopes.modify e fun scope ↦
      { scope with bindings := bind name c scope.bindings } }

/-- A scope over `captured` with each name bound to the cell at its position. -/
def addFrame (captured : ScopeId) (bound : List (Text × CellId)) (s : Store) :
    ScopeId × Store :=
  let (e, s) := s.addScope (some captured)
  (e, bound.foldl (fun s p ↦ s.define e p.1 p.2) s)

def addOperator (e : ScopeId) (s : Store) (fn : FunctionValue) : Store :=
  let (c, s) := s.addCell (.function fn)
  s.define e fn.name c

def rootFunctions : List FunctionValue :=
  Builtin.all.map (fun op ↦ ⟨op.name, .normal, .operator (.builtin op)⟩) ++
    SpecialForm.all.map (fun op ↦ ⟨op.name, .specialForm, .operator (.form op)⟩)

def addRoot (s : Store) : ScopeId × Store :=
  let (e, s) := s.addScope none
  (e, rootFunctions.foldl (addOperator e) s)

end Store

end LittleLisp
