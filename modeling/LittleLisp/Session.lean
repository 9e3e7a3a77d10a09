import LittleLisp.Evaluator.Basic
import LittleLisp.Reader
import LittleLisp.Store.Load
import LittleLisp.Store.Printer

/-!
Sessions: source texts evaluated one after the other against one root scope. Definitions persist
until the session is restarted, which replaces the root and leaves the store behind.
-/

namespace LittleLisp

open EvalM

variable (cfg : Settings)

def evalDatum (root : ScopeId) (d : Datum) : EvalM CellId := do
  evaluate cfg (← change (Store.load d)) root

/-- Evaluates the only expression of a text; a text without one gives an empty list. -/
def evalSource (root : ScopeId) (code : Text) : EvalM CellId := do
  match (← liftExcept (Program.parse code)).entry with
  | some d => evalDatum cfg root d
  | none => Builtin.emptyList
where
  liftExcept {α : Type} (r : Except Fault α) : EvalM α := fun m ↦ (r, m)

/-- Evaluates expressions in order; the result is the last value, or `result` if there is none. -/
def evalData (root : ScopeId) (result : CellId) : List Datum → EvalM CellId
  | [] => return result
  | d :: ds => do evalData root (← evalDatum cfg root d) ds

/-- Evaluates all expressions of a text; those before a fault of the reader are evaluated before it
is raised. -/
def loadSource (root : ScopeId) (code : Text) : EvalM CellId := do
  let (ds, fault, _) := (TokenStream.ofLexed (lex code)).all
  let result ← evalData cfg root (← Builtin.emptyList) ds
  match fault with
  | some f => throw f
  | none => return result

structure Session where
  store : Store
  root : ScopeId

structure Outcome where
  result : Except Fault CellId
  trace : List Event

namespace Session

def start : Session :=
  let (root, store) := Store.empty.addRoot
  ⟨store, root⟩

def restart (s : Session) : Session :=
  let (root, store) := s.store.addRoot
  ⟨store, root⟩

def run (s : Session) (x : ScopeId → EvalM CellId) : Outcome × Session :=
  let (result, m) := (x s.root).execute ⟨s.store, #[]⟩
  (⟨result, m.trace.toList⟩, { s with store := m.store })

def eval (s : Session) (code : Text) : Outcome × Session :=
  s.run fun root ↦ evalSource cfg root code

def load (s : Session) (code : Text) : Outcome × Session :=
  s.run fun root ↦ loadSource cfg root code

def report (s : Session) (o : Outcome) : Except Fault Text := do s.store.print (← o.result)

end Session

end LittleLisp
