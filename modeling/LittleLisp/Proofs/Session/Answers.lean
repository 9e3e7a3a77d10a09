import LittleLisp.Proofs.Evaluator.Capture
import LittleLisp.Proofs.Session.History

/-!
What a session answers to its commands: the printed result or the fault, and the events noted. A
session may be run with another evaluator; with the evaluator of the language it is the session
that it was.
-/

namespace LittleLisp

open EvalM

structure Answer where
  shown : Except Fault Text
  trace : List Event

def Answer.of (r : Outcome × Session) : Answer := ⟨r.2.report r.1, r.1.trace⟩

def printed (answers : List (Option Answer)) : List (Option Text) :=
  answers.map (·.bind (·.shown.toOption))

def converse {σ γ α : Type} (respond : σ → γ → α × σ) : σ → List γ → List α × σ
  | s, [] => ([], s)
  | s, c :: cs =>
    let (a, s) := respond s c
    let (as, s) := converse respond s cs
    (a :: as, s)

theorem converse_cons {σ γ α : Type} (respond : σ → γ → α × σ) (s : σ) (c : γ) (cs : List γ) :
    converse respond s (c :: cs) =
      ((respond s c).1 :: (converse respond (respond s c).2 cs).1,
        (converse respond (respond s c).2 cs).2) := rfl

def Session.respond (cfg : Settings) (s : Session) : Command → Option Answer × Session
  | .eval code => (some (.of (s.eval cfg code)), (s.eval cfg code).2)
  | .load code => (some (.of (s.load cfg code)), (s.load cfg code).2)
  | .reset => (none, s.restart)

section By

variable (eval : Evaluate)

def evalDatumBy (root : ScopeId) (d : Datum) : EvalM CellId := do
  eval (← change (Store.load d)) root

def evalSourceBy (root : ScopeId) (code : Text) : EvalM CellId := do
  match (← evalSource.liftExcept (Program.parse code)).entry with
  | some d => evalDatumBy eval root d
  | none => Builtin.emptyList

def evalDataBy (root : ScopeId) (result : CellId) : List Datum → EvalM CellId
  | [] => return result
  | d :: ds => do evalDataBy root (← evalDatumBy eval root d) ds

def loadSourceBy (root : ScopeId) (code : Text) : EvalM CellId := do
  let (ds, fault, _) := (TokenStream.ofLexed (lex code)).all
  let result ← evalDataBy eval root (← Builtin.emptyList) ds
  match fault with
  | some f => throw f
  | none => return result

def Session.respondBy (s : Session) : Command → Option Answer × Session
  | .eval code =>
    let r := s.run (evalSourceBy eval · code)
    (some (.of r), r.2)
  | .load code =>
    let r := s.run (loadSourceBy eval · code)
    (some (.of r), r.2)
  | .reset => (none, s.restart)

end By

variable (cfg : Settings)

theorem evalDataBy_evaluate (root : ScopeId) (result : CellId) (ds : List Datum) :
    evalDataBy (evaluate cfg) root result ds = evalData cfg root result ds := by
  induction ds generalizing result with
  | nil => rfl
  | cons d ds ih =>
    simp only [evalDataBy, ih]
    rfl

theorem Session.respondBy_evaluate (s : Session) (c : Command) :
    s.respondBy (evaluate cfg) c = s.respond cfg c := by
  cases c with
  | eval code => rfl
  | load code =>
    have hload : loadSourceBy (evaluate cfg) s.root code = loadSource cfg s.root code := by
      simp only [loadSourceBy, evalDataBy_evaluate]
      rfl
    simp only [respondBy, respond, load, run, hload]
  | reset => rfl

theorem Session.respond_snd (s : Session) (c : Command) :
    (s.respond cfg c).2 = s.perform cfg c := by
  cases c <;> rfl

end LittleLisp
