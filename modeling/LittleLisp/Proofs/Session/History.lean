import LittleLisp.Proofs.Evaluator.Calls
import LittleLisp.Proofs.Reader.Rereading
import LittleLisp.Session

/-!
Sessions step by step. A history is the list of the expressions that a session has stored and
evaluated so far, each as the call of the evaluator that it was. What holds of a session and its
history at the start, and is kept by restarting, by storing one more expression and by evaluating
it, holds at every time, whether commands succeed or fail.
-/

namespace LittleLisp

open EvalM

inductive Command where
  | eval (code : Text)
  | load (code : Text)
  | reset

namespace Command

def data : Command → List Datum
  | .eval code =>
    match Program.parse code with
    | .ok p => p.entry.toList
    | .error _ => []
  | .load code => (TokenStream.ofLexed (lex code)).all.1
  | .reset => []

/-- Loading begins with an empty list, for the case that there is no expression. -/
def prepare : Command → Store → Store
  | .load _, s => (s.addList []).2
  | _, s => s

theorem storable_data (c : Command) : ∀ d ∈ c.data, d.Storable := by
  cases c with
  | eval code =>
    intro d hd
    rw [data] at hd
    split at hd
    case h_1 p hp => exact (Program.readable_entry hp (Option.mem_toList.1 hd)).storable
    case h_2 => cases hd
  | load code =>
    intro d hd
    refine (Reader.readable_all ?_ (by simp) d hd).storable
    exact fun t ht hk ↦ Lexer.isSymbol_of_mem_lex ht hk
  | reset => nofun

end Command

def Call.ofDatum (root : ScopeId) (m : Machine) (d : Datum) : Call :=
  ⟨(Store.load d m.store).1, root, { m with store := (Store.load d m.store).2 }⟩

/-- The calls that evaluate expressions one after the other, up to one that fails. -/
def callsOf (cfg : Settings) (root : ScopeId) : List Datum → Machine → List Call
  | [], _ => []
  | d :: ds, m =>
    .ofDatum root m d ::
      match (Call.ofDatum root m d).run (evaluate cfg) with
      | (.ok _, m') => callsOf cfg root ds m'
      | (.error _, _) => []

namespace Session

variable (cfg : Settings)

def perform (s : Session) : Command → Session
  | .eval code => (s.eval cfg code).2
  | .load code => (s.load cfg code).2
  | .reset => s.restart

def calls (s : Session) (c : Command) : List Call :=
  callsOf cfg s.root c.data ⟨c.prepare s.store, #[]⟩

/-- A session between two commands, with the expressions evaluated so far. -/
inductive Reaches : List Call → Session → Prop
  | start : Reaches [] .start
  | step {es : List Call} {s : Session} (c : Command) (before : Reaches es s) :
      Reaches (es ++ s.calls cfg c) (s.perform cfg c)

/-- A session evaluates an expression, the last of those evaluated so far. -/
inductive Begins : List Call → Call → Prop
  | command {es earlier later : List Call} {s : Session} {c : Command} {q : Call}
      (before : Reaches cfg es s) (calls : s.calls cfg c = earlier ++ q :: later) :
      Begins (es ++ (earlier ++ [q])) q

/-- The stores of a session: between commands, where the evaluator is called and where it returns,
and before and after every push. -/
inductive Moment : List Call → Store → Prop
  | between {es : List Call} {s : Session} (reached : Reaches cfg es s) : Moment es s.store
  | called {es : List Call} {q p : Call} {depth : Nat} (begins : Begins cfg es q)
      (hands : q.Hands cfg depth p) : Moment es p.machine.store
  | returned {es : List Call} {q p : Call} {depth : Nat} (begins : Begins cfg es q)
      (hands : q.Hands cfg depth p) : Moment es (p.run (evalDepth cfg depth)).2.store
  | pushing {es : List Call} {q p : Call} {depth : Nat} {h : HandleId} {v : CellId} {m : Machine}
      (begins : Begins cfg es q) (hands : q.Hands cfg (depth + 1) p)
      (pushes : p.Pushes cfg depth h v m) : Moment es m.store
  | pushed {es : List Call} {q p : Call} {depth : Nat} {h : HandleId} {v : CellId} {m : Machine}
      (begins : Begins cfg es q) (hands : q.Hands cfg (depth + 1) p)
      (pushes : p.Pushes cfg depth h v m) : Moment es (m.store.push h v)

theorem Begins.mem {cfg : Settings} {es : List Call} {q : Call} (h : Begins cfg es q) : q ∈ es := by
  cases h with
  | command => simp

end Session

theorem execute_evalDatum (cfg : Settings) (root : ScopeId) (d : Datum) (m : Machine) :
    (evalDatum cfg root d).execute m = (Call.ofDatum root m d).run (evaluate cfg) := rfl

theorem execute_evalSource (cfg : Settings) (root : ScopeId) (code : Text) (m : Machine) :
    (evalSource cfg root code).execute m =
      match Program.parse code with
      | .error f => (.error f, m)
      | .ok p =>
        match p.entry with
        | some d => (evalDatum cfg root d).execute m
        | none => Builtin.emptyList.execute m := by
  have hread : EvalM.execute (evalSource.liftExcept (Program.parse code)) m =
    (Program.parse code, m) := rfl
  rw [evalSource, execute_bind, hread]
  rcases Program.parse code with f | p
  · rfl
  · dsimp only
    cases p.entry <;> rfl

theorem callsOf_singleton (cfg : Settings) (root : ScopeId) (d : Datum) (m : Machine) :
    callsOf cfg root [d] m = [.ofDatum root m d] := by
  rw [callsOf]
  split <;> rfl

theorem execute_loadSource (cfg : Settings) (root : ScopeId) (code : Text) (m : Machine) :
    ((loadSource cfg root code).execute m).2 =
      ((evalData cfg root (m.store.addList []).1 (Command.load code).data).execute
        { m with store := (m.store.addList []).2 }).2 := by
  rcases hall : (TokenStream.ofLexed (lex code)).all with ⟨ds, fault, rest⟩
  have hdata : (Command.load code).data = ds := by rw [Command.data, hall]
  rw [loadSource, hall, hdata]
  dsimp only
  have hempty : Builtin.emptyList.execute m =
    (.ok (m.store.addList []).1, { m with store := (m.store.addList []).2 }) := rfl
  rw [execute_bind_ok hempty, execute_bind]
  rcases (evalData cfg root (m.store.addList []).1 ds).execute
    { m with store := (m.store.addList []).2 } with ⟨f | c, m'⟩
  · rfl
  · cases fault <;> rfl

/-- What holds at the start and is kept by everything that a session does. -/
structure HistoryInvariant (cfg : Settings) (P : List Call → Session → Prop) : Prop where
  start : P [] .start
  restart : ∀ {es : List Call} {s : Session}, P es s → P es s.restart
  emptyList : ∀ {es : List Call} {s : Session}, P es s →
    P es { s with store := (s.store.addList []).2 }
  store : ∀ {es : List Call} {s : Session} {d : Datum} (trace : Array Event), P es s →
    d.Storable →
    P (es ++ [.ofDatum s.root ⟨s.store, trace⟩ d])
      { s with store := (Store.load d s.store).2 }
  eval : ∀ {es : List Call} {q : Call}, q ∈ es → P es ⟨q.machine.store, q.scope⟩ →
    P es ⟨(q.run (evaluate cfg)).2.store, q.scope⟩

namespace HistoryInvariant

variable {cfg : Settings} {P : List Call → Session → Prop} {es : List Call} {root : ScopeId}
  {ds : List Datum} {m : Machine}

section

variable (hP : HistoryInvariant cfg P)
include hP

theorem stored {d : Datum} (hd : d.Storable) (h : P es ⟨m.store, root⟩) :
    P (es ++ [.ofDatum root m d]) ⟨(Call.ofDatum root m d).machine.store, root⟩ :=
  hP.store m.trace h hd

theorem evaluated {d : Datum} (hd : d.Storable) (h : P es ⟨m.store, root⟩) :
    P (es ++ [.ofDatum root m d])
      ⟨((Call.ofDatum root m d).run (evaluate cfg)).2.store, root⟩ :=
  hP.eval (q := .ofDatum root m d) (by simp) (hP.stored hd h)

theorem loaded (r : CellId) (hds : ∀ d ∈ ds, d.Storable) (h : P es ⟨m.store, root⟩) :
    P (es ++ callsOf cfg root ds m)
      ⟨((evalData cfg root r ds).execute m).2.store, root⟩ := by
  induction ds generalizing es m r with
  | nil =>
    rw [callsOf, List.append_nil]
    exact h
  | cons d ds ih =>
    have hd := hP.evaluated (hds d List.mem_cons_self) h
    have hds' := fun d' h ↦ hds d' (List.mem_cons_of_mem d h)
    have hrun := execute_evalDatum cfg root d m
    rw [callsOf, evalData]
    rcases hout : (Call.ofDatum root m d).run (evaluate cfg) with ⟨f | c, m'⟩
    · rw [hout] at hrun hd
      rw [execute_bind_error hrun]
      exact hd
    · rw [hout] at hrun hd
      rw [execute_bind_ok hrun, List.append_cons]
      exact ih c hds' hd

theorem begun {earlier later : List Call} {q : Call} (hds : ∀ d ∈ ds, d.Storable)
    (h : P es ⟨m.store, root⟩) (hq : callsOf cfg root ds m = earlier ++ q :: later) :
    P (es ++ (earlier ++ [q])) ⟨q.machine.store, q.scope⟩ := by
  induction ds generalizing es m earlier with
  | nil => simp [callsOf] at hq
  | cons d ds ih =>
    have hd := hds d List.mem_cons_self
    have hds' := fun d' h ↦ hds d' (List.mem_cons_of_mem d h)
    rw [callsOf] at hq
    cases earlier with
    | nil =>
      obtain ⟨rfl, -⟩ := List.cons.inj hq
      exact hP.stored hd h
    | cons e earlier =>
      obtain ⟨rfl, htail⟩ := List.cons.inj hq
      have hnext := hP.evaluated hd h
      rcases hout : (Call.ofDatum root m d).run (evaluate cfg) with ⟨f | c, m'⟩
      · simp [hout] at htail
      · rw [hout] at htail hnext
        rw [List.cons_append, List.append_cons]
        exact ih hds' hnext htail

theorem eval_command {s : Session} (code : Text) (h : P es s) :
    P (es ++ s.calls cfg (.eval code)) (s.perform cfg (.eval code)) := by
  simp only [Session.perform, Session.eval, Session.run, execute_evalSource, Session.calls,
    Command.data]
  rcases hp : Program.parse code with f | p
  · dsimp only
    rw [callsOf, List.append_nil]
    exact h
  · dsimp only
    rcases hentry : p.entry with - | d
    · rw [Option.toList_none, callsOf, List.append_nil]
      exact hP.emptyList h
    · rw [Option.toList_some, callsOf_singleton]
      exact hP.evaluated (Program.readable_entry hp hentry).storable h

theorem load_command {s : Session} (code : Text) (h : P es s) :
    P (es ++ s.calls cfg (.load code)) (s.perform cfg (.load code)) := by
  simp only [Session.perform, Session.load, Session.run, execute_loadSource]
  exact hP.loaded _ (Command.storable_data (.load code)) (hP.emptyList h)

theorem performed {s : Session} (c : Command) (h : P es s) :
    P (es ++ s.calls cfg c) (s.perform cfg c) := by
  cases c with
  | eval code => exact hP.eval_command code h
  | load code => exact hP.load_command code h
  | reset =>
    rw [Session.calls, Command.data, callsOf, List.append_nil]
    exact hP.restart h

theorem reaches {s : Session} (h : s.Reaches cfg es) : P es s := by
  induction h with
  | start => exact hP.start
  | step c _ ih => exact hP.performed c ih

theorem begins {q : Call} (h : Session.Begins cfg es q) : P es ⟨q.machine.store, q.scope⟩ := by
  cases h with
  | @command es earlier later s c q before calls =>
    refine hP.begun c.storable_data ?_ calls
    have hs := hP.reaches before
    cases c with
    | load code => exact hP.emptyList hs
    | eval | reset => exact hs

end

end HistoryInvariant

end LittleLisp
