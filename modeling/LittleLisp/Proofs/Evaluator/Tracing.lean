import LittleLisp.Proofs.Evaluator.Parametric
import Mathlib.Data.List.Basic

/-!
The trace of an evaluation. A call is noted once its function and its arguments are there, and its
return when the function has returned; what the function evaluates stands between the two. If the
evaluation succeeds the calls and returns are well bracketed. If it fails, the calls that are left
open are those that were active at the fault.
-/

namespace LittleLisp

open EvalM
open Semantics (invokeTraced)

namespace Event

def isLookup : Event → Bool
  | .lookup _ => true
  | _ => false

/-- The calls that are open after an event, innermost first. A return closes the innermost one,
which has its name. -/
def follow (opened : List Event) : Event → Option (List Event)
  | .call name kind arguments => some (.call name kind arguments :: opened)
  | .returned name _ =>
    match opened with
    | .call name' _ _ :: rest => if name' = name then some rest else none
    | _ => none
  | .lookup _ => none

end Event

def brackets (events : List Event) : List Event := events.filter (!·.isLookup)

/-- The calls that a word of calls and returns leaves open, outermost first; `none` if a return does
not close the innermost open call. -/
def unclosed (word : List Event) : Option (List Event) :=
  (word.foldlM Event.follow []).map List.reverse

def WellBracketed (word : List Event) : Prop := unclosed word = some []

/-- Whatever is open before, the word leaves `opened` open besides, innermost first. -/
def Leaves (word opened : List Event) : Prop :=
  ∀ before, word.foldlM Event.follow before = some (opened ++ before)

namespace Leaves

variable {w w' opened opened' : List Event}

theorem nil : Leaves [] [] := fun _ ↦ rfl

theorem append (h : Leaves w opened) (h' : Leaves w' opened') :
    Leaves (w ++ w') (opened' ++ opened) := by
  intro before
  rw [List.foldlM_append, h, Option.bind_eq_bind, Option.bind_some, h', List.append_assoc]

theorem call (name : Text) (kind : Kind) (arguments : Nat) :
    Leaves [.call name kind arguments] [.call name kind arguments] := fun _ ↦ rfl

theorem returned {name : Text} {kind : Kind} {arguments : Nat} (value : Datum)
    (h : Leaves w (.call name kind arguments :: opened)) :
    Leaves (w ++ [.returned name value]) opened := by
  intro before
  rw [List.foldlM_append, h]
  simp [Event.follow]

theorem unclosed (h : Leaves w opened) : unclosed w = some opened.reverse := by
  rw [LittleLisp.unclosed, h, Option.map_some, List.append_nil]

end Leaves

/-- Calls can always return, the innermost first. -/
theorem Leaves.closable {w opened : List Event} (h : Leaves w opened)
    (hcalls : ∀ v ∈ opened, ∃ name kind arguments, v = .call name kind arguments) :
    ∃ rest, WellBracketed (w ++ rest) := by
  have hrest : ∃ rest, Leaves (w ++ rest) [] := by
    induction opened generalizing w with
    | nil => exact ⟨[], by rwa [List.append_nil]⟩
    | cons v opened ih =>
      obtain ⟨name, kind, arguments, rfl⟩ := hcalls v List.mem_cons_self
      obtain ⟨rest, hrest⟩ := ih (h.returned (.list [])) fun v hv ↦
        hcalls v (List.mem_cons_of_mem _ hv)
      exact ⟨.returned name (.list []) :: rest, by rwa [List.append_cons]⟩
  obtain ⟨rest, hrest⟩ := hrest
  exact ⟨rest, hrest.unclosed⟩

def Logs (m m' : Machine) (opened : List Event) : Prop :=
  ∃ events, m'.trace.toList = m.trace.toList ++ events ∧ Leaves (brackets events) opened

namespace Logs

variable {m m' m'' : Machine} {opened opened' : List Event}

theorem of_eq (h : m'.trace = m.trace) : Logs m m' [] := ⟨[], by rw [h, List.append_nil], .nil⟩

theorem trans (h : Logs m m' opened) (h' : Logs m' m'' opened') :
    Logs m m'' (opened' ++ opened) := by
  obtain ⟨events, htrace, hleaves⟩ := h
  obtain ⟨events', htrace', hleaves'⟩ := h'
  refine ⟨events ++ events', by rw [htrace', htrace, List.append_assoc], ?_⟩
  rw [brackets, List.filter_append]
  exact hleaves.append hleaves'

end Logs

/-- A function that has been called, with the budget that is left to what it evaluates. -/
@[ext]
structure Activation where
  depth : Nat
  fn : FunctionValue
  args : List CellId

def Activation.event (a : Activation) : Event := .call a.fn.name a.fn.kind a.args.length

namespace Call

def IsActive (cfg : Settings) (q : Call) (a : Activation) : Prop :=
  ∃ p m, q.Hands cfg (a.depth + 1) p ∧ p.Applies cfg a.depth a.fn a.args m ∧
    ∀ v, (p.run (evalDepth cfg (a.depth + 1))).1 ≠ .ok v

/-- The calls made in the evaluation of `q` with a given budget, as `Hands` has them. -/
inductive Nests (cfg : Settings) (budget : Nat) (q : Call) : Nat → Call → Prop
  | self : Nests cfg budget q budget q
  | part {depth : Nat} {p p' : Call} (outer : Nests cfg budget q (depth + 1) p)
      (makes : p.Makes cfg (evalDepth cfg depth) p') : Nests cfg budget q depth p'

variable {cfg : Settings} {q p : Call} {depth budget : Nat}

theorem hands_iff_nests : q.Hands cfg depth p ↔ q.Nests cfg cfg.evalDepth depth p := by
  constructor <;> intro h
  · induction h with
    | self => exact .self
    | part _ makes ih => exact .part ih makes
  · induction h with
    | self => exact .self
    | part _ makes ih => exact .part ih makes

theorem Nests.le (h : q.Nests cfg budget depth p) : depth ≤ budget := by
  induction h with
  | self => exact Nat.le_refl _
  | part _ _ ih => omega

theorem nests_succ_iff : q.Nests cfg (budget + 1) depth p ↔ (depth = budget + 1 ∧ p = q) ∨
    ∃ p', q.Makes cfg (evalDepth cfg budget) p' ∧ p'.Nests cfg budget depth p := by
  constructor
  · intro h
    induction h with
    | self => exact .inl ⟨rfl, rfl⟩
    | @part depth p p' _ makes ih =>
      refine .inr ?_
      rcases ih with ⟨hdepth, rfl⟩ | ⟨p₁, hmakes, hp⟩
      · cases hdepth
        exact ⟨p', makes, .self⟩
      · exact ⟨p₁, hmakes, .part hp makes⟩
  · rintro (⟨rfl, rfl⟩ | ⟨p', hmakes, hp⟩)
    · exact .self
    · induction hp with
      | self => exact .part .self hmakes
      | part _ makes ih => exact .part ih makes

theorem Nests.fails {f : Fault} {m : Machine} (h : q.Nests cfg budget depth p)
    (hf : p.run (evalDepth cfg depth) = (.error f, m)) :
    q.run (evalDepth cfg budget) = (.error f, m) := by
  induction h with
  | self => exact hf
  | @part depth p p' _ makes ih =>
    have hrequest : p'.RequestedBy (fun eval ↦ evalStep cfg eval p.cell p.scope)
        (evalDepth cfg depth) p.machine := makes
    exact ih (hrequest.fault (Parametric.evalStep cfg p.cell p.scope) hf)

def Active (cfg : Settings) (budget : Nat) (q : Call) (a : Activation) : Prop :=
  ∃ p m, q.Nests cfg budget (a.depth + 1) p ∧ p.Applies cfg a.depth a.fn a.args m ∧
    ∀ v, (p.run (evalDepth cfg (a.depth + 1))).1 ≠ .ok v

variable {a : Activation}

theorem Active.lt (h : q.Active cfg budget a) : a.depth < budget := by
  obtain ⟨p, m, hp, -, -⟩ := h
  exact hp.le

theorem Active.fails (h : q.Active cfg budget a) :
    ∃ f m, q.run (evalDepth cfg budget) = (.error f, m) := by
  obtain ⟨p, m, hp, -, hne⟩ := h
  rcases hrun : p.run (evalDepth cfg (a.depth + 1)) with ⟨f | v, m'⟩
  · exact ⟨f, m', hp.fails hrun⟩
  · exact absurd (by rw [hrun]) (hne v)

theorem active_succ_iff : q.Active cfg (budget + 1) a ↔
    (a.depth = budget ∧ (∃ m, q.Applies cfg budget a.fn a.args m) ∧
      ∀ v, (q.run (evalDepth cfg (budget + 1))).1 ≠ .ok v) ∨
    ∃ p, q.Makes cfg (evalDepth cfg budget) p ∧ p.Active cfg budget a := by
  obtain ⟨depth, fn, args⟩ := a
  constructor
  · rintro ⟨p, m, hp, happlies, hne⟩
    rcases nests_succ_iff.1 hp with ⟨hdepth, rfl⟩ | ⟨p', hmakes, hp'⟩
    · obtain rfl : depth = budget := Nat.succ.inj hdepth
      exact .inl ⟨rfl, ⟨m, happlies⟩, hne⟩
    · exact .inr ⟨p', hmakes, p, m, hp', happlies, hne⟩
  · rintro (⟨rfl, ⟨m, happlies⟩, hne⟩ | ⟨p', hmakes, p, m, hp, happlies, hne⟩)
    · exact ⟨q, m, .self, happlies, hne⟩
    · exact ⟨p, m, nests_succ_iff.2 (.inr ⟨p', hmakes, hp⟩), happlies, hne⟩

theorem requestedBy_self (eval : Evaluate) (c : CellId) (e : ScopeId) (m : Machine) :
    RequestedBy ⟨c, e, m⟩ (fun eval ↦ eval c e) eval m :=
  requestedBy_of_fails fun f ↦ run_failingAt_self _ f eval

/-- The active calls in the evaluation of `q`, outermost first, are those that its trace leaves
open. -/
structure Traced (cfg : Settings) (depth : Nat) (q : Call) (active : List Activation) : Prop where
  sorted : active.Pairwise fun a b ↦ b.depth < a.depth
  mem : ∀ a, a ∈ active ↔ q.Active cfg depth a
  logs : Logs q.machine (q.run (evalDepth cfg depth)).2 (active.reverse.map Activation.event)

end Call

structure Traces {α : Type} (cfg : Settings) (depth : Nat) (X : Evaluate → EvalM α) (m : Machine)
    (active : List Activation) : Prop where
  sorted : active.Pairwise fun a b ↦ b.depth < a.depth
  mem : ∀ a, a ∈ active ↔
    ∃ p : Call, p.RequestedBy X (evalDepth cfg depth) m ∧ p.Active cfg depth a
  logs : Logs m ((X (evalDepth cfg depth)).execute m).2 (active.reverse.map Activation.event)

section Step

variable {α : Type} {cfg : Settings} {E : Event → Prop} {depth : Nat} {X : Evaluate → EvalM α}
  {m m' : Machine} {active : List Activation} {q : Call}

theorem Traces.nil_of_ok (h : Traces cfg depth X m active) (hX : Parametric cfg E X) {v : α}
    (hv : (X (evalDepth cfg depth)).execute m = (.ok v, m')) : active = [] := by
  refine List.eq_nil_iff_forall_not_mem.2 fun a ha ↦ ?_
  obtain ⟨p, hp, hactive⟩ := (h.mem a).1 ha
  obtain ⟨f, m₁, hf⟩ := hactive.fails
  rw [hp.fault hX hf] at hv
  cases hv

/-- A computation that notes no events itself has the trace of the calls that it makes. -/
theorem exists_traces (ih : ∀ q : Call, ∃ active, q.Traced cfg depth active)
    (hX : Parametric cfg (fun _ ↦ False) X) (m : Machine) :
    ∃ active, Traces cfg depth X m active := by
  induction hX generalizing m with
  | quiet hx =>
    refine ⟨[], .nil, fun a ↦ ?_, .of_eq ?_⟩
    · exact iff_of_false List.not_mem_nil fun ⟨p, hp, _⟩ ↦ hp.not_const
    · rw [hx m.store m.trace]
  | trace h =>
    obtain ⟨v, hv, -⟩ := h m.store
    exact hv.elim
  | call c e =>
    obtain ⟨active, hactive⟩ := ih ⟨c, e, m⟩
    refine ⟨active, hactive.sorted, fun a ↦ (hactive.mem a).trans ⟨fun ha ↦ ?_, ?_⟩, hactive.logs⟩
    · exact ⟨_, Call.requestedBy_self _ c e m, ha⟩
    · rintro ⟨p, hp, ha⟩
      rwa [hp.eq_of_call] at ha
  | @bind _ _ X F hX hF ihX ihF =>
    obtain ⟨active, hactive⟩ := ihX m
    have hlogs := hactive.logs
    rcases hrun : (X (evalDepth cfg depth)).execute m with ⟨f | a, m₁⟩ <;> rw [hrun] at hlogs
    · refine ⟨active, hactive.sorted, fun a ↦ (hactive.mem a).trans ⟨?_, ?_⟩, ?_⟩
      · rintro ⟨p, hp, ha⟩
        exact ⟨p, hp.bind_left hX, ha⟩
      · rintro ⟨p, hp, ha⟩
        rcases hp.bind_cases with hp | ⟨b, m₂, hok, -⟩
        · exact ⟨p, hp, ha⟩
        · rw [hrun] at hok
          cases hok
      · rwa [execute_bind_error hrun]
    · obtain rfl := hactive.nil_of_ok hX hrun
      obtain ⟨active', hactive'⟩ := ihF a m₁
      refine ⟨active', hactive'.sorted, fun b ↦ (hactive'.mem b).trans ⟨?_, ?_⟩, ?_⟩
      · rintro ⟨p, hp, hb⟩
        exact ⟨p, hp.bind_right hX (hF a) hrun, hb⟩
      · rintro ⟨p, hp, hb⟩
        rcases hp.bind_cases with hp | ⟨b, m₂, hok, hp⟩
        · exact absurd ((hactive.mem _).2 ⟨p, hp, hb⟩) List.not_mem_nil
        · rw [hrun] at hok
          cases hok
          exact ⟨p, hp, hb⟩
      · rw [execute_bind_ok hrun, ← List.append_nil (active'.reverse.map _)]
        exact hlogs.trans hactive'.logs

theorem Logs.note (m : Machine) (a : Activation) :
    Logs m { m with trace := m.trace.push a.event } [a.event] :=
  ⟨[a.event], Array.toList_push, .call _ _ _⟩

theorem Logs.returned {a : Activation} (h : Logs m m' [a.event]) (value : Datum) :
    Logs m { m' with trace := m'.trace.push (.returned a.fn.name value) } [] := by
  obtain ⟨events, htrace, hleaves⟩ := h
  refine ⟨events ++ [.returned a.fn.name value], ?_, ?_⟩
  · rw [Array.toList_push, htrace, List.append_assoc]
  · rw [brackets, List.filter_append]
    exact hleaves.returned value

theorem execute_invokeTraced (ht : cfg.traced = true) (eval : Evaluate) (a : Activation)
    (e : ScopeId) (m : Machine) : (invokeTraced cfg eval a.fn e a.args).execute m =
      match (invoke cfg eval a.fn e a.args).execute { m with trace := m.trace.push a.event } with
      | (.ok v, m') => (.ok v, { m' with
          trace := m'.trace.push (.returned a.fn.name (m'.store.snapshot v)) })
      | (.error f, m') => (.error f, m') := by
  have hnote : (traceEvent cfg (pure (.call a.fn.name a.fn.kind a.args.length))).execute m =
      (.ok (), { m with trace := m.trace.push a.event }) := by
    simp [traceEvent, ht, Activation.event]
  rw [invokeTraced, execute_bind_ok hnote, execute_bind]
  rcases (invoke cfg eval a.fn e a.args).execute _ with ⟨f | v, m'⟩
  · rfl
  · simp only [traceEvent, ht, if_true]
    rfl

theorem requestedBy_invokeTraced_iff (ht : cfg.traced = true) {p : Call} {eval : Evaluate}
    (a : Activation) (e : ScopeId) :
    p.RequestedBy (fun eval ↦ invokeTraced cfg eval a.fn e a.args) eval m ↔
      p.RequestedBy (fun eval ↦ invoke cfg eval a.fn e a.args) eval
        { m with trace := m.trace.push a.event } := by
  constructor
  · rintro ⟨eval', hagree, hne⟩
    refine ⟨eval', hagree, fun hsame ↦ hne ?_⟩
    rw [execute_invokeTraced ht, execute_invokeTraced ht, hsame]
  · intro hp
    refine Call.requestedBy_of_fails fun f ↦ ?_
    rw [execute_invokeTraced ht, hp.fails (Parametric.invoke cfg (fun _ ↦ False) a.fn e a.args)
      (fun q hq ↦ Call.run_failingAt_of_ne hq f eval) (Call.run_failingAt_self p f eval)]

theorem logs_lookup {name : Text} {trace : Array Event}
    (h : (traceEvent cfg (pure (.lookup name))).execute m =
      (.ok (), { m with trace := trace })) : Logs m { m with trace := trace } [] := by
  by_cases ht : cfg.traced
  · simp only [traceEvent, ht, if_true] at h
    cases h
    exact ⟨[.lookup name], Array.toList_push, .nil⟩
  · simp only [traceEvent, ht] at h
    exact .of_eq (congrArg (fun r ↦ r.2.trace) h).symm

theorem run_of_leaf (cfg : Settings) (hleaf : ¬ ∃ h head args,
    q.machine.store.cell q.cell = .list h ∧ q.machine.store.items h = head :: args) :
    ∃ r m', Logs q.machine m' [] ∧ ∀ eval, q.run (evalStep cfg eval) = (r, m') := by
  simp only [Call.run, evalStep, execute_bind_ok (execute_cell _)]
  cases hc : q.machine.store.cell q.cell with
  | atom name =>
    obtain ⟨trace, htrace⟩ := execute_traceEvent cfg (execute_pure (Event.lookup name))
      (m := q.machine)
    have hlogs : Logs q.machine { q.machine with trace := trace } [] := logs_lookup htrace
    simp only [execute_bind_ok htrace, execute_bind_ok execute_getStore]
    split
    · exact ⟨_, _, hlogs, fun _ ↦ rfl⟩
    · exact ⟨_, _, hlogs, fun _ ↦ rfl⟩
  | list h =>
    simp only [execute_bind_ok (execute_items h)]
    cases hi : q.machine.store.items h with
    | nil => exact ⟨_, _, .of_eq rfl, fun _ ↦ rfl⟩
    | cons head args => exact absurd ⟨h, head, args, hc, hi⟩ hleaf
  | _ => exact ⟨_, _, .of_eq rfl, fun _ ↦ rfl⟩

theorem applies_iff {h : HandleId} {head : CellId} {rest : List CellId} {fn : FunctionValue}
    {args : List CellId} (hc : q.machine.store.cell q.cell = .list h)
    (hi : q.machine.store.items h = head :: rest) : q.Applies cfg depth fn args m ↔
      (dispatch (evalDepth cfg depth) q.scope head rest).execute q.machine =
        (.ok (fn, args), m) := by
  constructor
  · rintro ⟨_, _, _, f, m₁, hc', hi', hhead, hfn, hargs⟩
    cases hc.symm.trans hc'
    cases hi.symm.trans hi'
    rw [dispatch, execute_bind_ok hhead, execute_bind_ok (execute_cell f), hfn]
    by_cases hk : fn.kind = .normal <;> simp only [hk, if_true, if_false] at hargs ⊢
    · rw [execute_bind_ok hargs]
      rfl
    · cases hargs
      rfl
  · intro hd
    refine ⟨h, head, rest, ?_⟩
    obtain ⟨_, -, hr⟩ | ⟨f, m₁, hhead, hd⟩ := execute_bind_cases hd
    · cases hr
    rw [execute_bind_ok (execute_cell f)] at hd
    cases hf : m₁.store.cell f with
    | function fn' =>
      rw [hf] at hd
      by_cases hk : fn'.kind = .normal <;> simp only [hk, if_true, if_false] at hd
      · obtain ⟨_, -, hr⟩ | ⟨vs, m₂, hargs, hd⟩ := execute_bind_cases hd
        · cases hr
        · cases hd
          exact ⟨f, m₁, hc, hi, hhead, hf, by rwa [if_pos hk]⟩
      · cases hd
        exact ⟨f, m, hc, hi, hhead, hf, by rw [if_neg hk]; rfl⟩
    | _ =>
      rw [hf] at hd
      cases hd

theorem traced_leaf (hleaf : ¬ ∃ h head args,
    q.machine.store.cell q.cell = .list h ∧ q.machine.store.items h = head :: args) :
    q.Traced cfg (depth + 1) [] := by
  obtain ⟨r, m', hlogs, hrun⟩ := run_of_leaf cfg hleaf
  refine ⟨.nil, fun a ↦ iff_of_false List.not_mem_nil fun ha ↦ ?_, ?_⟩
  · rcases Call.active_succ_iff.1 ha with ⟨-, ⟨_, h, head, args, _, _, hc, hi, -⟩, -⟩ | ⟨p, hp, -⟩
    · exact hleaf ⟨h, head, args, hc, hi⟩
    · obtain ⟨eval', -, hne⟩ := hp
      exact hne (by rw [hrun, hrun])
  · rw [evalDepth, hrun]
    exact hlogs

theorem run_of_call (cfg : Settings) (eval : Evaluate) {h : HandleId} {head : CellId}
    {args : List CellId} (hc : q.machine.store.cell q.cell = .list h)
    (hi : q.machine.store.items h = head :: args) : q.run (evalStep cfg eval) =
      (dispatch eval q.scope head args >>= fun call ↦
        invokeTraced cfg eval call.1 q.scope call.2).execute q.machine := by
  rw [Call.run, evalStep, execute_bind_ok (execute_cell _)]
  simp only [hc]
  rw [execute_bind_ok (execute_items h)]
  simp only [hi, evalCall_eq_dispatch]

theorem Call.Applies.run_eq {fn : FunctionValue} {args : List CellId}
    (h : q.Applies cfg depth fn args m) : q.run (evalDepth cfg (depth + 1)) =
      (invokeTraced cfg (evalDepth cfg depth) fn q.scope args).execute m := by
  obtain ⟨_, _, _, _, _, hc, hi, -⟩ := id h
  rw [evalDepth, run_of_call cfg _ hc hi, execute_bind_ok ((applies_iff hc hi).1 h)]

theorem makes_iff {h : HandleId} {head : CellId} {rest : List CellId} {p : Call}
    (hc : q.machine.store.cell q.cell = .list h) (hi : q.machine.store.items h = head :: rest)
    (eval : Evaluate) : q.Makes cfg eval p ↔
      p.RequestedBy (fun eval ↦ dispatch eval q.scope head rest >>= fun call ↦
        invokeTraced cfg eval call.1 q.scope call.2) eval q.machine := by
  simp only [Call.Makes, Call.RequestedBy, run_of_call cfg _ hc hi]

section Call

variable {h : HandleId} {head : CellId} {rest : List CellId}
  (ih : ∀ q : Call, ∃ active, q.Traced cfg depth active)
  (hc : q.machine.store.cell q.cell = .list h) (hi : q.machine.store.items h = head :: rest)
include ih hc hi

theorem exists_traced_of_error {f : Fault} {m₁ : Machine}
    (hd : (dispatch (evalDepth cfg depth) q.scope head rest).execute q.machine = (.error f, m₁)) :
    ∃ active, q.Traced cfg (depth + 1) active := by
  have hD := Parametric.dispatch cfg (fun _ ↦ False) q.scope head rest
  obtain ⟨active, hactive⟩ := exists_traces ih hD q.machine
  refine ⟨active, hactive.sorted, fun a ↦ ?_, ?_⟩
  · rw [hactive.mem, Call.active_succ_iff]
    constructor
    · rintro ⟨p, hp, ha⟩
      exact .inr ⟨p, (makes_iff hc hi _).2 (hp.bind_left hD), ha⟩
    · rintro (⟨-, ⟨m, happlies⟩, -⟩ | ⟨p, hp, ha⟩)
      · rw [applies_iff hc hi, hd] at happlies
        cases happlies
      · rcases ((makes_iff hc hi _).1 hp).bind_cases with hp | ⟨_, _, hok, -⟩
        · exact ⟨p, hp, ha⟩
        · rw [hd] at hok
          cases hok
  · have hlogs := hactive.logs
    rw [hd] at hlogs
    rw [evalDepth, run_of_call cfg _ hc hi, execute_bind_error hd]
    exact hlogs

theorem exists_traced_of_ok (ht : cfg.traced = true) {a : Activation} {m₁ : Machine}
    (hdepth : a.depth = depth)
    (hd : (dispatch (evalDepth cfg depth) q.scope head rest).execute q.machine =
      (.ok (a.fn, a.args), m₁)) : ∃ active, q.Traced cfg (depth + 1) active := by
  have hD := Parametric.dispatch cfg (fun _ ↦ False) q.scope head rest
  have hI := Parametric.invoke cfg (fun _ ↦ False) a.fn q.scope a.args
  obtain ⟨before, hbefore⟩ := exists_traces ih hD q.machine
  obtain rfl := hbefore.nil_of_ok hD hd
  obtain ⟨inner, hinner⟩ := exists_traces ih hI { m₁ with trace := m₁.trace.push a.event }
  have hlogs := hbefore.logs
  rw [hd] at hlogs
  have hlogs' := hinner.logs
  have hrun : q.run (evalDepth cfg (depth + 1)) =
      (invokeTraced cfg (evalDepth cfg depth) a.fn q.scope a.args).execute m₁ := by
    rw [evalDepth, run_of_call cfg _ hc hi, execute_bind_ok hd]
  rw [execute_invokeTraced ht] at hrun
  rcases hv : (invoke cfg (evalDepth cfg depth) a.fn q.scope a.args).execute
    { m₁ with trace := m₁.trace.push a.event } with ⟨f | v, m₂⟩ <;> rw [hv] at hrun hlogs'
  · refine ⟨a :: inner, List.pairwise_cons.2 ⟨fun b hb ↦ ?_, hinner.sorted⟩, fun b ↦ ?_, ?_⟩
    · obtain ⟨p, -, hactive⟩ := (hinner.mem b).1 hb
      rw [hdepth]
      exact hactive.lt
    · rw [List.mem_cons, hinner.mem, Call.active_succ_iff]
      refine or_congr ⟨?_, ?_⟩ ⟨?_, ?_⟩
      · rintro rfl
        refine ⟨hdepth, ⟨m₁, (applies_iff hc hi).2 hd⟩, fun v hv' ↦ ?_⟩
        rw [hrun] at hv'
        cases hv'
      · rintro ⟨hb, ⟨m, happlies⟩, -⟩
        rw [applies_iff hc hi, hd] at happlies
        simp only [Prod.mk.injEq, Except.ok.injEq] at happlies
        obtain ⟨⟨hfn, hargs⟩, -⟩ := happlies
        exact Activation.ext (hb.trans hdepth.symm) hfn.symm hargs.symm
      · rintro ⟨p, hp, hb⟩
        refine ⟨p, (makes_iff hc hi _).2 ?_, hb⟩
        exact .bind_right (.dispatch cfg _ q.scope head rest)
          (.invokeTraced cfg a.fn q.scope a.args)
          hd ((requestedBy_invokeTraced_iff ht a q.scope).2 hp)
      · rintro ⟨p, hp, hb⟩
        rcases ((makes_iff hc hi _).1 hp).bind_cases with hp | ⟨_, _, hok, hp⟩
        · exact absurd ((hbefore.mem b).2 ⟨p, hp, hb⟩) List.not_mem_nil
        · rw [hd] at hok
          cases hok
          exact ⟨p, (requestedBy_invokeTraced_iff ht a q.scope).1 hp, hb⟩
    · rw [hrun, List.reverse_cons, List.map_append]
      exact (hlogs.trans (Logs.note m₁ a)).trans hlogs'
  · obtain rfl := hinner.nil_of_ok hI hv
    refine ⟨[], .nil, fun b ↦ iff_of_false List.not_mem_nil fun hb ↦ ?_, ?_⟩
    · obtain ⟨f, m₃, hf⟩ := hb.fails
      rw [hrun] at hf
      cases hf
    · rw [hrun]
      exact hlogs.trans (((Logs.note m₁ a).trans hlogs').returned _)

end Call

end Step

/-- Every evaluation leaves the active calls open in its trace, and no others. -/
theorem exists_traced {cfg : Settings} (ht : cfg.traced = true) (depth : Nat) (q : Call) :
    ∃ active, q.Traced cfg depth active := by
  induction depth generalizing q with
  | zero =>
    refine ⟨[], .nil, fun a ↦ iff_of_false List.not_mem_nil fun ha ↦ ?_, .of_eq rfl⟩
    exact Nat.not_lt_zero _ ha.lt
  | succ depth ih =>
    by_cases hcall : ∃ h head args,
      q.machine.store.cell q.cell = .list h ∧ q.machine.store.items h = head :: args
    · obtain ⟨h, head, rest, hc, hi⟩ := hcall
      rcases hd : (dispatch (evalDepth cfg depth) q.scope head rest).execute q.machine with
        ⟨f | ⟨fn, args⟩, m₁⟩
      · exact exists_traced_of_error ih hc hi hd
      · exact exists_traced_of_ok (a := ⟨depth, fn, args⟩) ih hc hi ht rfl hd
    · exact ⟨[], traced_leaf hcall⟩

/-- The trace of an evaluation nests properly. If the evaluation succeeds, its calls and returns are
well bracketed: each return closes the last call that is open, and has its name. If it fails they
begin such a word, and the calls left open are those that were active, dispatched and not returned,
outermost first. -/
theorem trace_events_nest (cfg : Settings) (ht : cfg.traced = true) (q : Call) :
    ∃ events, (q.run (evaluate cfg)).2.trace.toList = q.machine.trace.toList ++ events ∧
      match (q.run (evaluate cfg)).1 with
      | .ok _ => WellBracketed (brackets events)
      | .error _ => (∃ rest, WellBracketed (brackets events ++ rest)) ∧
          ∃ active : List Activation, active.Pairwise (fun a b ↦ b.depth < a.depth) ∧
            (∀ a, a ∈ active ↔ q.IsActive cfg a) ∧
            unclosed (brackets events) = some (active.map Activation.event) := by
  obtain ⟨active, hsorted, hmem, events, htrace, hleaves⟩ := exists_traced ht cfg.evalDepth q
  refine ⟨events, htrace, ?_⟩
  have hunclosed := hleaves.unclosed
  rw [← List.map_reverse, List.reverse_reverse] at hunclosed
  split
  case h_1 v hv =>
    -- No call is active in an evaluation that has succeeded.
    have hnone : active = [] := by
      refine List.eq_nil_iff_forall_not_mem.2 fun a ha ↦ ?_
      obtain ⟨f, m, hf⟩ := ((hmem a).1 ha).fails
      rw [evaluate, hf] at hv
      cases hv
    rw [hnone] at hunclosed
    exact hunclosed
  case h_2 f hf =>
    refine ⟨hleaves.closable ?_, active, hsorted, fun a ↦ (hmem a).trans ?_, hunclosed⟩
    · intro v hv
      obtain ⟨a, -, rfl⟩ := List.mem_map.1 hv
      exact ⟨_, _, _, rfl⟩
    · simp only [Call.IsActive, Call.Active, Call.hands_iff_nests]

/-- The expression `(do (list) (car (eq #t #f)))`, which fails in `car`. -/
def carOfBool : Call :=
  let (root, s) := Store.empty.addRoot
  let (c, s) := s.load (.list [.atom "do", .list [.atom "list"],
    .list [.atom "car", .list [.atom "eq", .bool true, .bool false]]])
  ⟨c, root, ⟨s, #[]⟩⟩

/-- The calls of `list` and `eq` have returned, those of `do` and `car` are active. -/
theorem trace_nests_carOfBool :
    let cfg : Settings := { evalDepth := 4, traced := true }
    cfg.traced = true ∧ (carOfBool.run (evaluate cfg)).2.trace.size = 10 ∧
      ∃ active : List Activation, active.Pairwise (fun a b ↦ b.depth < a.depth) ∧
        (∀ a, a ∈ active ↔ carOfBool.IsActive cfg a) ∧
        active.map (·.event.message) = [("calling do (special-form) with 2 argument(s)" : Text),
          ("calling car (normal) with 1 argument(s)" : Text)] := by
  intro cfg
  have hnests := trace_events_nest cfg rfl carOfBool
  have hsize : (carOfBool.run (evaluate cfg)).2.trace.size = 10 := by decide +kernel
  have hfails : (carOfBool.run (evaluate cfg)).1.isOk = false := by decide +kernel
  have hmessages : (unclosed (brackets (carOfBool.run (evaluate cfg)).2.trace.toList)).map
      (List.map Event.message) = some [("calling do (special-form) with 2 argument(s)" : Text),
        ("calling car (normal) with 1 argument(s)" : Text)] := by decide +kernel
  refine ⟨rfl, hsize, ?_⟩
  generalize carOfBool.run (evaluate cfg) = r at hnests hfails hmessages
  obtain ⟨f | v, m⟩ := r
  · obtain ⟨events, htrace, -, active, hsorted, hmem, hunclosed⟩ := hnests
    obtain rfl : m.trace.toList = events := htrace
    rw [hunclosed, Option.map_some, List.map_map] at hmessages
    exact ⟨active, hsorted, hmem, Option.some.inj hmessages⟩
  · cases hfails

end LittleLisp
