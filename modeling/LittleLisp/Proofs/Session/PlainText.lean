import LittleLisp.Proofs.Reader.PlainText
import LittleLisp.Proofs.Semantics.Soundness
import LittleLisp.Proofs.Session.History
import LittleLisp.Proofs.Store.Writing

/-!
Nothing but plain text comes of a plain text. The texts in a store are names and strings, and an
evaluation puts only those there that it found there; so if they are plain at first, then they stay
so, and what a session prints or reports is plain.
-/

namespace LittleLisp

def Cell.Plain : Cell → Prop
  | .atom text | .str text => text.Plain
  | .function fn => fn.name.Plain
  | _ => True

namespace Store

def Plain (s : Store) : Prop := ∀ x ∈ s.cells, x.Plain

namespace Plain

variable {s s' : Store}

theorem of_cells (h : s.Plain) (hcells : s'.cells = s.cells) : s'.Plain := by
  rwa [Plain, hcells]

variable (h : s.Plain)
include h

theorem cell {c : CellId} {x : Cell} (hx : s.cell c = x) : x.Plain := by
  rw [← hx, Store.cell]
  cases hread : s.cells[c]? with
  | none => trivial
  | some y => exact h y (Array.mem_of_getElem? hread)

theorem addCell {x : Cell} (hx : x.Plain) : (s.addCell x).2.Plain := by
  intro y hy
  rcases Array.mem_push.1 hy with hy | rfl
  · exact h y hy
  · exact hx

theorem addFunction {n : Text} {kind : Kind} {x : Executor} {f : CellId} (hn : n.Plain)
    (hmade : s.addCell (.function ⟨n, kind, x⟩) = (f, s')) : s'.Plain := by
  have hcell : (s.addCell (.function ⟨n, kind, x⟩)).2.Plain := h.addCell hn
  rwa [hmade] at hcell

theorem addList (vs : List CellId) : (s.addList vs).2.Plain := by
  have hcell : (s.addCell (.list s.handles.size)).2.Plain := h.addCell trivial
  exact hcell.of_cells (addList_cells vs s)

theorem addFrame (captured : ScopeId) (bound : List (Text × CellId)) :
    (s.addFrame captured bound).2.Plain := by
  have hfold (e : ScopeId) {t : Store} (ht : t.Plain) :
      (bound.foldl (fun s p ↦ s.define e p.1 p.2) t).Plain := by
    induction bound generalizing t with
    | nil => exact ht
    | cons p bound ih => exact ih (ht.of_cells rfl)
  exact hfold _ (h.of_cells rfl)

theorem addRoot : s.addRoot.2.Plain := by
  have hfold (e : ScopeId) {fns : List FunctionValue} (hfns : ∀ fn ∈ fns, fn.name.Plain) {t : Store}
      (ht : t.Plain) : (fns.foldl (addOperator e) t).Plain := by
    induction fns generalizing t with
    | nil => exact ht
    | cons fn fns ih =>
      obtain ⟨hfn, hfns⟩ := List.forall_mem_cons.1 hfns
      have hcell : (t.addCell (.function fn)).2.Plain := ht.addCell hfn
      exact ih hfns (hcell.of_cells rfl)
  refine hfold _ ?_ (h.of_cells rfl)
  simp [rootFunctions, or_imp, forall_and]

theorem loadItems {ds : List Datum}
    (hload : ∀ d ∈ ds, ∀ {s : Store}, s.Plain → (load d s).2.Plain) :
    (loadItems ds s).2.Plain := by
  induction ds generalizing s with
  | nil => exact h
  | cons d ds ih =>
    obtain ⟨hd, hds⟩ := List.forall_mem_cons.1 hload
    exact ih (hd h) hds

theorem load {d : Datum} (hd : d.Plain) : (load d s).2.Plain := by
  induction hd generalizing s with
  | atom hname => exact h.addCell hname
  | str htext => exact h.addCell htext
  | number | bool => exact h.addCell trivial
  | quoted _ ih => exact (ih h).addCell trivial
  | list _ ih => exact (h.loadItems fun d hd _ hs ↦ ih d hd hs).addList _
  | function | elided | absent => exact h

theorem unfoldWith (identity : Identity) (fuel : ℕ) (path : List ℕ) (c : CellId) :
    (s.unfoldWith identity fuel path c).Plain := by
  induction fuel generalizing path c with
  | zero => exact .elided
  | succ fuel ih =>
    have hitems (path : List ℕ) (l : HandleId) :
        (Datum.list ((s.items l).map (s.unfoldWith identity fuel path))).Plain :=
      .list (List.forall_mem_map.2 fun i _ ↦ ih path i)
    rw [Store.unfoldWith]
    cases hread : s.cell c with
    | absent => exact .absent
    | atom name => exact .atom (h.cell hread)
    | number value => exact .number value
    | str text => exact .str (h.cell hread)
    | bool flag => exact .bool flag
    | function fn => exact .function (h.cell hread)
    | quoted inner => exact .quoted (ih path inner)
    | list l =>
      dsimp only
      split
      · exact hitems path l
      · split_ifs
        · exact .elided
        · exact hitems _ l

end Plain

end Store

namespace Semantics

open Store Text

def PlainOutcome {α : Type} (o : Except Fault α) : Prop := ∀ f, o = .error f → f.Plain

theorem plainOutcome_ok {α : Type} (a : α) : PlainOutcome (.ok a) := by
  simp [PlainOutcome]

theorem plainOutcome_error {α : Type} {f : Fault} (h : f.Plain) :
    PlainOutcome (.error f : Except Fault α) := by
  intro g hg
  cases hg
  exact h

theorem Yields.plain {s s' : Store} {op : Builtin} {args : List CellId} {o : Except Fault CellId}
    (h : Yields s op args o s') (hs : s.Plain) : s'.Plain ∧ PlainOutcome o := by
  cases h with
  | sum | product | difference | quotient | same | compared =>
    exact ⟨hs.addCell trivial, plainOutcome_ok _⟩
  | list | carEmpty | cdrEmpty => exact ⟨hs.addList _, plainOutcome_ok _⟩
  | cdr => exact ⟨(hs.of_cells rfl).addCell trivial, plainOutcome_ok _⟩
  | push => exact ⟨hs.of_cells (push_cells _ _ _), plainOutcome_ok _⟩
  | car => exact ⟨hs, plainOutcome_ok _⟩
  | notNumeric | operandsMissing | operandNotList | operandCount | comparandCount =>
    exact ⟨hs, plainOutcome_error trivial⟩

theorem Parameters.plain {s : Store} {form : SpecialForm} {c : CellId} {f : Fault}
    (h : Parameters s form c (.error f)) : f.Plain := by
  cases h <;> trivial

/-- Only what is read from the store is written to it, so an evaluation keeps it plain. -/
theorem Evaluates.plain {t : Task} {s s' : Store} {o : Except Fault CellId}
    (h : Evaluates t s o s') (hs : s.Plain) : s'.Plain ∧ PlainOutcome o := by
  induction h with
  | name | literal | quoted | first => exact ⟨hs, plainOutcome_ok _⟩
  | unbound hname => exact ⟨hs, plainOutcome_error (hs.cell hname)⟩
  | emptyCall | absent | closureCount | formShape | defineName | defineFunctionName
  | argumentMissing => exact ⟨hs, plainOutcome_error trivial⟩
  | headFails _ _ _ ih | argumentFails _ ih | argumentsDone _ ih | defineFails _ _ _ ih
  | branchFails _ _ ih | block _ _ ih | sequenceLast _ ih | sequenceFails _ ih
  | evaluateLast _ _ ih => exact ih hs
  | notCallable _ _ _ _ ih | branchCondition _ _ _ ih =>
    exact ⟨(ih hs).1, plainOutcome_error trivial⟩
  | callNormal _ _ _ _ _ _ ihHead ih | callRaw _ _ _ _ _ _ ihHead ih => exact ih (ihHead hs).1
  | argument _ _ ihFirst ih | sequenceNext _ _ ihFirst ih | branch _ _ _ _ ihFirst ih =>
    exact ih (ihFirst hs).1
  | builtin _ hy => exact hy.plain hs
  | closure _ _ _ ih => exact ih (hs.addFrame _ _)
  | define _ _ _ ih => exact ⟨(ih hs).1.of_cells rfl, plainOutcome_ok _⟩
  | defineFunction _ hname _ hmade =>
    exact ⟨(hs.addFunction (hs.cell hname) hmade).of_cells rfl, plainOutcome_ok _⟩
  | defineFunctionParameters _ _ hp | lambdaParameters _ hp =>
    exact ⟨hs, plainOutcome_error hp.plain⟩
  | @lambda s _ _ e _ _ _ _ _ _ _ _ hscope hmade =>
    cases hscope
    have hs' : (s.addScope (some e)).2.Plain := hs.of_cells rfl
    exact ⟨hs'.addFunction (plain_ofString _) hmade, plainOutcome_ok _⟩
  | collect => exact ⟨hs.addList _, plainOutcome_ok _⟩
  | count => exact ⟨hs.addCell trivial, plainOutcome_ok _⟩

end Semantics

open Semantics EvalM

variable (cfg : Settings)

/-- An evaluation that is cut off for its depth may stop anywhere, but then nothing is printed. -/
theorem plain_evalDatum (root : ScopeId) {d : Datum} (hd : d.Plain) {m m' : Machine}
    (hm : m.store.Plain) {o : Except Fault CellId}
    (h : (evalDatum cfg root d).execute m = (o, m')) :
    (∀ c, o = .ok c → m'.store.Plain) ∧ PlainOutcome o := by
  by_cases hdeep : o = .error .tooDeep
  · subst hdeep
    exact ⟨by simp, plainOutcome_error trivial⟩
  · rw [evalDatum, execute_bind_ok (execute_change (Store.load d))] at h
    have heval := sound_evalDepth cfg cfg.evalDepth h hdeep
    obtain ⟨hstore, hfault⟩ := heval.plain (hm.load hd)
    exact ⟨fun _ _ ↦ hstore, hfault⟩

theorem plain_evalSource (root : ScopeId) {code : Text} (hcode : code.Plain) {m m' : Machine}
    (hm : m.store.Plain) {o : Except Fault CellId}
    (h : (evalSource cfg root code).execute m = (o, m')) :
    (∀ c, o = .ok c → m'.store.Plain) ∧ PlainOutcome o := by
  rw [execute_evalSource] at h
  cases hparse : Program.parse code with
  | error f =>
    rw [hparse] at h
    cases h
    exact ⟨by simp, plainOutcome_error (Program.plain_of_parse_eq_error hparse)⟩
  | ok p =>
    obtain ⟨text, entry⟩ := p
    rw [hparse] at h
    cases entry with
    | some d => exact plain_evalDatum cfg root (Program.plain_of_parse_eq_ok hcode hparse) hm h
    | none =>
      cases h
      exact ⟨fun _ _ ↦ hm.addList [], plainOutcome_ok _⟩

namespace Session

theorem plain_start : start.store.Plain := by
  have hempty : Store.empty.Plain := by
    simp [Store.Plain, Store.empty, Cell.Plain]
  exact hempty.addRoot

theorem plain_report {s : Session} {o : Outcome} (hstore : ∀ c, o.result = .ok c → s.store.Plain)
    (hfault : PlainOutcome o.result) :
    (∀ t, s.report o = .ok t → t.Plain) ∧ PlainOutcome (s.report o) := by
  rw [report]
  cases hresult : o.result with
  | error f => exact ⟨by simp [Bind.bind, Except.bind], plainOutcome_error (hfault f hresult)⟩
  | ok c =>
    have htree : (s.store.tree c).Plain := (hstore c hresult).unfoldWith _ _ _ _
    simp only [Bind.bind, Except.bind, Store.print_eq]
    split_ifs
    · refine ⟨fun t ht ↦ ?_, plainOutcome_ok _⟩
      cases ht
      exact htree.print
    · exact ⟨by simp, plainOutcome_error trivial⟩

theorem plain_report_eval {s : Session} (hs : s.store.Plain) {code : Text} (hcode : code.Plain) :
    (∀ t, (s.eval cfg code).2.report (s.eval cfg code).1 = .ok t → t.Plain) ∧
      PlainOutcome ((s.eval cfg code).2.report (s.eval cfg code).1) := by
  have hexec : (evalSource cfg s.root code).execute ⟨s.store, #[]⟩ =
    ((s.eval cfg code).1.result, ((evalSource cfg s.root code).execute ⟨s.store, #[]⟩).2) := rfl
  obtain ⟨hstore, hfault⟩ := plain_evalSource cfg s.root hcode hs hexec
  exact plain_report hstore hfault

end Session

end LittleLisp
