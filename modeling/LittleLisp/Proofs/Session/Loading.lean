import LittleLisp.Proofs.Evaluator.Parametric
import LittleLisp.Proofs.Reader.Joining
import LittleLisp.Proofs.Renaming.Composition
import LittleLisp.Proofs.Renaming.Session
import LittleLisp.Proofs.Session.Safety

/-!
Loading. The expressions of a text are evaluated in order, up to the first that fails; then the
fault that ends the text is raised, if there is one. So loading two texts one after the other is
loading them as one, with a newline between, but for an empty list that the second loading makes
and does not use.
-/

namespace LittleLisp

open EvalM Store
open Renaming (on SameResult Evaluators evaluators_evaluate simulates_evalDatumBy
  simulates_evalDataBy)

theorem Semantics.Evaluates.shift_eq {t : Semantics.Task} {s s' : Store} {o : Except Fault CellId}
    (h : Semantics.Evaluates t s o s') (k : Nat) : o.mapError (.shift k) = o := by
  induction h with
  | builtin _ hy => cases hy <;> rfl
  | defineFunctionParameters _ _ hp | lambdaParameters _ hp => cases hp <;> rfl
  | _ => first | assumption | rfl

section Data

variable {cfg : Settings} {root : ScopeId} {c : CellId} {ds : List Datum} {m m' : Machine}
  {f : Fault}

theorem shift_of_evalDepth {depth : Nat} {e : ScopeId} (k : Nat)
    (h : (evalDepth cfg depth c e).execute m = (.error f, m')) : f.shift k = f := by
  by_cases hf : f = .tooDeep
  · rw [hf]
    rfl
  · have hderived := Semantics.sound_evalDepth cfg depth h fun ho ↦ hf (Except.error.inj ho)
    exact Except.error.inj (hderived.shift_eq k)

theorem shift_of_evalData (k : Nat) (h : (evalData cfg root c ds).execute m = (.error f, m')) :
    f.shift k = f := by
  induction ds generalizing c m with
  | nil => cases h
  | cons d ds ih =>
    obtain ⟨g, hd, hg⟩ | ⟨v, m₁, -, hrest⟩ := execute_bind_cases h
    · cases hg
      exact shift_of_evalDepth k hd
    · exact ih hrest

theorem Parametric.evalDataBy (cfg : Settings) (E : Event → Prop) (root : ScopeId) (c : CellId)
    (ds : List Datum) : Parametric cfg E fun eval ↦ evalDataBy eval root c ds := by
  induction ds generalizing c with
  | nil => exact .quiet fun _ _ ↦ rfl
  | cons d ds ih => exact .bind (.bind (.quiet fun _ _ ↦ rfl) fun c ↦ .call c root) ih

theorem oblivious_evalData (cfg : Settings) (root : ScopeId) (c : CellId) (ds : List Datum) :
    (evalData cfg root c ds).Oblivious := by
  rw [← evalDataBy_evaluate]
  exact (Parametric.evalDataBy cfg (fun _ ↦ False) root c ds).oblivious
    (oblivious_evalDepth cfg cfg.evalDepth)

theorem evalData_append (cfg : Settings) (root : ScopeId) (c : CellId) (ds ds' : List Datum) :
    evalData cfg root c (ds ++ ds') =
      evalData cfg root c ds >>= fun v ↦ evalData cfg root v ds' := by
  induction ds generalizing c with
  | nil => rfl
  | cons d ds ih => simp only [List.cons_append, evalData, ih, bind_assoc]

theorem simulates_evalDataBy_cons {R : Renaming} {eval : Evaluate} (hE : Evaluators eval eval)
    {root' : ScopeId} {c' : CellId} {d : Datum} (hA : R.Agree m m') (hroot : R.scope root root')
    (hds : ∀ d' ∈ d :: ds, d'.Storable) :
    R.Simulates m m' (evalDataBy eval root c (d :: ds)) (evalDataBy eval root' c' (d :: ds))
      Renaming.cell := by
  refine (simulates_evalDatumBy hA hE hroot (hds d List.mem_cons_self)).bind ?_
  intro R₁ v v' m₁ m₁' hR₁ h₁ hv
  exact simulates_evalDataBy h₁ hE (hR₁.rel hroot) hv fun d' h ↦ hds d' (List.mem_cons_of_mem d h)

end Data

/-- What loading gives: the result of the expressions, or the fault that ends the text. -/
def concluded (fault : Option Fault) (r : Except Fault CellId) : Except Fault CellId :=
  r.bind fun v ↦ fault.elim (.ok v) .error

theorem concluded_none (r : Except Fault CellId) : concluded none r = r := by
  cases r <;> rfl

theorem Session.load_of_execute {cfg : Settings} {s : Session} {code : Text}
    {r : Except Fault CellId} {m : Machine}
    (h : (evalData cfg s.root (s.store.addList []).1 (expressions code).1).execute
      ⟨(s.store.addList []).2, #[]⟩ = (r, m)) :
    s.load cfg code = (⟨concluded (expressions code).2 r, m.trace.toList⟩, ⟨m.store, s.root⟩) := by
  rcases hall : (TokenStream.ofLexed (lex code)).all with ⟨ds, fault, rest⟩
  have hcode : expressions code = (ds, fault) := by rw [expressions, hall]
  rw [hcode] at h ⊢
  rw [Session.load, Session.run, loadSource, hall]
  have hnil : Builtin.emptyList.execute ⟨s.store, #[]⟩ =
      (.ok (s.store.addList []).1, ⟨(s.store.addList []).2, #[]⟩) := rfl
  cases r with
  | error f => simp only [execute_bind_ok hnil, execute_bind_error h]; rfl
  | ok v =>
    simp only [execute_bind_ok hnil, execute_bind_ok h]
    cases fault <;> rfl

/-- The result of a text, or the value before it if it has no expression. -/
def resultAfter (v : CellId) (ds : List Datum) (r : Except Fault CellId) : Except Fault CellId :=
  r.map fun w ↦ if ds.isEmpty then v else w

theorem resultAfter_cons (v : CellId) (d : Datum) (ds : List Datum) (r : Except Fault CellId) :
    resultAfter v (d :: ds) r = r := by
  cases r <;> rfl

/-- Stores that are the same up to names, but for an empty list made after `s`. -/
structure Renaming.EquatesButSpare (R : Renaming) (s t t' : Store) : Prop where
  equates : R.Equates s.Has t t'
  left : ∀ {x : Item}, t.Has x → ∃ y, R.rel x y
  right : ∀ {y : Item}, t'.Has y → (∃ x, R.rel x y) ∨ ¬ s.Has y ∧ (s.addList []).2.Has y

/-- Evaluation is not concerned by an empty list that nothing refers to. -/
theorem exists_equatesButSpare (cfg : Settings) {s : Store} {root : ScopeId} {v : CellId}
    (hs : s.Built) (hroot : s.Present (.scope root)) (hv : s.Present (.cell v)) {ds : List Datum}
    (hds : ∀ d ∈ ds, d.Storable) :
    let r := (evalData cfg root v ds).execute ⟨s, #[]⟩
    let r' := (evalData cfg root (s.addList []).1 ds).execute ⟨(s.addList []).2, #[]⟩
    ∃ R : Renaming, R.EquatesButSpare s r.2.store r'.2.store ∧ r.2.trace = r'.2.trace ∧
      SameResult R.cell r.1 (resultAfter v ds r'.1) := by
  simp only [← evalDataBy_evaluate]
  have happends := appends_addList [] s
  have hnil : ∀ v ∈ ([] : List CellId), s.Present (.cell v) := nofun
  have hspare := (hs.addList hnil).1
  have hequates := hs.whole.equates hs.whole.wellFormed hspare.whole.wellFormed (.refl s) happends
  cases ds with
  | nil =>
    refine ⟨on s.Has, ⟨hequates, fun hx ↦ ⟨_, rfl, hx⟩, fun {y} hy ↦ ?_⟩, rfl, ?_⟩
    · by_cases hold : s.Has y
      · exact .inl ⟨y, rfl, hold⟩
      · exact .inr ⟨hold, hy⟩
    · exact .ok ⟨rfl, hv.content?⟩
  | cons d ds =>
    obtain ⟨hA, hA'⟩ := hequates.agree #[]
    have hscope : (on s.Has).scope root root := ⟨rfl, hroot.content?⟩
    have hE : Evaluators (evaluate cfg) (evaluate cfg) := evaluators_evaluate cfg
    obtain ⟨R, hR, hadvances, htrace, hresult⟩ := hequates.simulates
      (simulates_evalDataBy_cons hE hA hscope hds) (simulates_evalDataBy_cons hE hA' hscope hds)
    refine ⟨R, ⟨hR, fun {x} hx ↦ ?_, fun {y} hy ↦ ?_⟩, htrace, by rwa [resultAfter_cons]⟩
    · by_cases hold : s.Has x
      · exact ⟨x, hR.kept hold⟩
      · refine (hadvances.coversLeft hx (not_not.1 hold)).resolve_right ?_
        rintro ⟨e, e', -, hhidden⟩
        exact hR.exposed e e' hhidden
    · by_cases hold : s.Has y
      · exact .inl ⟨y, hR.kept hold⟩
      · by_cases hnew : (s.addList []).2.Has y
        · exact .inr ⟨hold, hnew⟩
        · exact .inl (hadvances.coversRight hy (not_not.1 hnew))

/-- Expressions that are evaluated one after the other and succeed, with the values before and after
them. -/
inductive Succeeds (cfg : Settings) (root : ScopeId) :
    List Datum → CellId → Machine → CellId → Machine → Prop
  | nil (v : CellId) (m : Machine) : Succeeds cfg root [] v m v m
  | cons {d : Datum} {ds : List Datum} {v w v' : CellId} {m m₁ m' : Machine}
      (first : (evalDatum cfg root d).execute m = (.ok w, m₁))
      (rest : Succeeds cfg root ds w m₁ v' m') : Succeeds cfg root (d :: ds) v m v' m'

theorem evalData_cases (cfg : Settings) (root : ScopeId) (ds : List Datum) (v : CellId)
    (m : Machine) :
    (∃ v' m', Succeeds cfg root ds v m v' m' ∧
      (evalData cfg root v ds).execute m = (.ok v', m')) ∨
    ∃ before d after v' m₁ f m', ds = before ++ d :: after ∧
      Succeeds cfg root before v m v' m₁ ∧ (evalDatum cfg root d).execute m₁ = (.error f, m') ∧
      (evalData cfg root v ds).execute m = (.error f, m') := by
  induction ds generalizing v m with
  | nil => exact .inl ⟨v, m, .nil v m, rfl⟩
  | cons d ds ih =>
    rcases hd : (evalDatum cfg root d).execute m with ⟨f | w, m₁⟩
    · exact .inr ⟨[], d, ds, v, m, f, m₁, rfl, .nil v m, hd, execute_bind_error hd⟩
    · rw [evalData, execute_bind_ok hd]
      rcases ih w m₁ with ⟨v', m', hs, hrun⟩ | ⟨before, d', after, v', m₂, f, m', rfl, hs, hf, hrun⟩
      · exact .inl ⟨v', m', .cons hd hs, hrun⟩
      · exact .inr ⟨d :: before, d', after, v', m₂, f, m', rfl, .cons hd hs, hf, hrun⟩

theorem expressions_of_leading {source : Text} {es : List Phrase} {rest : List Token}
    (h : Reader.Leading (lex source).fault (lex source).tokens es rest) (v : CellId) :
    (expressions source).1 = Phrase.data es ∧ concluded (expressions source).2 (.ok v) =
      (Reader.one (lex source).fault [] rest).1.map fun _ ↦ v := by
  rw [expressions_eq, h.all_eq]
  rcases (Reader.one (lex source).fault [] rest).1 with f | d <;> exact ⟨rfl, rfl⟩

theorem concluded_resultAfter {R : Renaming} {v : CellId} {ds : List Datum}
    {r r' : Except Fault CellId} (fault : Option Fault) (k : Nat)
    (h : SameResult R.cell r (resultAfter v ds r')) (hr : r.mapError (.shift k) = r) :
    SameResult R.cell (concluded (fault.map (.shift k)) r)
      ((resultAfter v ds (concluded fault r')).mapError (.shift k)) := by
  cases r' with
  | error f =>
    cases h
    have hf : f.shift k = f := Except.error.inj hr
    change SameResult R.cell (.error f) (.error (f.shift k))
    rw [hf]
    exact .error f
  | ok w =>
    cases h with
    | ok value =>
      cases fault with
      | none => exact .ok value
      | some f => exact .error (f.shift k)

theorem report_eq {R : Renaming} {s t : Session} {o o' : Outcome}
    (hm : R.Matches s.store t.store) (h : SameResult R.cell o.result o'.result) :
    s.report o = t.report o' := by
  rw [Session.report, Session.report]
  generalize o.result = r, o'.result = r' at h
  cases h with
  | ok value => exact hm.print value
  | error f => rfl

theorem storable_expressions (source : Text) : ∀ d ∈ (expressions source).1, d.Storable :=
  Command.storable_data (.load source)

/-- To go on with the expressions of a text is to load it, but for the spare list. -/
theorem load_continues (cfg : Settings) {s : Session} (hs : s.Sound) {v : CellId}
    (hv : s.store.Present (.cell v)) (source : Text) (k : Nat) (trace : Array Event) :
    let r := (evalData cfg s.root v (expressions source).1).execute ⟨s.store, trace⟩
    let loaded := s.load cfg source
    ∃ R : Renaming, R.EquatesButSpare s.store r.2.store loaded.2.store ∧
      r.2.trace.toList = trace.toList ++ loaded.1.trace ∧
      SameResult R.cell (concluded ((expressions source).2.map (.shift k)) r.1)
        ((resultAfter v (expressions source).1 loaded.1.result).mapError (.shift k)) := by
  obtain ⟨R, hR, htrace, hresult⟩ :=
    exists_equatesButSpare cfg hs.built hs.root hv (storable_expressions source)
  obtain ⟨r, t, events, hrun⟩ := oblivious_evalData cfg s.root v (expressions source).1 s.store
  rcases hload : (evalData cfg s.root (s.store.addList []).1 (expressions source).1).execute
    ⟨(s.store.addList []).2, #[]⟩ with ⟨r', m⟩
  rw [hrun #[], hload] at hR htrace hresult
  rw [hrun trace, Session.load_of_execute hload]
  have hshift : r.mapError (.shift k) = r := by
    cases r with
    | error f => exact congrArg Except.error (shift_of_evalData k (hrun #[]))
    | ok w => rfl
  have hevents : events = m.trace := by simpa using htrace
  refine ⟨R, hR, by simp [hevents], concluded_resultAfter _ k hresult hshift⟩

theorem Answered.present {r : Outcome × Session} (h : Answered r) {c : CellId}
    (hc : r.1.result = .ok c) : r.2.store.Present (.cell c) := by
  obtain ⟨c', text, hc', hcell, -⟩ | ⟨f, hf, -⟩ := h
  · cases hc.symm.trans hc'
    exact Present.cell_iff.2 hcell
  · cases hc.symm.trans hf

/-- Outcomes that are the same up to names, in sessions that are so but for an empty list made after
`s`. -/
structure Renaming.SameUpToSpare (R : Renaming) (s : Store) (p p' : Outcome × Session) : Prop where
  stores : R.EquatesButSpare s p.2.store p'.2.store
  root : R.scope p.2.root p'.2.root
  result : SameResult R.cell p.1.result p'.1.result
  trace : p.1.trace = p'.1.trace

section Newline

variable {cfg : Settings} {s : Session} {first second : Text}
  (hfirst : (expressions first).2 = none)
include hfirst

theorem Session.load_newline_of_error {f : Fault} (h : (s.load cfg first).1.result = .error f) :
    s.load cfg (first ++ .scalar '\n' :: second) = s.load cfg first := by
  rcases hrun : (evalData cfg s.root (s.store.addList []).1 (expressions first).1).execute
    ⟨(s.store.addList []).2, #[]⟩ with ⟨g | v, m⟩ <;>
    have hone := Session.load_of_execute hrun <;> rw [hfirst] at hone
  · have hjoint : (evalData cfg s.root (s.store.addList []).1
        (expressions (first ++ .scalar '\n' :: second)).1).execute ⟨(s.store.addList []).2, #[]⟩ =
          (.error g, m) := by
      rw [expressions_newline hfirst, evalData_append, execute_bind_error hrun]
    rw [Session.load_of_execute hjoint, hone]
    rfl
  · rw [hone] at h
    cases h

theorem Session.Sound.load_newline_of_ok (hs : s.Sound) {v : CellId}
    (h : (s.load cfg first).1.result = .ok v) :
    let joint := s.load cfg (first ++ .scalar '\n' :: second)
    let one := s.load cfg first
    let two := one.2.load cfg second
    let result := (resultAfter v (expressions second).1 two.1.result).mapError
      (Fault.shift (first.length + 1))
    ∃ R : Renaming,
      R.SameUpToSpare one.2.store joint (⟨result, one.1.trace ++ two.1.trace⟩, two.2) := by
  obtain ⟨hsound, hanswered⟩ := hs.load cfg first
  rcases hrun : (evalData cfg s.root (s.store.addList []).1 (expressions first).1).execute
    ⟨(s.store.addList []).2, #[]⟩ with ⟨g | w, m⟩ <;>
    have hone := Session.load_of_execute hrun <;> rw [hfirst] at hone <;> rw [hone] at h
  · cases h
  · obtain rfl : w = v := Except.ok.inj h
    rw [hone] at hsound hanswered ⊢
    obtain ⟨R, hR, htrace, hresult⟩ :=
      load_continues cfg hsound (hanswered.present rfl) second (first.length + 1) m.trace
    have hjoint : (evalData cfg s.root (s.store.addList []).1
        (expressions (first ++ .scalar '\n' :: second)).1).execute ⟨(s.store.addList []).2, #[]⟩ =
          (evalData cfg s.root w (expressions second).1).execute m := by
      rw [expressions_newline hfirst, evalData_append, execute_bind_ok hrun]
    rw [Session.load_of_execute hjoint, expressions_newline hfirst]
    exact ⟨R, hR, hR.equates.kept hsound.root.content?, hresult, htrace⟩

end Newline

/-- The complete expressions that a text begins with are evaluated in order. If they succeed, the
loading ends as the text does; if one fails, that is where it ends. -/
def Session.LoadsInOrder (cfg : Settings) (s : Session) (source : Text) (es : List Phrase)
    (rest : List Token) : Prop :=
  let initial : Machine := ⟨(s.store.addList []).2, #[]⟩
  (∃ v m, Succeeds cfg s.root (Phrase.data es) (s.store.addList []).1 initial v m ∧
    s.load cfg source = (⟨(Reader.one (lex source).fault [] rest).1.map fun _ ↦ v,
      m.trace.toList⟩, ⟨m.store, s.root⟩)) ∨
  ∃ before d after v m f m', Phrase.data es = before ++ d :: after ∧
    Succeeds cfg s.root before (s.store.addList []).1 initial v m ∧
    (evalDatum cfg s.root d).execute m = (.error f, m') ∧
    s.load cfg source = (⟨.error f, m'.trace.toList⟩, ⟨m'.store, s.root⟩)

theorem Session.loadsInOrder (cfg : Settings) (s : Session) {source : Text} {es : List Phrase}
    {rest : List Token} (h : Reader.Leading (lex source).fault (lex source).tokens es rest) :
    s.LoadsInOrder cfg source es rest := by
  have hdata := (expressions_of_leading h (s.store.addList []).1).1
  rcases evalData_cases cfg s.root (Phrase.data es) (s.store.addList []).1
    ⟨(s.store.addList []).2, #[]⟩ with
    ⟨v, m, hsucceeds, hrun⟩ | ⟨before, d, after, v, m, f, m', hds, hsucceeds, hd, hrun⟩ <;>
    rw [← hdata] at hrun <;> have hload := load_of_execute hrun
  · rw [(expressions_of_leading h v).2] at hload
    exact .inl ⟨v, m, hsucceeds, hload⟩
  · exact .inr ⟨before, d, after, v, m, f, m', hds, hsucceeds, hd, hload⟩

/-- Loading composes. In every session that can be reached, to load two texts joined by a newline,
of which the first can be read to its end, is to load the first and, if that succeeds, the second;
without an expression in the second the result is that of the first. Every text is loaded in order:
the expressions it begins with are evaluated up to the first that fails, and only after the last of
them is the fault raised that the text ends in. -/
theorem loading_composes (cfg : Settings) :
    (∀ cfg' es s, Session.Reaches cfg' es s → s.Sound) ∧
    (∀ s : Session, s.Sound → ∀ first second : Text, (expressions first).2 = none →
      let joint := s.load cfg (first ++ ("\n" : Text) ++ second)
      let one := s.load cfg first
      let two := one.2.load cfg second
      (∀ f, one.1.result = .error f → joint = one) ∧
      ∀ v, one.1.result = .ok v →
        let both : Outcome := ⟨(resultAfter v (expressions second).1 two.1.result).mapError
          (.shift (first.length + 1)), one.1.trace ++ two.1.trace⟩
        joint.2.report joint.1 = two.2.report both ∧
          ∃ R : Renaming, R.SameUpToSpare one.2.store joint (both, two.2)) ∧
    ∀ (s : Session) (source : Text), ∃ es rest,
      Reader.Leading (lex source).fault (lex source).tokens es rest ∧
        (∀ (e : Phrase) (after : List Token), rest ≠ e.tokens ++ after) ∧
        s.LoadsInOrder cfg source es rest := by
  refine ⟨fun _ _ _ h ↦ h.sound, ?_, ?_⟩
  · intro s hs first second hfirst
    have htext : first ++ ("\n" : Text) ++ second = first ++ .scalar '\n' :: second :=
      List.append_assoc _ _ _
    rw [htext]
    refine ⟨fun f hf ↦ Session.load_newline_of_error hfirst hf, fun v hv ↦ ?_⟩
    obtain ⟨R, hR⟩ := hs.load_newline_of_ok hfirst hv
    exact ⟨report_eq hR.stores.equates.same hR.result, R, hR⟩
  · intro s source
    obtain ⟨es, rest, h⟩ := Reader.exists_leading (lex source).fault (lex source).tokens
    exact ⟨es, rest, h, h.no_phrase, s.loadsInOrder cfg h⟩

/-- The first text ends in a comment, and the second in a string that is not closed. -/
theorem loading_composes_unclosed :
    let cfg : Settings := { evalDepth := 4 }
    let first : Text := "(def x (list #t)) ; x"
    let second : Text := "(push x x) \""
    let joint := Session.start.load cfg (first ++ ("\n" : Text) ++ second)
    let one := Session.start.load cfg first
    let two := one.2.load cfg second
    Session.start.Sound ∧ (expressions first).2 = none ∧
      (two.2.report two.1).mapError Fault.message = .error "Unterminated string at 11" ∧
      (joint.2.report joint.1).mapError Fault.message = .error "Unterminated string at 33" ∧
      ∃ v : CellId, one.1.result = .ok v ∧
        ∃ R : Renaming, R.EquatesButSpare one.2.store joint.2.store two.2.store := by
  intro cfg first second
  obtain ⟨hreaches, hcomposes, -⟩ := loading_composes cfg
  have hsound := hreaches cfg [] .start .start
  have hfirst : (expressions first).2 = none := by decide +kernel
  have hcomposed := hcomposes .start hsound first second hfirst
  have hone : (Session.start.load cfg first).1.result.isOk := by decide +kernel
  have htwo : (((Session.start.load cfg first).2.load cfg second).2.report
      ((Session.start.load cfg first).2.load cfg second).1).mapError Fault.message =
        .error "Unterminated string at 11" := by decide +kernel
  have hjoint : ((Session.start.load cfg (first ++ ("\n" : Text) ++ second)).2.report
      (Session.start.load cfg (first ++ ("\n" : Text) ++ second)).1).mapError Fault.message =
        .error "Unterminated string at 33" := by decide +kernel
  dsimp only at hcomposed ⊢
  generalize Session.start.load cfg first = one at *
  generalize one.2.load cfg second = two at *
  generalize Session.start.load cfg (first ++ ("\n" : Text) ++ second) = joint at *
  refine ⟨hsound, hfirst, htwo, hjoint, ?_⟩
  obtain ⟨⟨f | v, trace⟩, s⟩ := one
  · cases hone
  · obtain ⟨-, R, hR⟩ := hcomposed.2 v rfl
    exact ⟨v, rfl, R, hR.stores⟩

end LittleLisp
