import LittleLisp.Proofs.Renaming.Evaluator
import LittleLisp.Proofs.Session.Answers

namespace LittleLisp.Renaming

open EvalM

variable {R : Renaming} {m m' : Machine} {eval eval' : Evaluate} {root root' : ScopeId}

section

variable (hA : R.Agree m m') (hE : Evaluators eval eval') (hroot : R.scope root root')
include hA hE hroot

theorem simulates_evalDatumBy {d : Datum} (hd : d.Storable) :
    R.Simulates m m' (evalDatumBy eval root d) (evalDatumBy eval' root' d) Renaming.cell := by
  refine (hA.change (hA.store.load hd)).bind ?_
  intro R₁ c c' m₁ m₁' hR₁ h₁ hc
  exact hE h₁ hc (hR₁.rel hroot)

theorem simulates_evalSourceBy (code : Text) :
    R.Simulates m m' (evalSourceBy eval root code) (evalSourceBy eval' root' code)
      Renaming.cell := by
  rw [evalSourceBy, evalSourceBy]
  cases hp : Program.parse code with
  | error f => exact ⟨R, hA.store.advances, hA.trace, .error f⟩
  | ok p =>
    refine .reads (a := p) (b := p) rfl rfl ?_
    cases hentry : p.entry with
    | some d =>
      exact simulates_evalDatumBy hA hE hroot (Program.readable_entry hp hentry).storable
    | none => exact simulates_emptyList hA

theorem simulates_evalDataBy {c c' : CellId} (hc : R.cell c c') {ds : List Datum}
    (hds : ∀ d ∈ ds, d.Storable) :
    R.Simulates m m' (evalDataBy eval root c ds) (evalDataBy eval' root' c' ds)
      Renaming.cell := by
  induction ds generalizing R m m' c c' with
  | nil => exact hA.pure hc
  | cons d ds ih =>
    refine (simulates_evalDatumBy hA hE hroot (hds d List.mem_cons_self)).bind ?_
    intro R₁ v v' m₁ m₁' hR₁ h₁ hv
    exact ih h₁ (hR₁.rel hroot) hv fun d' hd ↦ hds d' (List.mem_cons_of_mem d hd)

theorem simulates_loadSourceBy (code : Text) :
    R.Simulates m m' (loadSourceBy eval root code) (loadSourceBy eval' root' code)
      Renaming.cell := by
  have hds := Command.storable_data (.load code)
  rw [Command.data] at hds
  rcases hall : (TokenStream.ofLexed (lex code)).all with ⟨ds, fault, rest⟩
  rw [hall] at hds
  rw [loadSourceBy, loadSourceBy, hall]
  refine (simulates_emptyList hA).bind ?_
  intro R₁ c c' m₁ m₁' hR₁ h₁ hc
  refine (simulates_evalDataBy h₁ hE (hR₁.rel hroot) hc hds).bind ?_
  intro R₂ v v' m₂ m₂' hR₂ h₂ hv
  cases fault with
  | some f => exact h₂.throw f
  | none => exact h₂.pure hv

end

structure Joins (R : Renaming) (s t : Session) : Prop where
  store : R.Matches s.store t.store
  root : R.scope s.root t.root

theorem joins {s t : Store} {e e' : ScopeId} (h : R.Matches s t) (he : R.scope e e') :
    R.Joins ⟨s, e⟩ ⟨t, e'⟩ := ⟨h, he⟩

variable {s t : Session}

theorem Joins.run (h : R.Joins s t) (x y : ScopeId → EvalM CellId)
    (hxy : R.Simulates ⟨s.store, #[]⟩ ⟨t.store, #[]⟩ (x s.root) (y t.root) Renaming.cell) :
    Answer.of (s.run x) = Answer.of (t.run y) ∧
      ∃ R', R.Advances R' s.store t.store (s.run x).2.store (t.run y).2.store ∧
        R'.Joins (s.run x).2 (t.run y).2 := by
  obtain ⟨R', hadvances, htrace, hresult⟩ := hxy
  simp only [Answer.of, Session.run, Session.report]
  generalize (x s.root).execute ⟨s.store, #[]⟩ = p at hadvances htrace hresult
  generalize (y t.root).execute ⟨t.store, #[]⟩ = p' at hadvances htrace hresult
  obtain ⟨r, m⟩ := p
  obtain ⟨r', m'⟩ := p'
  refine ⟨?_, R', hadvances, hadvances.after, hadvances.within.rel h.root⟩
  dsimp only at htrace hresult ⊢
  rw [htrace]
  cases hresult with
  | ok value =>
    have hprint := hadvances.after.print value
    simp only [Bind.bind, Except.bind, hprint]
  | error f => rfl

theorem Joins.respondBy (h : R.Joins s t) (hE : Evaluators eval eval') (c : Command) :
    (s.respondBy eval c).1 = (t.respondBy eval' c).1 ∧
      ∃ R', R.Advances R' s.store t.store (s.respondBy eval c).2.store
          (t.respondBy eval' c).2.store ∧
        R'.Joins (s.respondBy eval c).2 (t.respondBy eval' c).2 := by
  have hA : R.Agree ⟨s.store, #[]⟩ ⟨t.store, #[]⟩ := ⟨h.store, rfl⟩
  cases c with
  | eval code =>
    obtain ⟨hanswer, hafter⟩ := h.run (evalSourceBy eval · code)
      (evalSourceBy eval' · code) (simulates_evalSourceBy hA hE h.root code)
    exact ⟨congrArg some hanswer, hafter⟩
  | load code =>
    obtain ⟨hanswer, hafter⟩ := h.run (loadSourceBy eval · code)
      (loadSourceBy eval' · code) (simulates_loadSourceBy hA hE h.root code)
    exact ⟨congrArg some hanswer, hafter⟩
  | reset =>
    obtain ⟨R', hadvances, hroot⟩ := h.store.addRoot
    exact ⟨rfl, R', hadvances, hadvances.after, hroot⟩

theorem Joins.respond (h : R.Joins s t) (cfg : Settings) (c : Command) :
    (s.respond cfg c).1 = (t.respond cfg c).1 ∧
      ∃ R', R.Advances R' s.store t.store (s.respond cfg c).2.store (t.respond cfg c).2.store ∧
        R'.Joins (s.respond cfg c).2 (t.respond cfg c).2 := by
  simp only [← Session.respondBy_evaluate]
  exact h.respondBy (evaluators_evaluate cfg) c

end LittleLisp.Renaming
