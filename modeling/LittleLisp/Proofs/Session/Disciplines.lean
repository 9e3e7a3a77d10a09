import LittleLisp.Proofs.Reader.Faults
import LittleLisp.Proofs.Session.History

/-!
Disciplines in sessions. If what is read can be stored as code, then every command of a session
keeps the discipline, and the calls of the evaluator that it begins with are admitted.
-/

namespace LittleLisp

open EvalM

namespace Discipline

variable {D : Discipline}

def Stores (D : Discipline) : Prop :=
  ∀ {s : Store} {d : Datum}, D.inv s → d.Storable →
    D.inv (Store.load d s).2 ∧ D.code (Store.load d s).2 (Store.load d s).1

section Sources

variable {m : Machine} {root : ScopeId} (hD : D.Stores) (cfg : Settings) (hi : D.inv m.store)
  (hroot : D.scope m.store root)
include hD hi hroot

theorem follows_evalDatum {d : Datum} (hd : d.Storable) :
    D.Follows m (evalDatum cfg root d) (evalDatum cfg root d) D.value := by
  obtain ⟨hinv, hcode⟩ := hD hi hd
  have hgrows := (Datum.storesWell hd m.store).1.toExtends
  refine (Follows.change (Q := D.code) hinv hgrows hcode).bind ?_
  intro c m' _ hi' hg' hc
  exact evaluators_evalDepth D cfg cfg.evalDepth hi' hc (D.scope_mono hg' hroot)

theorem follows_evalSource (code : Text) :
    D.Follows m (evalSource cfg root code) (evalSource cfg root code) D.value := by
  cases hp : Program.parse code with
  | error f =>
    have hrun : (evalSource cfg root code).execute m = (.error f, m) := by
      rw [execute_evalSource, hp]
    exact .of_error hrun hrun (ordinary_parse hp) hi
  | ok p =>
    have hread : EvalM.execute (evalSource.liftExcept (Program.parse code)) m = (.ok p, m) := by
      rw [hp]
      rfl
    refine .reads hread ?_
    cases hentry : p.entry with
    | some d => exact follows_evalDatum hD cfg hi hroot (Program.readable_entry hp hentry).storable
    | none => exact follows_emptyList hi

theorem follows_evalData {c : CellId} (hc : D.value m.store c) {ds : List Datum}
    (hds : ∀ d ∈ ds, d.Storable) :
    D.Follows m (evalData cfg root c ds) (evalData cfg root c ds) D.value := by
  induction ds generalizing m c with
  | nil => exact .pure hi hc
  | cons d ds ih =>
    refine (follows_evalDatum hD cfg hi hroot (hds d List.mem_cons_self)).bind ?_
    intro v m' _ hi' hg' hv
    exact ih hi' (D.scope_mono hg' hroot) hv fun d' h ↦ hds d' (List.mem_cons_of_mem d h)

theorem follows_loadSource (code : Text) :
    D.Follows m (loadSource cfg root code) (loadSource cfg root code) D.value := by
  have hds := Command.storable_data (.load code)
  have hfault : ∀ f, (TokenStream.ofLexed (lex code)).all.2.1 = some f → f.ordinary = true :=
    fun _ ↦ ordinary_readAll
  rw [Command.data] at hds
  rcases hall : (TokenStream.ofLexed (lex code)).all with ⟨ds, fault, rest⟩
  rw [hall] at hds hfault
  rw [loadSource, hall]
  refine (follows_emptyList hi).bind ?_
  intro c m₁ _ hi₁ hg₁ hc
  refine (follows_evalData hD cfg hi₁ (D.scope_mono hg₁ hroot) hc hds).bind ?_
  intro v m₂ _ hi₂ _ hv
  cases fault with
  | some f => exact .throw (hfault f rfl) hi₂
  | none => exact .pure hi₂ hv

theorem admits_callsOf {ds : List Datum} (hds : ∀ d ∈ ds, d.Storable) {q : Call}
    (hq : q ∈ callsOf cfg root ds m) : D.Admits q := by
  induction ds generalizing m with
  | nil => cases hq
  | cons d ds ih =>
    have hd := hds d List.mem_cons_self
    have hfollows := follows_evalDatum hD cfg hi hroot hd
    have hrun := execute_evalDatum cfg root d m
    have hfirst : D.Admits (.ofDatum root m d) := by
      obtain ⟨hinv, hcode⟩ := hD hi hd
      exact ⟨hinv, hcode, D.scope_mono (Datum.storesWell hd m.store).1.toExtends hroot⟩
    rw [callsOf] at hq
    rcases hout : (Call.ofDatum root m d).run (evaluate cfg) with ⟨f | c, m'⟩
    · rw [hout] at hq
      rw [List.mem_singleton.1 hq]
      exact hfirst
    · rw [hout] at hq hrun
      obtain ⟨-, hi', hg', -⟩ := hfollows
      rw [hrun] at hi' hg'
      rcases List.mem_cons.1 hq with rfl | hq
      · exact hfirst
      · exact ih hi' (D.scope_mono hg' hroot) (fun d' h ↦ hds d' (List.mem_cons_of_mem d h)) hq

end Sources

section Commands

variable {s : Session} (hD : D.Stores) (cfg : Settings) (hi : D.inv s.store)
  (hroot : D.scope s.store s.root)
include hD hi hroot

theorem admits_calls {c : Command} {q : Call} (hq : q ∈ s.calls cfg c) : D.Admits q := by
  cases c with
  | eval code =>
    exact admits_callsOf hD cfg (m := ⟨s.store, #[]⟩) hi hroot (Command.storable_data _) hq
  | load code =>
    have hnil : ∀ v ∈ ([] : List CellId), D.value s.store v := nofun
    have hgrows := (Store.appends_addList [] s.store).toExtends
    exact admits_callsOf hD cfg (m := ⟨(s.store.addList []).2, #[]⟩) (D.addList hi hnil).1
      (D.scope_mono hgrows hroot) (Command.storable_data _) hq
  | reset => cases hq

theorem follows_eval (code : Text) :
    D.Follows ⟨s.store, #[]⟩ (evalSource cfg s.root code) (evalSource cfg s.root code) D.value :=
  follows_evalSource hD cfg (m := ⟨s.store, #[]⟩) hi hroot code

theorem follows_load (code : Text) :
    D.Follows ⟨s.store, #[]⟩ (loadSource cfg s.root code) (loadSource cfg s.root code) D.value :=
  follows_loadSource hD cfg (m := ⟨s.store, #[]⟩) hi hroot code

end Commands

end Discipline

end LittleLisp
