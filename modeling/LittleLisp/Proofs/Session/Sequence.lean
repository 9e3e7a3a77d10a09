import LittleLisp.Proofs.Session.Loading

/-!
Sequencing. A block of expressions is stored as a whole before the first of them is evaluated, where
loading stores every expression when it is its turn. This makes no difference: an evaluation neither
reads nor changes what has been stored beside it. So the block does what loading its expressions
does, up to the names of what is stored.
-/

namespace LittleLisp

open EvalM Store
open Renaming (on SameResult Equates Twins Evaluators evaluators_evalDepthWith captures_child
  matches_none within_union_right simulates_sequenceFrom)

theorem Renaming.SameResult.eq_error {α β : Type} {Q : α → β → Prop} {r : Except Fault α}
    {f : Fault} (h : SameResult Q r (.error f)) : r = .error f := by
  cases h
  rfl

theorem Datum.appends_loadItems {ds : List Datum} (hds : ∀ d ∈ ds, d.Storable) (s : Store) :
    s.Appends (loadItems ds s).2 :=
  (Datum.allStored_loadItems (fun d hd ↦ Datum.storesWell (hds d hd)) s).1

theorem storable_block (name : Text) {ds : List Datum} (hds : ∀ d ∈ ds, d.Storable) :
    (Datum.list (.atom name :: ds)).Storable :=
  Datum.allStorable_iff.2 (List.forall_mem_cons.2 ⟨trivial, hds⟩)

theorem exists_matches_loadItems {s t : Store} (hs : s.WellFormed) (ht : t.WellFormed)
    {ds : List Datum} (hds : ∀ d ∈ ds, d.Storable) :
    ∃ Q : Renaming, Q.Matches (loadItems ds s).2 (loadItems ds t).2 ∧ Q.Exposed ∧
      (∀ {x y : Item}, Q.rel x y → ¬ s.Has x ∧ ¬ t.Has y) ∧
      Q.SameCells (loadItems ds s).1 (loadItems ds t).1 := by
  obtain ⟨Q, hQ, hcells⟩ := (matches_none hs ht).loadItems
    (fun d hd _ _ _ hR ↦ hR.load (hds d hd))
  refine ⟨Q, hQ.after, ?_, ?_, hcells⟩
  · intro e e' he
    have hnew := (hQ.freshHidden he).resolve_left id
    obtain ⟨o, hscope, -⟩ := hQ.after.hidden he
    rw [content?, (Datum.appends_loadItems hds s).scopes] at hscope
    exact Option.some_ne_none _ (hscope.symm.trans hnew)
  · intro x y hxy
    obtain ⟨hx, hy⟩ := (hQ.fresh hxy).resolve_left id
    exact ⟨not_not.2 hx, not_not.2 hy⟩

/-- What has been stored before some steps might as well be stored after them. -/
theorem exists_equates_loadItems {R : Renaming} {s u v : Store} (hs : s.WellFormed)
    {ds : List Datum} (hds : ∀ d ∈ ds, d.Storable) (hR : R.Equates s.Has u v)
    (hadvances : (on s.Has).Advances R (loadItems ds s).2 s u v) :
    ∃ Q : Renaming, Q.Equates s.Has u (loadItems ds v).2 ∧
      Q.SameCells (loadItems ds s).1 (loadItems ds v).1 := by
  obtain ⟨Q, hmatches, hexposed, hnew, hcells⟩ := exists_matches_loadItems hs hR.same.right hds
  have hapart : ∀ x, (on s.Has).Holds x → ¬ Q.Holds x := by
    rintro x (⟨_, -, hx⟩ | ⟨_, _, -, hfalse⟩) (⟨y, hxy⟩ | ⟨e, e', -, he⟩)
    · exact (hnew hxy).1 hx
    · exact hexposed e e' he
    all_goals exact hfalse
  obtain ⟨hQ, hleft⟩ := hadvances.apart hmatches hapart
  have hR' := hR.same.congr_right hmatches.right fun x y hxy ↦
    (Datum.appends_loadItems hds v).content? (hR.same.lt hxy).2
  refine ⟨R.union Q, ⟨?_, fun _ _ ↦ id, fun hx ↦ .inl (hR.kept hx)⟩,
    (within_union_right R hexposed).sameCells hcells⟩
  refine hR'.union hR.exposed hexposed hQ ?_ ?_
  · intro x y z hxy hxz
    exact hleft x (.inl ⟨y, hxy⟩) (.inl ⟨z, hxz⟩)
  · intro x y z hxz hyz
    exact (hnew hyz).2 (hR.same.lt hxz).2

section Block

variable (cfg : Settings) (depth : Nat)

theorem evaluators_evalDepth : Evaluators (evalDepth cfg depth) (evalDepth cfg depth) := by
  rw [← evalDepthWith_child]
  exact evaluators_evalDepthWith cfg captures_child depth

theorem execute_evalDataBy_cons (eval : Evaluate) (e : ScopeId) (v : CellId) (d : Datum)
    (ds : List Datum) (s : Store) (trace : Array Event) :
    (evalDataBy eval e v (d :: ds)).execute ⟨s, trace⟩ =
      (eval (load d s).1 e >>= fun w ↦ evalDataBy eval e w ds).execute ⟨(load d s).2, trace⟩ := by
  rw [evalDataBy, evalDatumBy, bind_assoc, execute_bind_ok (execute_change _)]

variable {s : Store} {e : ScopeId} (hs : s.Built) (he : s.Present (.scope e))
include hs he

theorem exists_equates_eval {t : Store} (h : s.Appends t) (ht : t.WellFormed) {c : CellId}
    (hc : s.Present (.cell c)) (trace : Array Event) :
    let p := (evalDepth cfg depth c e).execute ⟨t, trace⟩
    let p' := (evalDepth cfg depth c e).execute ⟨s, trace⟩
    ∃ R : Renaming, R.Equates s.Has p.2.store p'.2.store ∧
      (on s.Has).Advances R t s p.2.store p'.2.store ∧ p.2.trace = p'.2.trace ∧
      SameResult R.cell p.1 p'.1 := by
  have hequates := hs.whole.equates ht hs.whole.wellFormed h (.refl s)
  have hE : Evaluators (evalDepth cfg depth) (evalDepth cfg depth) := evaluators_evalDepth cfg depth
  obtain ⟨hA, hA'⟩ := hequates.agree trace
  have hcell : (on s.Has).cell c c := ⟨rfl, hc.content?⟩
  have hscope : (on s.Has).scope e e := ⟨rfl, he.content?⟩
  exact hequates.simulates (hE hA hcell hscope) (hE hA' hcell hscope)

omit hs he in
theorem twins_of_sameCells {R : Renaming} {D : Item → Prop} {t t' : Store} {c c' : CellId}
    {cs cs' : List CellId} (h : R.Equates D t t') (hD : D (.scope e))
    (hc : R.SameCells (c :: cs) (c' :: cs')) (trace : Array Event) :
    Twins D ((SpecialForm.sequenceFrom (evalDepth cfg depth) e c cs).execute ⟨t, trace⟩)
      ((SpecialForm.sequenceFrom (evalDepth cfg depth) e c' cs').execute ⟨t', trace⟩) := by
  have hE : Evaluators (evalDepth cfg depth) (evalDepth cfg depth) := evaluators_evalDepth cfg depth
  have hflip : R.flip.SameCells (c' :: cs') (c :: cs) := hc.flip
  obtain ⟨hA, hA'⟩ := h.agree trace
  cases hc with
  | cons hc hcs =>
    cases hflip with
    | cons hc' hcs' =>
      exact Equates.twins h (simulates_sequenceFrom hA hE (h.kept hD) hc hcs)
        (simulates_sequenceFrom hA' hE (h.kept hD) hc' hcs')

theorem twins_sequenceFrom_appends {t : Store} (h : s.Appends t) (ht : t.WellFormed) {c : CellId}
    {cs : List CellId} (hcs : ∀ c' ∈ c :: cs, s.Present (.cell c')) (trace : Array Event) :
    Twins s.Has ((SpecialForm.sequenceFrom (evalDepth cfg depth) e c cs).execute ⟨t, trace⟩)
      ((SpecialForm.sequenceFrom (evalDepth cfg depth) e c cs).execute ⟨s, trace⟩) := by
  have hequates := hs.whole.equates ht hs.whole.wellFormed h (.refl s)
  exact twins_of_sameCells cfg depth hequates he.content?
    (List.forall₂_same.2 fun c' hc ↦ ⟨rfl, (hcs c' hc).content?⟩) trace

theorem twins_evalDataBy_appends {t t' : Store} (h : s.Appends t) (h' : s.Appends t')
    (ht : t.WellFormed) (ht' : t'.WellFormed) {d : Datum} {ds : List Datum}
    (hds : ∀ d' ∈ d :: ds, d'.Storable) (v : CellId) (trace : Array Event) :
    Twins s.Has ((evalDataBy (evalDepth cfg depth) e v (d :: ds)).execute ⟨t, trace⟩)
      ((evalDataBy (evalDepth cfg depth) e v (d :: ds)).execute ⟨t', trace⟩) := by
  have hequates := hs.whole.equates ht ht' h h'
  have hE : Evaluators (evalDepth cfg depth) (evalDepth cfg depth) := evaluators_evalDepth cfg depth
  obtain ⟨hA, hA'⟩ := hequates.agree trace
  have hscope : (on s.Has).scope e e := ⟨rfl, he.content?⟩
  exact Equates.twins hequates (simulates_evalDataBy_cons hE hA hscope hds)
    (simulates_evalDataBy_cons hE hA' hscope hds)

theorem present_load {d : Datum} (hd : d.Storable) :
    (load d s).2.Built ∧ (load d s).2.Present (.cell (load d s).1) ∧
      (load d s).2.Present (.scope e) ∧ s.Appends (load d s).2 := by
  obtain ⟨hbuilt, hcell⟩ := hs.load hd
  have happends := (Datum.storesWell hd s).1
  exact ⟨hbuilt, hcell, he.scope_extends happends.toExtends, happends⟩

theorem twins_sequenceFrom {d : Datum} {ds : List Datum} (hds : ∀ d' ∈ d :: ds, d'.Storable)
    (v : CellId) (trace : Array Event) :
    Twins s.Has
      ((SpecialForm.sequenceFrom (evalDepth cfg depth) e (load d s).1
        (loadItems ds (load d s).2).1).execute ⟨(loadItems ds (load d s).2).2, trace⟩)
      ((evalDataBy (evalDepth cfg depth) e v (d :: ds)).execute ⟨s, trace⟩) := by
  -- One by one, from the first expression on: what the evaluation of the first leaves behind is the
  -- same, whether the others are stored before it or after it.
  induction ds generalizing s d v trace with
  | nil =>
    obtain ⟨hs₁, hc, he₁, happends⟩ := present_load hs he (hds d List.mem_cons_self)
    obtain ⟨R, hR, -, htrace, hresult⟩ :=
      exists_equates_eval cfg depth hs₁ he₁ (.refl _) hs₁.whole.wellFormed hc trace
    rw [execute_evalDataBy_cons]
    simp only [evalDataBy, bind_pure]
    exact ⟨R, hR.mono fun _ ↦ happends.has, htrace, hresult⟩
  | cons d' ds ih =>
    obtain ⟨hs₁, hc, he₁, happends⟩ := present_load hs he (hds d List.mem_cons_self)
    have hds' : ∀ d'' ∈ d' :: ds, d''.Storable := fun d'' h ↦ hds d'' (List.mem_cons_of_mem d h)
    have hs₂ := (hs₁.loadItems hds' fun d hd _ hs ↦ hs.load (hds' d hd)).1
    obtain ⟨R, hR, hadvances, htrace, hresult⟩ := exists_equates_eval cfg depth hs₁ he₁
      (Datum.appends_loadItems hds' (load d s).2) hs₂.whole.wellFormed hc trace
    have hfollows := Discipline.evaluators_evalDepth safety cfg depth (m := ⟨(load d s).2, trace⟩)
      hs₁ hc he₁
    have hbuilt := hfollows.inv
    have hgrows := hfollows.grows
    rw [execute_evalDataBy_cons]
    change Twins s.Has ((evalDepth cfg depth (load d s).1 e >>= fun _ ↦
      SpecialForm.sequenceFrom (evalDepth cfg depth) e (load d' (load d s).2).1
        (loadItems ds (load d' (load d s).2).2).1).execute _) _
    rcases hrun : (evalDepth cfg depth (load d s).1 e).execute
      ⟨(loadItems (d' :: ds) (load d s).2).2, trace⟩ with ⟨r, u, events⟩
    rcases hrun' : (evalDepth cfg depth (load d s).1 e).execute ⟨(load d s).2, trace⟩ with
      ⟨r', u', events'⟩
    rw [hrun, hrun'] at hR hadvances htrace hresult
    rw [hrun'] at hbuilt hgrows
    obtain rfl : events = events' := htrace
    cases hresult with
    | error f =>
      rw [execute_bind_error hrun, execute_bind_error hrun']
      exact ⟨R, hR.mono fun _ ↦ happends.has, rfl, .error f⟩
    | @ok w w' _ =>
      rw [execute_bind_ok hrun, execute_bind_ok hrun']
      obtain ⟨Q, hQ, hcells⟩ := exists_equates_loadItems hs₁.whole.wellFormed hds' hR hadvances
      have hlater := twins_of_sameCells cfg depth hQ he₁.content? hcells events
      have hrest := ih hbuilt (he₁.scope_extends hgrows) hds' w' events
      exact (hlater.mono fun _ ↦ happends.has).trans
        (hrest.mono fun _ hx ↦ hadvances.right.isSome (happends.has hx))

theorem twins_block (name : Text) {d : Datum} {ds : List Datum}
    (hds : ∀ d' ∈ d :: ds, d'.Storable) (v : CellId) (trace : Array Event) :
    let named := (s.addCell (.atom name)).2
    Twins s.Has
      ((SpecialForm.sequenceFrom (evalDepth cfg depth) e (load d named).1
        (loadItems ds (load d named).2).1).execute
          ⟨(load (.list (.atom name :: d :: ds)) s).2, trace⟩)
      ((evalDataBy (evalDepth cfg depth) e v (d :: ds)).execute ⟨(s.addList []).2, trace⟩) := by
  intro named
  have hnil : ∀ v ∈ ([] : List CellId), s.Present (.cell v) := nofun
  have hspare := (hs.addList hnil).1
  have hlist := (hs.load (storable_block name hds)).1
  have hnamed : named.Built := hs.addCell nofun nofun nofun
  have happends : s.Appends named := appends_addCell _ s
  have he' : named.Present (.scope e) := he.scope_extends happends.toExtends
  obtain ⟨hitems, hcells⟩ := hnamed.loadItems hds fun d hd _ hs ↦ hs.load (hds d hd)
  have happends' := Datum.appends_loadItems hds named
  -- Neither the cell of the list nor that of its first name makes a difference.
  have hblock := twins_sequenceFrom_appends cfg depth hitems
    (he'.scope_extends happends'.toExtends)
    (appends_addList ((s.addCell (.atom name)).1 :: (loadItems (d :: ds) named).1) _)
    hlist.whole.wellFormed hcells trace
  have hdata := twins_sequenceFrom cfg depth hnamed he' hds v trace
  have hspared := twins_evalDataBy_appends cfg depth hs he happends (appends_addList [] s)
    hnamed.whole.wellFormed hspare.whole.wellFormed hds v trace
  exact ((hblock.mono fun _ hx ↦ happends'.has (happends.has hx)).trans
    (hdata.mono fun _ ↦ happends.has)).trans hspared

end Block

section Call

variable {eval : Evaluate} {m : Machine} {e : ScopeId} {c f : CellId}

theorem execute_name (cfg : Settings) (eval : Evaluate) {name : Text}
    (hc : m.store.cell c = .atom name) (hf : m.store.lookup? e name = some f) :
    ∃ trace, (evalStep cfg eval c e).execute m = (.ok f, { m with trace := trace }) := by
  obtain ⟨trace, ht⟩ := execute_traceEvent cfg (m := m) (execute_pure (Event.lookup name))
  refine ⟨trace, ?_⟩
  rw [evalStep, execute_bind_ok (execute_cell c), hc]
  simp only [execute_bind_ok ht, execute_bind_ok execute_getStore, hf]
  rfl

theorem execute_list (cfg : Settings) (eval : Evaluate) {k : HandleId} {head : CellId}
    {args : List CellId} (hc : m.store.cell c = .list k) (hi : m.store.items k = head :: args) :
    (evalStep cfg eval c e).execute m = (evalCall cfg eval e head args).execute m := by
  rw [evalStep, execute_bind_ok (execute_cell c), hc]
  simp only [execute_bind_ok (execute_items k), hi]

theorem outcome_evalCall (cfg : Settings) (args : List CellId) {head : CellId} {fn : FunctionValue}
    {trace : Array Event} (hhead : (eval head e).execute m = (.ok f, { m with trace := trace }))
    (hf : m.store.cell f = .function fn) (hk : fn.kind ≠ .normal) :
    ∃ trace', outcome (evalCall cfg eval e head args) m =
      outcome (invoke cfg eval fn e args) { m with trace := trace' } := by
  obtain ⟨trace', ht⟩ :=
    Semantics.outcome_invokeTraced cfg eval fn e args { m with trace := trace }
  refine ⟨trace', ?_⟩
  rw [← ht, Semantics.evalCall_eq, outcome, outcome, execute_bind_ok hhead,
    execute_bind_ok (execute_cell f)]
  simp only [hf, if_neg hk]
  rfl

theorem outcome_sequence (cfg : Settings) (depth : Nat) {k : HandleId} {head first : CellId}
    {rest : List CellId} {name : Text} {fn : FunctionValue} (hc : m.store.cell c = .list k)
    (hi : m.store.items k = head :: first :: rest) (hhead : m.store.cell head = .atom name)
    (hname : m.store.lookup? e name = some f) (hf : m.store.cell f = .function fn)
    (hkind : fn.kind = .specialForm) (hexecutor : fn.executor = .operator (.form .sequence)) :
    ∃ trace, outcome (evalDepth cfg (depth + 2) c e) m =
      outcome (SpecialForm.sequenceFrom (evalDepth cfg (depth + 1)) e first rest)
        { m with trace := trace } := by
  obtain ⟨trace, hlookup⟩ := execute_name cfg (evalDepth cfg depth) hhead hname
  obtain ⟨trace', hcall⟩ := outcome_evalCall cfg (first :: rest) hlookup hf (by rw [hkind]; nofun)
  refine ⟨trace', ?_⟩
  rw [evalDepth, outcome, execute_list cfg _ hc hi]
  refine hcall.trans ?_
  rw [invoke, hexecutor]
  rfl

end Call

def Session.BindsSequence (s : Session) : Prop :=
  ∃ f fn, s.store.lookup? s.root "do" = some f ∧ s.store.cell f = .function fn ∧
    fn.kind = .specialForm ∧ fn.executor = .operator (.form .sequence)

theorem Store.Appends.lookup? {s t : Store} (h : s.Appends t) (hs : s.Built) (ht : t.WellFormed)
    {e : ScopeId} (he : s.Present (.scope e)) {name : Text} {f : CellId}
    (hf : s.lookup? e name = some f) : t.lookup? e name = some f := by
  have hsame := (hs.whole.equates hs.whole.wellFormed ht (.refl s) h).same
  have hlookup := hsame.lookup? (.inl ⟨rfl, he.content?⟩) name
  rw [hf] at hlookup
  generalize t.lookup? e name = o at hlookup ⊢
  cases hlookup with
  | some hff => rw [Item.cell.inj hff.1]

theorem load_list (d : Datum) (ds : List Datum) (s : Store) :
    ∃ k, (load (.list (d :: ds)) s).2.cell (load (.list (d :: ds)) s).1 = .list k ∧
      (load (.list (d :: ds)) s).2.items k =
        (load d s).1 :: (loadItems ds (load d s).2).1 := by
  refine ⟨(loadItems (d :: ds) s).2.handles.size, ?_, (hasRow_addList _ _).items_eq⟩
  change ((loadItems (d :: ds) s).2.addList (loadItems (d :: ds) s).1).2.cell
    ((loadItems (d :: ds) s).2.addList (loadItems (d :: ds) s).1).1 = _
  simp [Store.cell]

section Evaluation

variable (cfg : Settings) {s : Session} (hs : s.Sound) (hbinds : s.BindsSequence) {d : Datum}
  {ds : List Datum} (hds : ∀ d' ∈ d :: ds, d'.Storable)
include hs hbinds hds

theorem outcome_block (depth : Nat) :
    let list := load (.list (.atom "do" :: d :: ds)) s.store
    let named := (s.store.addCell (.atom "do")).2
    ∃ trace, outcome (evalDepth cfg (depth + 2) list.1 s.root) ⟨list.2, #[]⟩ =
      outcome (SpecialForm.sequenceFrom (evalDepth cfg (depth + 1)) s.root (load d named).1
        (loadItems ds (load d named).2).1) ⟨list.2, trace⟩ := by
  intro list named
  obtain ⟨f, fn, hlookup, hf, hkind, hexecutor⟩ := hbinds
  have hlist : list.2.Built := (hs.built.load (storable_block "do" hds)).1
  have happends : s.store.Appends list.2 := (Datum.storesWell (storable_block "do" hds) _).1
  have happends' : named.Appends list.2 :=
    (Datum.appends_loadItems hds named).trans (appends_addList _ _)
  have hdo : list.2.cell (s.store.addCell (.atom "do")).1 = .atom "do" :=
    happends'.toExtends.cell_eq_of_ne_absent (cell_addCell _ _) (by simp)
  have hlookup' := happends.lookup? hs.built hlist.whole.wellFormed hs.root hlookup
  have hf' : list.2.cell f = .function fn := happends.toExtends.cell_eq_of_ne_absent hf (by simp)
  obtain ⟨k, hcell, hitems⟩ := load_list (.atom "do") (d :: ds) s.store
  exact outcome_sequence cfg depth (m := ⟨list.2, #[]⟩) hcell hitems hdo hlookup' hf' hkind
    hexecutor

omit hs hbinds hds in
/-- The block is one level, and the name at its head is another. -/
theorem exists_budget {e : ScopeId} {m : Machine} {c head : CellId} {args : List CellId}
    {k : HandleId} (hc : m.store.cell c = .list k) (hi : m.store.items k = head :: args)
    (h : ((evaluate cfg c e).execute m).1 ≠ .error .tooDeep) :
    ∃ depth, cfg.evalDepth = depth + 2 := by
  rw [evaluate] at h
  rcases hdepth : cfg.evalDepth with - | - | depth <;> rw [hdepth] at h
  · exact absurd rfl h
  · have hhead : (evalDepth cfg 0 head e).execute m = (.error .tooDeep, m) := rfl
    rw [evalDepth, execute_list cfg _ hc hi, Semantics.evalCall_eq, execute_bind_error hhead] at h
    exact absurd rfl h
  · exact ⟨depth, rfl⟩

/-- The block does what the expressions do, unless the budget is exhausted. -/
theorem exists_equates_block (v : CellId) :
    let list := load (.list (.atom "do" :: d :: ds)) s.store
    let p := outcome (evaluate cfg list.1 s.root) ⟨list.2, #[]⟩
    let p' := outcome (evalData cfg s.root v (d :: ds)) ⟨(s.store.addList []).2, #[]⟩
    p.1 ≠ .error .tooDeep →
      ∃ R : Renaming, R.Equates s.store.Has p.2 p'.2 ∧ SameResult R.cell p.1 p'.1 := by
  intro list p p' hp
  obtain ⟨k, hcell, hitems⟩ := load_list (.atom "do") (d :: ds) s.store
  obtain ⟨depth, hdepth⟩ := exists_budget cfg (m := ⟨list.2, #[]⟩) hcell hitems hp
  have hevaluate : evaluate cfg = evalDepth cfg (depth + 2) := by rw [evaluate, hdepth]
  obtain ⟨trace, hblock⟩ := outcome_block cfg hs hbinds hds depth
  obtain ⟨R, hR, -, hresult⟩ := twins_block cfg (depth + 1) hs.built hs.root "do" hds v trace
  rw [← hevaluate] at hblock
  replace hblock : p = _ := hblock
  have hne : ((evalDataBy (evalDepth cfg (depth + 1)) s.root v (d :: ds)).execute
      ⟨(s.store.addList []).2, trace⟩).1 ≠ .error .tooDeep := by
    intro hfault
    rw [hfault] at hresult
    exact hp ((congrArg Prod.fst hblock).trans hresult.eq_error)
  -- The expressions have one level more when they are not in the block.
  have hexceeds := (Parametric.evalDataBy cfg (fun _ ↦ False) s.root v (d :: ds)).exceeds
    (exceeds_evalDepth cfg (depth + 1)) hne
  rw [← hevaluate, evalDataBy_evaluate] at hexceeds
  obtain ⟨o, t, events, hevents⟩ :=
    oblivious_evalData cfg s.root v (d :: ds) (s.store.addList []).2
  rw [← hexceeds, hevents trace] at hR hresult
  have hloaded : p' = (o, t) := by simp only [p', outcome, hevents #[]]
  rw [hloaded, hblock]
  exact ⟨R, hR, hresult⟩

end Evaluation

theorem eval_sequenced (cfg : Settings) (s : Session) {source : Text}
    (h : (expressions source).2 = none) :
    let list := load (.list (.atom "do" :: (expressions source).1)) s.store
    let p := (evaluate cfg list.1 s.root).execute ⟨list.2, #[]⟩
    s.eval cfg (sequenced source) = (⟨p.1, p.2.trace.toList⟩, ⟨p.2.store, s.root⟩) := by
  intro list p
  simp only [Session.eval, Session.run, execute_evalSource, parse_sequenced h]
  rfl

/-- A block does what loading does. In every session that can be reached and whose root binds `do`
to the form that evaluates in order, to evaluate the block of a text's expressions and to load the
text give the same printed value or the same fault, and leave the same behind up to the names of
what is new: what was there before keeps its name, and every name in the root is bound to the same.
Only an evaluation that exhausts its budget is excepted. -/
theorem block_agrees_with_loading (cfg : Settings) :
    (∀ cfg' es s, Session.Reaches cfg' es s → s.Sound) ∧
    ∀ (s : Session) (source : Text), s.Sound → s.BindsSequence →
      (expressions source).2 = none → (expressions source).1 ≠ [] →
      let evaluated := s.eval cfg (sequenced source)
      let loaded := s.load cfg source
      evaluated.1.result ≠ .error .tooDeep →
        evaluated.2.report evaluated.1 = loaded.2.report loaded.1 ∧
        ∃ R : Renaming, R.Equates s.store.Has evaluated.2.store loaded.2.store ∧
          SameResult R.cell evaluated.1.result loaded.1.result ∧
          ∀ name, Option.Rel R.cell (evaluated.2.store.lookup? evaluated.2.root name)
            (loaded.2.store.lookup? loaded.2.root name) := by
  refine ⟨fun _ _ _ h ↦ h.sound, ?_⟩
  intro s source hs hbinds hsource hsome
  obtain ⟨d, ds, hds⟩ := List.exists_cons_of_ne_nil hsome
  have hstorable := storable_expressions source
  have hload := Session.load_of_execute (Prod.eta ((evalData cfg s.root (s.store.addList []).1
    (expressions source).1).execute ⟨(s.store.addList []).2, #[]⟩)).symm
  rw [hsource, concluded_none] at hload
  rw [eval_sequenced cfg s hsource, hload]
  rw [hds] at hstorable ⊢
  intro evaluated loaded hne
  obtain ⟨R, hR, hresult⟩ :=
    exists_equates_block cfg hs hbinds hstorable (s.store.addList []).1 hne
  exact ⟨report_eq hR.same hresult, R, hR, hresult,
    fun name ↦ hR.same.lookup? (.inl (hR.kept hs.root.content?)) name⟩

theorem bindsSequence_start : Session.start.BindsSequence :=
  ⟨12, ⟨"do", .specialForm, .operator (.form .sequence)⟩, rfl, rfl, rfl, rfl⟩

/-- The name `do` is bound to a list, which comes to hold itself before the last one fails. -/
theorem block_agrees_reboundName :
    let cfg : Settings := { evalDepth := 6 }
    let source : Text := "(def x (list #t)) (def do x) (push do x) (car (car x))"
    let evaluated := Session.start.eval cfg (sequenced source)
    let loaded := Session.start.load cfg source
    Session.start.Sound ∧ Session.start.BindsSequence ∧ (expressions source).2 = none ∧
      (expressions source).1 ≠ [] ∧
      evaluated.1.result.mapError Fault.category = .error .notAList ∧
      evaluated.2.report evaluated.1 = loaded.2.report loaded.1 ∧
      ∃ R : Renaming, R.Equates Session.start.store.Has evaluated.2.store loaded.2.store := by
  intro cfg source
  obtain ⟨hreaches, hagrees⟩ := block_agrees_with_loading cfg
  have hsound := hreaches cfg [] .start .start
  have hsource : (expressions source).2 = none := by decide +kernel
  have hsome : (expressions source).1 ≠ [] := List.isEmpty_eq_false_iff.1 (by decide +kernel)
  have hfault : (Session.start.eval cfg (sequenced source)).1.result.mapError Fault.category =
      .error .notAList := by decide +kernel
  have hagree := hagrees .start source hsound bindsSequence_start hsource hsome
  dsimp only at hagree ⊢
  generalize Session.start.eval cfg (sequenced source) = evaluated at *
  generalize Session.start.load cfg source = loaded at *
  refine ⟨hsound, bindsSequence_start, hsource, hsome, hfault, ?_⟩
  have hne : evaluated.1.result ≠ .error .tooDeep := by
    intro hdeep
    rw [hdeep] at hfault
    cases hfault
  obtain ⟨hreport, R, hR, -⟩ := hagree hne
  exact ⟨hreport, R, hR⟩

end LittleLisp
