import LittleLisp.Proofs.Renaming.Evaluator
import LittleLisp.Proofs.Renaming.Identity
import LittleLisp.Proofs.Session.Safety

namespace LittleLisp

namespace Store

variable {s t : Store} {cs : List CellId} {D : Item → Prop} {x y : Item}

def ReachableFrom (s : Store) (cs : List CellId) (x : Item) : Prop :=
  ∃ c ∈ cs, Relation.ReflTransGen s.Refers (.cell c) x

theorem reachableFrom_self {c : CellId} (hc : c ∈ cs) : s.ReachableFrom cs (.cell c) :=
  ⟨c, hc, .refl⟩

theorem ReachableFrom.next (h : s.ReachableFrom cs x) (hxy : s.Refers x y) :
    s.ReachableFrom cs y := by
  obtain ⟨c, hc, hx⟩ := h
  exact ⟨c, hc, hx.tail hxy⟩

theorem Whole.reachableFrom (hs : s.Whole) (hcs : ∀ c ∈ cs, s.Present (.cell c))
    (h : s.ReachableFrom cs x) : s.Present x := by
  obtain ⟨c, hc, hx⟩ := h
  cases hx with
  | refl => exact hcs c hc
  | tail _ hlast => exact hs.refers hlast

/-- The stores differ in nothing but in what scopes outside of `D` bind. -/
structure SameWithin (D : Item → Prop) (s t : Store) : Prop where
  cells : t.cells = s.cells
  handles : t.handles = s.handles
  nodes : t.nodes = s.nodes
  outer : ∀ e : ScopeId, t.scopes[e]?.map Scope.outer = s.scopes[e]?.map Scope.outer
  bindings : ∀ e : ScopeId, D (.scope e) → t.scopes[e]? = s.scopes[e]?

namespace SameWithin

variable (h : SameWithin D s t)
include h

theorem content? (hx : D x) : t.content? x = s.content? x := by
  cases x with
  | cell c => rw [Store.content?, Store.content?, h.cells]
  | handle k => rw [Store.content?, Store.content?, h.handles]
  | node n => rw [Store.content?, Store.content?, h.nodes]
  | scope e => rw [Store.content?, Store.content?, h.bindings e hx]

theorem wellFormed (hs : s.WellFormed) : t.WellFormed where
  linked := hs.linked.of_eq h.handles h.nodes
  quoted_lt := by
    rw [h.cells]
    exact hs.quoted_lt
  outer_lt {e o x} hread hx := by
    have houter := h.outer e
    rw [hread, Option.map_some, hx] at houter
    obtain ⟨y, hy, hyo⟩ := Option.map_eq_some_iff.1 houter.symm
    exact hs.outer_lt hy hyo

end SameWithin

theorem sameWithin_define {e : ScopeId} (he : ¬ D (.scope e)) (n : Text) (v : CellId) :
    SameWithin D s (s.define e n v) where
  cells := rfl
  handles := rfl
  nodes := rfl
  outer d := by
    simp only [define, Array.getElem?_modify]
    split
    · rw [Option.map_map]
      rfl
    · rfl
  bindings d hd := by
    have hne : e ≠ d := fun h ↦ he (h ▸ hd)
    simp only [define, Array.getElem?_modify, if_neg hne]

end Store

open Store Renaming

/-- Two runs, from `s` to `s'` and from `t` to `t'`, that do the same up to the names of what they
make. Each thing in `D` stands for itself, everything new on either side stands for something new on
the other, things that stand for each other hold the same, and what was there outside of `D` is as
it was. -/
structure Parallel (D : Item → Prop) (R : Renaming) (s t s' t' : Store) : Prop where
  same : R.Matches s' t'
  exposed : ∀ e e', ¬ R.hidden e e'
  old : ∀ {x : Item}, D x → R.rel x x
  new : ∀ {x y : Item}, R.rel x y →
    D x ∧ x = y ∨ s.content? x = Option.none ∧ t.content? y = Option.none
  left : ∀ {x : Item}, s.content? x = Option.none → s'.content? x ≠ Option.none → ∃ y, R.rel x y
  right : ∀ {y : Item}, t.content? y = Option.none → t'.content? y ≠ Option.none → ∃ x, R.rel x y
  keptLeft : ∀ {x : Item}, s.content? x ≠ Option.none → ¬ D x → s'.content? x = s.content? x
  keptRight : ∀ {x : Item}, t.content? x ≠ Option.none → ¬ D x → t'.content? x = t.content? x

namespace Renaming

variable {R : Renaming} {D : Item → Prop} {s t s' t' : Store}

theorem Advances.parallel (hm : (on D).Matches s t) (h : (on D).Advances R s t s' t')
    (hcard : (newScopes s s').card ≤ (newScopes t t').card) : Parallel D R s t s' t' where
  same := h.after
  exposed := h.exposed hm (fun _ _ ↦ id) hcard
  old hx := h.within.rel ⟨rfl, hx⟩
  new hxy := (h.fresh hxy).imp_left And.symm
  left hold hx := by
    rcases h.coversLeft hx hold with hrel | ⟨e, e', -, hhidden⟩
    · exact hrel
    · exact absurd hhidden (h.exposed hm (fun _ _ ↦ id) hcard e e')
  right hold hy := h.coversRight hy hold
  keptLeft hx hD := h.left.kept hx fun ⟨_, _, hx⟩ ↦ absurd hx hD
  keptRight hx hD := h.right.kept hx fun ⟨_, hxy, hx⟩ ↦ absurd (hxy ▸ hx) hD

/-- A body runs alike in stores that agree on a closed part with the captured scope, the body and
the arguments. -/
theorem simulates_closure (cfg : Settings) (depth : Nat) {captured : ScopeId} (params : List Text)
    {body : CellId} {vs : List CellId} (trace : Array Event) (hm : (on D).Matches s t)
    (hcaptured : D (.scope captured)) (hbody : D (.cell body)) (hvs : ∀ v ∈ vs, D (.cell v)) :
    (on D).Simulates ⟨s, trace⟩ ⟨t, trace⟩
      (bindArguments captured params vs >>= evalDepth cfg depth body)
      (bindArguments captured params vs >>= evalDepth cfg depth body) Renaming.cell := by
  have hE : Evaluators (evalDepth cfg depth) (evalDepth cfg depth) := by
    rw [← evalDepthWith_child]
    exact evaluators_evalDepthWith cfg captures_child depth
  have hA : (on D).Agree ⟨s, trace⟩ ⟨t, trace⟩ := ⟨hm, rfl⟩
  refine simulates_body hA hE (.inl ⟨rfl, hcaptured⟩) params ⟨rfl, hbody⟩ ?_
  exact List.forall₂_same.2 fun v hv ↦ ⟨rfl, hvs v hv⟩

end Renaming

theorem matches_reachable {s t : Store} {cs : List CellId} (hs : s.Whole)
    (hcs : ∀ c ∈ cs, s.Present (.cell c)) (h : SameWithin (s.ReachableFrom cs) s t) :
    (on (s.ReachableFrom cs)).Matches s t ∧ (on (s.ReachableFrom cs)).Matches t s := by
  have ht := h.wellFormed hs.wellFormed
  have hsome : ∀ x, s.ReachableFrom cs x → s.content? x ≠ Option.none :=
    fun x hx ↦ (hs.reachableFrom hcs hx).content?
  refine ⟨matches_on hs.wellFormed ht hsome (fun x y ↦ .next) fun x ↦ h.content?, ?_⟩
  refine matches_on ht hs.wellFormed ?_ ?_ fun x hx ↦ (h.content? hx).symm
  · intro x hx
    rw [h.content? hx]
    exact hsome x hx
  · intro x y hx ⟨a, ha, hy⟩
    exact hx.next ⟨a, (h.content? hx).symm.trans ha, hy⟩

/-- Scope is lexical. At every moment of every session, and in every store that can be built, a call
of a closure does the same in all stores that differ only in what scopes bind that cannot be reached
from the closure and its arguments: from whatever scopes it is called, it gives the same fault or
the same value, notes the same and makes the same changes, up to the names of what it makes, and
leaves those scopes as they were. -/
theorem closures_lexically_scoped (cfg : Settings) :
    (∀ es s, Session.Moment cfg es s → s.Built) ∧
    ∀ (s t : Store) (f : CellId) (fn : FunctionValue) (captured : ScopeId) (params : List Text)
      (body : CellId) (vs : List CellId), s.Built → s.cell f = .function fn →
      fn.executor = .closure captured params body → (∀ v ∈ vs, s.Present (.cell v)) →
      SameWithin (s.ReachableFrom (f :: vs)) s t →
      ∀ (depth : Nat) (e e' : ScopeId) (trace : Array Event),
        let r := (invoke cfg (evalDepth cfg depth) fn e vs).execute ⟨s, trace⟩
        let r' := (invoke cfg (evalDepth cfg depth) fn e' vs).execute ⟨t, trace⟩
        ∃ R, Parallel (s.ReachableFrom (f :: vs)) R s t r.2.store r'.2.store ∧
          r.2.trace = r'.2.trace ∧ SameResult R.cell r.1 r'.1 := by
  refine ⟨fun es s h ↦ h.built, ?_⟩
  intro s t f fn captured params body vs hs hf hx hvs hsame depth e e' trace
  obtain ⟨name, kind, executor⟩ := fn
  obtain rfl : executor = .closure captured params body := hx
  have hpresent : ∀ c ∈ f :: vs, s.Present (.cell c) := by
    refine List.forall_mem_cons.2 ⟨Present.cell_iff.2 ?_, hvs⟩
    rw [hf]
    nofun
  obtain ⟨hm, hm'⟩ := matches_reachable hs.whole hpresent hsame
  have hread := content?_of_cell hf nofun
  have hself := reachableFrom_self (s := s) (List.mem_cons_self (a := f) (l := vs))
  have hcaptured := hself.next ⟨_, hread, .captured name kind captured params body⟩
  have hbody := hself.next ⟨_, hread, .body name kind captured params body⟩
  have hargs : ∀ v ∈ vs, s.ReachableFrom (f :: vs) (.cell v) :=
    fun v hv ↦ reachableFrom_self (List.mem_cons_of_mem f hv)
  obtain ⟨R, hadvances, htrace, hresult⟩ :=
    simulates_closure cfg depth params trace hm hcaptured hbody hargs
  -- Seen from the other side the runs do the same too, so neither makes more scopes.
  obtain ⟨R', hadvances', -, -⟩ :=
    simulates_closure cfg depth params trace hm' hcaptured hbody hargs
  exact ⟨R, hadvances.parallel hm (hadvances'.card_newScopes_le hm'), htrace, hresult⟩

def reader : FunctionValue := ⟨"f", .normal, .closure 0 [] 1⟩

def frames : Store :=
  let s := (Store.empty.addCell (.atom "n")).2
  let s := (s.addCell (.bool true)).2
  let s := (s.addCell (.bool false)).2
  let s := ((s.addScope none).2).define 0 "n" 2
  let s := (s.addCell (.function reader)).2
  (s.addScope (some 0)).2

theorem built_frames : frames.Built := by
  have hname := Built.empty.addCell (x := .atom "n") nofun nofun nofun
  have hvalue := hname.addCell (x := .bool true) nofun nofun nofun
  have hother := hvalue.addCell (x := .bool false) nofun nofun nofun
  have hscope := hother.addScope (o := none) nofun
  have hdefine := hscope.define (e := 0) (v := 2) "n" ⟨_, rfl, nofun⟩ ⟨_, rfl, nofun⟩
  have hclosure := hdefine.addCell (x := .function reader) nofun
    (fun y hy ↦ by cases hy <;> exact ⟨_, rfl, nofun⟩)
    (fun fn hfn ↦ by cases hfn; exact ⟨rfl, trivial, trivial⟩)
  refine hclosure.addScope (o := some 0) ?_
  intro e he
  cases he
  exact ⟨_, rfl, nofun⟩

theorem reachable_frames {x : Item} (h : frames.ReachableFrom [4] x) :
    x = .cell 4 ∨ x = .scope 0 ∨ x = .cell 1 ∨ x = .cell 2 := by
  obtain ⟨c, hc, hx⟩ := h
  obtain rfl := List.mem_singleton.1 hc
  induction hx with
  | refl => exact .inl rfl
  | tail _ hstep ih =>
    obtain ⟨a, ha, hy⟩ := hstep
    rcases ih with rfl | rfl | rfl | rfl
    · obtain rfl : Content.cell (.function reader) = a := Option.some.inj ha
      cases hy <;> simp
    · obtain rfl : Content.scope ⟨[("n", 2)], none⟩ = a := Option.some.inj ha
      cases hy with
      | bound _ hp => simp_all
    · obtain rfl : Content.cell (.atom "n") = a := Option.some.inj ha
      cases hy
    · obtain rfl : Content.cell (.bool true) = a := Option.some.inj ha
      cases hy

/-- Whether or not the caller binds the name, the function reads what it has captured. -/
theorem lexical_frames :
    let called := fun s ↦ (invoke {} (evalDepth {} 1) reader 1 []).execute ⟨s, #[]⟩
    frames.Built ∧ SameWithin (frames.ReachableFrom [4]) frames (frames.define 1 "n" 3) ∧
      (called frames).1 = .ok 2 ∧ (called (frames.define 1 "n" 3)).1 = .ok 2 := by
  intro called
  have hother : ¬ frames.ReachableFrom [4] (.scope 1) :=
    fun h ↦ by simpa using reachable_frames h
  have hsame := sameWithin_define (s := frames) hother "n" 3
  have hnone : ∀ v ∈ ([] : List CellId), frames.Present (.cell v) := nofun
  obtain ⟨-, hlexical⟩ := closures_lexically_scoped {}
  obtain ⟨R, hparallel, -, hresult⟩ :=
    hlexical frames _ 4 reader 0 [] 1 [] built_frames rfl rfl hnone hsame 1 1 1 #[]
  have hvalue : (called frames).1 = .ok 2 := rfl
  refine ⟨built_frames, hsame, hvalue, ?_⟩
  change SameResult R.cell (called frames).1 (called (frames.define 1 "n" 3)).1 at hresult
  rw [hvalue] at hresult
  generalize (called (frames.define 1 "n" 3)).1 = result at hresult ⊢
  cases hresult with
  | ok value =>
    -- The captured value was there before, so it stands for itself.
    rcases hparallel.new value with ⟨-, heq⟩ | ⟨hnew, -⟩
    · rw [Item.cell.inj heq]
    · cases hnew

end LittleLisp
