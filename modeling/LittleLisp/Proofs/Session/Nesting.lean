import LittleLisp.Proofs.Evaluator.Parts
import LittleLisp.Proofs.Session.CodeAndData
import LittleLisp.Proofs.Session.Safety
import LittleLisp.Proofs.Store.Structure

/-!
How deep evaluation nests. The calls that are active at one time, from an expression that was read
down to one of its parts, follow the nesting of the expression, as long as they enter no closure:
the lists of code that they walk through stay as they were read, whatever is pushed meanwhile. So a
budget of as many nested calls as the expression has levels is never exhausted.
-/

namespace LittleLisp

open EvalM Store

namespace Datum

mutual

/-- The levels of an expression. What is quoted is not evaluated and has no levels of its own. -/
def nesting : Datum → Nat
  | .list ds => itemsNesting ds + 1
  | _ => 1

def itemsNesting : List Datum → Nat
  | [] => 0
  | d :: ds => max (nesting d) (itemsNesting ds)

end

theorem nesting_pos (d : Datum) : 0 < d.nesting := by
  cases d <;> exact Nat.succ_pos _

theorem nesting_le {d : Datum} {ds : List Datum} (h : d ∈ ds) : d.nesting ≤ itemsNesting ds := by
  induction ds with
  | nil => cases h
  | cons d' ds ih =>
    rw [itemsNesting]
    rcases List.mem_cons.1 h with rfl | h
    · exact Nat.le_max_left _ _
    · exact Nat.le_trans (ih h) (Nat.le_max_right _ _)

end Datum

theorem mem_onSuccess {α β : Type} {r : Except Fault α × Machine} {next : α → Machine → List β}
    {b : β} (h : b ∈ onSuccess r next) : ∃ a m, r = (.ok a, m) ∧ b ∈ next a m := by
  rcases r with ⟨f | a, m⟩
  · cases h
  · exact ⟨a, m, rfl, h⟩

theorem cell_mem_of_inTurn {eval : Evaluate} {e : ScopeId} {cs : List CellId} {m : Machine}
    {p : Call} (h : p ∈ inTurn eval e cs m) : p.cell ∈ cs := by
  induction cs generalizing m with
  | nil => cases h
  | cons c cs ih =>
    rcases List.mem_cons.1 h with rfl | h
    · exact List.mem_cons_self
    · obtain ⟨_, m', -, h⟩ := mem_onSuccess h
      exact List.mem_cons_of_mem c (ih h)

theorem cell_mem_of_dispatchParts {eval : Evaluate} {e : ScopeId} {head : CellId}
    {args : List CellId} {m : Machine} {p : Call} (h : p ∈ dispatchParts eval e head args m) :
    p.cell ∈ head :: args := by
  rcases List.mem_cons.1 h with rfl | h
  · exact List.mem_cons_self
  · obtain ⟨f, m', -, h⟩ := mem_onSuccess h
    split at h
    case h_1 fn _ =>
      split at h
      · exact List.mem_cons_of_mem head (cell_mem_of_inTurn h)
      · cases h
    case h_2 => cases h

/-- A form evaluates some of its arguments and nothing else. -/
theorem SpecialForm.cell_mem_of_parts {op : SpecialForm} {eval : Evaluate} {e : ScopeId}
    {args : List CellId} {m : Machine} {p : Call} (h : p ∈ op.parts eval e args m) :
    p.cell ∈ args := by
  unfold parts at h
  split at h
  case h_1 =>
    split at h
    case h_1 =>
      rw [List.mem_singleton.1 h]
      simp
    case h_2 => cases h
  case h_2 => exact cell_mem_of_inTurn h
  case h_3 =>
    rcases List.mem_cons.1 h with rfl | h
    · exact List.mem_cons_self
    · obtain ⟨c, m', -, h⟩ := mem_onSuccess h
      split at h
      case h_1 flag _ =>
        rw [List.mem_singleton.1 h]
        cases flag <;> simp
      case h_2 => cases h
  case h_4 => cases h

namespace Call

variable {cfg : Settings} {depth budget : Nat} {q p p' : Call} {ps : List Call}

/-- In the evaluation of `p` a closure is entered, and its body is evaluated by the call `p'`. -/
def Enters (cfg : Settings) (depth : Nat) (p p' : Call) : Prop :=
  ∃ fn args m captured params body, p.Applies cfg depth fn args m ∧
    fn.executor = .closure captured params body ∧
    p' ∈ fn.parts (evalDepth cfg depth) p.scope args (entering cfg fn args m)

/-- Calls that are active at the same time in the evaluation of `q` with a given budget, the
innermost first and with the budget that is left to it. None of them evaluates the body of a
closure. -/
inductive Stacked (cfg : Settings) (budget : Nat) (q : Call) : Nat → List Call → Prop
  | self : Stacked cfg budget q budget [q]
  | part {depth : Nat} {p p' : Call} {ps : List Call}
      (outer : Stacked cfg budget q (depth + 1) (p :: ps))
      (makes : p.Makes cfg (evalDepth cfg depth) p') (body : ¬ p.Enters cfg depth p') :
      Stacked cfg budget q depth (p' :: p :: ps)

theorem Stacked.depth_add_length (h : Stacked cfg budget q depth ps) :
    depth + ps.length = budget + 1 := by
  induction h with
  | self => rfl
  | part _ _ _ ih =>
    rw [List.length_cons]
    omega

theorem Stacked.outermost (h : Stacked cfg budget q depth [p]) : p = q ∧ depth = budget := by
  cases h
  exact ⟨rfl, rfl⟩

theorem Applies.args_eq {fn : FunctionValue} {args rest : List CellId} {m : Machine} {l : HandleId}
    {head : CellId} (h : p.Applies cfg depth fn args m) (hk : fn.kind ≠ .normal)
    (hl : p.machine.store.cell p.cell = .list l) (hi : p.machine.store.items l = head :: rest) :
    args = rest := by
  obtain ⟨_, _, _, _, _, hl', hi', -, -, hargs⟩ := h
  cases hl.symm.trans hl'
  cases hi.symm.trans hi'
  rw [if_neg hk] at hargs
  cases hargs
  rfl

theorem Makes.item {D : Discipline} (hp : D.Admits p) (h : p.Makes cfg (evalDepth cfg depth) p')
    (hbody : ¬ p.Enters cfg depth p') :
    ∃ l, p.machine.store.cell p.cell = .list l ∧ p'.cell ∈ p.machine.store.items l := by
  have hmem := (mem_parts_iff cfg depth p p').2 h
  unfold parts at hmem
  split at hmem
  case h_2 => cases hmem
  case h_1 l hl =>
    refine ⟨l, hl, ?_⟩
    split at hmem
    case h_2 => cases hmem
    case h_1 head rest hi =>
      rw [hi]
      rcases List.mem_append.1 hmem with hmem | hmem
      · exact cell_mem_of_dispatchParts hmem
      · obtain ⟨⟨fn, args⟩, m, hrun, hmem⟩ := mem_onSuccess hmem
        have happlies : p.Applies cfg depth fn args m := (applies_iff hl hi).2 hrun
        have hcallable := (hp.applies happlies).2.1
        rcases hfn : fn.executor with (op | op | op) | ⟨captured, params, body⟩
        · simp only [FunctionValue.parts, hfn] at hmem
          cases hmem
        · simp only [FunctionValue.Callable, hfn] at hcallable
          simp only [FunctionValue.parts, hfn] at hmem
          rw [happlies.args_eq hcallable hl hi] at hmem
          exact List.mem_cons_of_mem head (SpecialForm.cell_mem_of_parts hmem)
        · -- A discipline admits no function of the host.
          simp only [FunctionValue.Callable, hfn] at hcallable
        · exact absurd ⟨fn, args, m, captured, params, body, happlies, hfn, hmem⟩ hbody

/-- A call that evaluates a part of the code of `q`, and the datum that this part was read from. -/
structure Walks (es : List Call) (q : Call) (d : Datum) (p : Call) : Prop where
  admits : ((codeOf es).discipline q.machine.store).Admits p
  bare : Bare q.machine.store q.cell p.cell
  holds : q.machine.store.Holds d p.cell

section Walks

variable {es : List Call} {d : Datum} (hparsed : Parsed es q.machine.store) (hq : q ∈ es)
  (hskeleton : ∀ x, q.Skeleton x ↔ Bare q.machine.store q.cell x)
include hparsed hq hskeleton

theorem Walks.part (h : Walks es q d p) (makes : p.Makes cfg (evalDepth cfg depth) p')
    (body : ¬ p.Enters cfg depth p') : ∃ d', Walks es q d' p' ∧ d'.nesting < d.nesting := by
  obtain ⟨l, hl, hmem⟩ := makes.item h.admits body
  have hguarded := h.admits.inv
  have hgrows {x : Cell} (hx : q.machine.store.cell p.cell = x) (hne : x ≠ .absent) :
      p.machine.store.cell p.cell = x := hguarded.intact.grows.cell_eq_of_ne_absent hx hne
  have hholds := h.holds
  cases d with
  | list ds =>
    obtain ⟨l', hl', hitems⟩ := hholds
    obtain ⟨hcell, -, -, hsame⟩ := (hparsed.guarded hguarded).unchanged q hq p.cell l'
      ((hskeleton _).2 h.bare) hl'
    cases hl.symm.trans hcell
    rw [hsame] at hmem
    obtain ⟨d', hd', hholds'⟩ := exists_holds_of_mem hitems hmem
    refine ⟨d', ⟨h.admits.makes makes, h.bare.item hl' hmem, hholds'⟩, ?_⟩
    exact Nat.lt_succ_of_le (Datum.nesting_le hd')
  | quoted =>
    obtain ⟨i, hi, -⟩ := hholds
    cases hl.symm.trans (hgrows hi (by simp))
  | atom | number | str | bool =>
    cases hl.symm.trans (hgrows hholds (by simp))
  | mark => exact hholds.elim

/-- The calls on the stack and the levels that are left to the innermost are together no more than
the levels of the whole. -/
theorem Stacked.walks (hself : Walks es q d q) (h : Stacked cfg budget q depth ps) :
    ∃ p rest d', ps = p :: rest ∧ Walks es q d' p ∧ rest.length + d'.nesting ≤ d.nesting := by
  induction h with
  | self => exact ⟨q, [], d, rfl, hself, Nat.le_of_eq (Nat.zero_add _)⟩
  | @part _ p p' ps _ makes body ih =>
    obtain ⟨_, _, d', ⟨⟩, hwalks, hle⟩ := ih
    obtain ⟨d'', hwalks', hlt⟩ := hwalks.part hparsed hq hskeleton makes body
    refine ⟨p', p :: ps, d'', rfl, hwalks', ?_⟩
    rw [List.length_cons]
    omega

/-- Within as many calls as there are levels, only a comparison is too deep. -/
theorem Walks.exhausted (h : Walks es q d p) (hstack : Stacked cfg budget q depth (p :: ps))
    (hdepth : d.nesting ≤ depth)
    (hopen : ∀ depth p ps p', Stacked cfg budget q (depth + 1) (p :: ps) → ¬ p.Enters cfg depth p')
    (hrun : (p.run (evalDepth cfg depth)).1 = .error .tooDeep) :
    ∃ depth p ps fn args m, Stacked cfg budget q (depth + 1) (p :: ps) ∧
      p.Applies cfg depth fn args m ∧ fn.Exhausts cfg args m.store := by
  induction depth generalizing p ps d with
  | zero => exact absurd hdepth (Nat.not_le.2 d.nesting_pos)
  | succ depth ih =>
    obtain ⟨-, ⟨p', hlast, hfails⟩ | ⟨hdeep, -⟩⟩ := (performs cfg depth p).fault (Prod.ext hrun rfl)
    · have makes := (mem_parts_iff cfg depth p p').1 (List.mem_of_getLast? hlast)
      have body := hopen depth p ps p' hstack
      obtain ⟨d', hwalks, hlt⟩ := h.part hparsed hq hskeleton makes body
      exact ih hwalks (.part hstack makes body) (by omega) (by rw [hfails])
    · obtain ⟨fn, args, m, happlies, hexhausts⟩ := hdeep rfl
      exact ⟨depth, p, ps, fn, args, m, hstack, happlies, hexhausts⟩

end Walks

end Call

/-- The nesting of an expression bounds the nesting of its evaluation. At any moment of a session
let an expression be read and evaluated, in any scope and within any budget. The calls that are
active at one time are no more than the expression has levels, unless one of them evaluates the body
of a closure. If no closure is entered and the budget is at least the number of levels, evaluation
ends in a value or in a documented fault; it is too deep only where a comparison exceeds its own
budget, which takes two endless lists if that budget is larger than the store. -/
theorem nesting_bounds_evaluation {cfg : Settings} {es : List Call} {s : Store}
    (hs : Session.Moment cfg es s) {c : Command} {d : Datum} (hd : d ∈ c.data) (e : ScopeId)
    (trace : Array Event) (budget : Nat) :
    let q := Call.ofDatum e ⟨s, trace⟩ d
    let outcome := (q.run (evalDepth cfg budget)).1
    (∀ depth ps, q.Stacked cfg budget depth ps → ps.length ≤ d.nesting) ∧
    (d.nesting ≤ budget →
      (∀ depth p ps p', q.Stacked cfg budget (depth + 1) (p :: ps) → ¬ p.Enters cfg depth p') →
      (∃ v, outcome = .ok v) ∨
      (∃ f, outcome = .error f ∧ f.Documented ∧ f ≠ .tooDeep) ∨
      outcome = .error .tooDeep ∧ ∃ depth p ps fn a b m,
        q.Stacked cfg budget (depth + 1) (p :: ps) ∧ p.Applies cfg depth fn [a, b] m ∧
        fn.executor = .operator (.builtin .eq) ∧ m.store.same? cfg.compareDepth a b = none ∧
        (m.store.cells.size < cfg.compareDepth → m.store.Endless a ∧ m.store.Endless b)) := by
  intro q outcome
  have hstorable := c.storable_data d hd
  have hadded : Added s q :=
    added_ofDatum hstorable e (show (⟨s, trace⟩ : Machine).store.WellLinked from
      hs.parsed.separates.linked)
  have hparsed : Parsed (es ++ [q]) q.machine.store := hs.parsed.add hadded
  have hq : q ∈ es ++ [q] := List.mem_append_right es (List.mem_singleton_self q)
  have hskeleton := fun x ↦ hadded.skeleton_iff (x := x)
  have hadmits := hparsed.admits hq
  have hwalks : Call.Walks (es ++ [q]) q d q :=
    ⟨hadmits, .self, holds_of_stored (Datum.storesWell hstorable s).2⟩
  refine ⟨fun depth ps hstacked ↦ ?_, fun hbudget hopen ↦ ?_⟩
  · obtain ⟨p, rest, d', rfl, -, hle⟩ := hstacked.walks hparsed hq hskeleton hwalks
    have hpos := d'.nesting_pos
    rw [List.length_cons]
    omega
  · cases hrun : outcome with
    | ok v => exact .inl ⟨v, rfl⟩
    | error f =>
      refine .inr ?_
      have hordinary := (hadmits.follows cfg budget).fault hrun
      by_cases hf : f = .tooDeep
      · subst hf
        obtain ⟨depth, p, ps, fn, _, m, hstacked, happlies, heq, a, b, rfl, hnone⟩ :=
          hwalks.exhausted hparsed hq hskeleton .self hbudget hopen hrun
        exact .inr ⟨rfl, depth, p, ps, fn, a, b, m, hstacked, happlies, heq, hnone,
          fun hsize ↦ endless_of_same? hsize hnone⟩
      · exact .inl ⟨f, rfl, Fault.documented_of_ordinary hordinary, hf⟩

namespace Session

theorem applies_quotedPush {depth : Nat} {p : Call} {ps : List Call} {fn : FunctionValue}
    {args : List CellId} {m : Machine}
    (hstacked : quotedPush.Stacked shallow 2 (depth + 1) (p :: ps))
    (h : p.Applies shallow depth fn args m) : fn.executor = .operator (.builtin .push) := by
  have hlength := hstacked.depth_add_length
  rw [List.length_cons] at hlength
  cases depth with
  | zero =>
    -- A call that has no budget left for its head applies nothing.
    obtain ⟨_, _, _, _, _, -, -, hhead, -⟩ := h
    cases hhead
  | succ depth =>
    obtain rfl : ps = [] := List.eq_nil_of_length_eq_zero (by omega)
    obtain ⟨rfl, hdepth⟩ := hstacked.outermost
    obtain rfl : depth = 0 := by omega
    obtain ⟨fn', _, happlies, hpush, -⟩ := pushes_quotedPush
    have hsame := ((applies_iff cell_quotedPush items_quotedPush).1 h).symm.trans
      ((applies_iff cell_quotedPush items_quotedPush).1 happlies)
    cases hsame
    exact hpush

theorem nesting_bounds_quotedPush :
    quotedPush.Stacked shallow 2 1 [⟨15, 0, quotedPush.machine⟩, quotedPush] ∧
      (∀ depth ps, quotedPush.Stacked shallow 2 depth ps → ps.length ≤ 2) ∧
      (∀ depth p ps p', quotedPush.Stacked shallow 2 (depth + 1) (p :: ps) →
        ¬ p.Enters shallow depth p') ∧
      (quotedPush.run (evalDepth shallow 2)).1 ≠ .error .tooDeep := by
  have hdata : (Command.eval "(push #t \x27(#f))").data =
      [.list [.atom "push", .bool true, .quoted (.list [.bool false])]] := rfl
  have hs : Moment shallow [] start.store := .between .start
  obtain ⟨hlength, houtcome⟩ :=
    nesting_bounds_evaluation hs (hdata ▸ List.mem_singleton_self _) 0 #[] 2
  have hopen : ∀ depth p ps p', quotedPush.Stacked shallow 2 (depth + 1) (p :: ps) →
      ¬ p.Enters shallow depth p' := by
    rintro depth p ps p' hstacked ⟨fn, args, m, captured, params, body, happlies, hfn, -⟩
    cases hfn.symm.trans (applies_quotedPush hstacked happlies)
  refine ⟨.part .self (Call.makes_head shallow _ cell_quotedPush items_quotedPush)
    (hopen 1 _ _ _ .self), hlength, hopen, fun hdeep ↦ ?_⟩
  rcases houtcome (by decide) hopen with ⟨v, hv⟩ | ⟨f, hf, -, hne⟩ | ⟨-, happlied⟩
  · cases hv.symm.trans hdeep
  · cases hf.symm.trans hdeep
    exact hne rfl
  · obtain ⟨depth, p, ps, fn, a, b, m, hstacked, happlies, heq, -⟩ := happlied
    cases heq.symm.trans (applies_quotedPush hstacked happlies)

end Session

end LittleLisp
