import LittleLisp.Proofs.Evaluator.Calls

/-!
Effects of evaluation that need no invariant. An effect relates the store before and after an
evaluation in a scope; it is closed under sequences and allows every operation on the store, where
definitions are made in the current scope only. The evaluator has every effect, at every depth, on
every store and whatever the outcome, and so have the stretches before and after each call that it
makes.
-/

namespace LittleLisp

open EvalM

/-- What evaluation in a scope may do to a store. -/
structure Effect where
  rel : ScopeId → Store → Store → Prop
  refl (e : ScopeId) (s : Store) : rel e s s
  trans {e : ScopeId} {s s' s'' : Store} : rel e s s' → rel e s' s'' → rel e s s''
  scopes_le {e : ScopeId} {s s' : Store} : rel e s s' → s.scopes.size ≤ s'.scopes.size
  -- What happens in a scope that is new may happen outside of it.
  inner {e frame : ScopeId} {s s' s'' : Store} :
    rel e s s' → s.scopes.size ≤ frame → rel frame s' s'' → rel e s s''
  addCell (e : ScopeId) (s : Store) (x : Cell) : rel e s (s.addCell x).2
  addList (e : ScopeId) (s : Store) (vs : List CellId) : rel e s (s.addList vs).2
  addRest {s : Store} {h : HandleId} {v : CellId} {n : NodeId} (e : ScopeId) :
    s.split? h = some (v, some n) → rel e s (s.addListFrom (some n)).2
  push (e : ScopeId) (s : Store) (h : HandleId) (v : CellId) : rel e s (s.push h v)
  addScope (e : ScopeId) (s : Store) (outer : Option ScopeId) : rel e s (s.addScope outer).2
  define (e : ScopeId) (s : Store) (n : Text) (v : CellId) : rel e s (s.define e n v)

namespace Effect

variable {T : Effect} {α β : Type} {p : Call} {after : Store} {e : ScopeId} {m : Machine}
  {x x' : EvalM α}

theorem bind {f : α → EvalM β} (hx : T.rel e m.store (x.execute m).2.store)
    (hf : ∀ a m', x.execute m = (.ok a, m') → T.rel e m'.store ((f a).execute m').2.store) :
    T.rel e m.store ((x >>= f).execute m).2.store := by
  rcases hrun : x.execute m with ⟨fault | a, m'⟩ <;> rw [hrun] at hx
  · rwa [execute_bind_error hrun]
  · rw [execute_bind_ok hrun]
    exact T.trans hx (hf a m' hrun)

/-- A call is made on the way from `s` to `s'`, during an evaluation in the scope `e`: its scope is
`e` or was made on the way. -/
structure Visits (T : Effect) (p : Call) (after : Store) (e : ScopeId) (s s' : Store) : Prop where
  before : T.rel e s p.machine.store
  rest : T.rel e after s'
  scope : p.scope = e ∨ s.scopes.size ≤ p.scope ∧ p.scope < p.machine.store.scopes.size

/-- From `m`, `x` has the effect, and unless `x'` does the same as `x` the call `p` is made, which
leaves the store `after`. -/
structure Tracks (T : Effect) (p : Call) (after : Store) (e : ScopeId) (m : Machine)
    (x x' : EvalM α) : Prop where
  effect : T.rel e m.store (x.execute m).2.store
  visits : x'.execute m = x.execute m ∨ T.Visits p after e m.store (x.execute m).2.store

namespace Tracks

theorem same (h : T.rel e m.store (x.execute m).2.store) : T.Tracks p after e m x x :=
  ⟨h, .inl rfl⟩

theorem still (h : (x.execute m).2 = m) : T.Tracks p after e m x x := by
  refine same ?_
  rw [h]
  exact T.refl e _

theorem change {f : Store → α × Store} (h : T.rel e m.store (f m.store).2) :
    T.Tracks p after e m (change f) (change f) :=
  same h

theorem bind {f f' : α → EvalM β} (hx : T.Tracks p after e m x x')
    (hf : ∀ a m', x.execute m = (.ok a, m') → T.Tracks p after e m' (f a) (f' a)) :
    T.Tracks p after e m (x >>= f) (x' >>= f') := by
  refine ⟨Effect.bind hx.effect fun a m' hrun ↦ (hf a m' hrun).effect, ?_⟩
  obtain ⟨heffect, hvisits⟩ := hx
  rcases hrun : x.execute m with ⟨fault | a, m'⟩ <;> rw [hrun] at heffect hvisits
  · rw [execute_bind_error hrun]
    exact hvisits.imp_left execute_bind_error
  · have hnext := hf a m' hrun
    rw [execute_bind_ok hrun]
    rcases hvisits with hsame | ⟨hbefore, hrest, hscope⟩
    · rw [execute_bind_ok hsame]
      refine hnext.visits.imp_right fun ⟨hbefore, hrest, hscope⟩ ↦ ?_
      refine ⟨T.trans heffect hbefore, hrest, hscope.imp_right fun hnew ↦ ?_⟩
      exact ⟨Nat.le_trans (T.scopes_le heffect) hnew.1, hnew.2⟩
    · exact .inr ⟨hbefore, T.trans hrest hnext.effect, hscope⟩

theorem reads {a : α} {f f' : α → EvalM β} (hx : x.execute m = (.ok a, m))
    (hf : T.Tracks p after e m (f a) (f' a)) : T.Tracks p after e m (x >>= f) (x >>= f') := by
  refine (still (by rw [hx])).bind ?_
  intro b m' hb
  rw [hx] at hb
  cases hb
  exact hf

theorem ite_bind {c : Prop} [Decidable c] {y y' : EvalM α} {f f' : α → EvalM β}
    (h : T.Tracks p after e m ((if c then x else y) >>= f) ((if c then x' else y') >>= f')) :
    T.Tracks p after e m (if c then x >>= f else y >>= f) (if c then x' >>= f' else y' >>= f') := by
  by_cases hc : c
  · simpa only [hc, if_true] using h
  · simpa only [hc, if_false] using h

theorem traceEvent (cfg : Settings) {event : EvalM Event} {f f' : Unit → EvalM β} {v : Event}
    (h : event.execute m = (.ok v, m))
    (hf : ∀ trace, T.Tracks p after e { m with trace := trace } (f ()) (f' ())) :
    T.Tracks p after e m (traceEvent cfg event >>= f) (traceEvent cfg event >>= f') := by
  obtain ⟨trace, ht⟩ := execute_traceEvent cfg h
  refine (same ?_).bind ?_
  · rw [ht]
    exact T.refl e _
  · intro _ m' hm
    rw [ht] at hm
    cases hm
    exact hf trace

end Tracks

section Builtins

theorem listOperand_still (op : Builtin) (l : CellId) : ((op.listOperand l).execute m).2 = m := by
  rw [Builtin.listOperand, execute_bind_ok (execute_cell l)]
  split <;> rfl

theorem tracks_cdr (args : List CellId) :
    T.Tracks p after e m (Builtin.applyCdr args) (Builtin.applyCdr args) := by
  rw [Builtin.applyCdr.eq_def]
  split
  case h_1 l =>
    refine (Tracks.still (listOperand_still .cdr l)).bind ?_
    intro h m' _
    refine .reads execute_getStore ?_
    split
    case h_1 v n hsplit => exact .change (T.addRest e hsplit)
    case h_2 => exact .change (T.addList e m'.store [])
  case h_2 => exact .still rfl

theorem tracks_builtin (op : Builtin) (compareDepth : Nat) (args : List CellId) :
    T.Tracks p after e m (op.apply compareDepth args) (op.apply compareDepth args) := by
  have hnumber : ∀ (y : Binary64) (m : Machine),
      T.Tracks p after e m (Builtin.number y) (Builtin.number y) := by
    intro y m
    exact .change (T.addCell e m.store _)
  cases op with
  | add | mul =>
    refine (Tracks.still (Discipline.numbers_still _ args).machine).bind ?_
    intro xs m' _
    exact hnumber _ m'
  | sub | div =>
    refine (Tracks.still (Discipline.numbers_still _ args).machine).bind ?_
    intro xs m' _
    cases xs with
    | nil => exact .still rfl
    | cons y ys => exact hnumber _ m'
  | list => exact .change (T.addList e m.store args)
  | push =>
    simp only [Builtin.apply]
    rw [Builtin.applyPush.eq_def]
    split
    case h_1 v l =>
      refine (Tracks.still (listOperand_still .push l)).bind ?_
      intro h m' _
      exact .change (T.push e m'.store h v)
    case h_2 => exact .still rfl
  | car =>
    simp only [Builtin.apply]
    rw [Builtin.applyCar.eq_def]
    split
    case h_1 l =>
      refine (Tracks.still (listOperand_still .car l)).bind ?_
      intro h m' _
      refine .reads execute_getStore ?_
      split
      · exact .still rfl
      · exact .change (T.addList e m'.store [])
    case h_2 => exact .still rfl
  | cdr => exact tracks_cdr args
  | eq =>
    simp only [Builtin.apply]
    rw [Builtin.applyEq.eq_def]
    split
    case h_1 a b =>
      refine .reads execute_getStore ?_
      split
      · exact .change (T.addCell e m.store _)
      · exact .still rfl
    case h_2 => exact .still rfl

end Builtins

def Sound (T : Effect) (eval : Evaluate) : Prop :=
  ∀ q : Call, T.rel q.scope q.machine.store (q.run eval).2.store

def AgreeOff (p : Call) (eval eval' : Evaluate) : Prop := ∀ q ≠ p, q.run eval' = q.run eval

section Evaluation

variable {eval eval' : Evaluate} {args : List CellId} (hT : T.Sound eval)
  (hp : AgreeOff p eval eval')
include hT hp

theorem tracks_eval (c : CellId) :
    T.Tracks p (p.run eval).2.store e m (eval c e) (eval' c e) := by
  refine ⟨hT ⟨c, e, m⟩, ?_⟩
  by_cases hq : (⟨c, e, m⟩ : Call) = p
  · subst hq
    exact .inr ⟨T.refl e _, T.refl e _, .inl rfl⟩
  · exact .inl (hp _ hq)

theorem tracks_sequenceFrom (c : CellId) : T.Tracks p (p.run eval).2.store e m
    (SpecialForm.sequenceFrom eval e c args) (SpecialForm.sequenceFrom eval' e c args) := by
  induction args generalizing c m with
  | nil => exact tracks_eval hT hp c
  | cons a args ih =>
    refine (tracks_eval hT hp c).bind ?_
    intro _ m' _
    exact ih a

theorem tracks_form (op : SpecialForm) :
    T.Tracks p (p.run eval).2.store e m (op.apply eval e args) (op.apply eval' e args) := by
  have hsymbol : ∀ (form : SpecialForm) (c : CellId), ((form.symbol c).execute m).2 = m := by
    intro form c
    rw [SpecialForm.symbol, execute_bind_ok (execute_cell c)]
    split <;> rfl
  cases op with
  | define =>
    simp only [SpecialForm.apply]
    rw [SpecialForm.applyDefine.eq_def, SpecialForm.applyDefine.eq_def]
    split
    case h_1 name expr =>
      refine (Tracks.still (hsymbol .define name)).bind ?_
      intro n m₁ _
      refine (tracks_eval hT hp expr).bind ?_
      intro v m₂ _
      exact .change (T.define e m₂.store n v)
    case h_2 => exact .still rfl
  | defineFunction =>
    simp only [SpecialForm.apply]
    rw [SpecialForm.applyDefineFunction.eq_def]
    split
    case h_1 name params body =>
      refine (Tracks.still (hsymbol .defineFunction name)).bind ?_
      intro n m₁ _
      refine (Tracks.still (Discipline.parameters_still .defineFunction params).machine).bind ?_
      intro ps m₂ _
      refine (Tracks.change (T.addCell e m₂.store _)).bind ?_
      intro fn m₃ _
      exact .change (T.define e m₃.store n fn)
    case h_2 => exact .still rfl
  | sequence =>
    cases args with
    | nil => exact .still rfl
    | cons c cs => exact tracks_sequenceFrom hT hp c
  | branch =>
    simp only [SpecialForm.apply]
    rw [SpecialForm.applyBranch.eq_def, SpecialForm.applyBranch.eq_def]
    split
    case h_1 condition yes no =>
      refine (tracks_eval hT hp condition).bind ?_
      intro c m' _
      refine .reads (execute_cell c) ?_
      split
      · exact tracks_eval hT hp yes
      · exact tracks_eval hT hp no
      · exact .still rfl
    case h_2 => exact .still rfl
  | lambda =>
    simp only [SpecialForm.apply]
    rw [SpecialForm.applyLambda.eq_def]
    split
    case h_1 params body =>
      refine (Tracks.still (Discipline.parameters_still .lambda params).machine).bind ?_
      intro ps m₁ _
      refine (Tracks.change (T.addScope e m₁.store _)).bind ?_
      intro captured m₂ _
      exact .change (T.addCell e m₂.store _)
    case h_2 => exact .still rfl

theorem tracks_host (op : HostOperation) :
    T.Tracks p (p.run eval).2.store e m (op.apply eval e args) (op.apply eval' e args) := by
  cases op with
  | collect => exact .change (T.addList e m.store args)
  | first =>
    simp only [HostOperation.apply]
    split <;> exact .still rfl
  | evaluateLast =>
    simp only [HostOperation.apply]
    split
    · exact tracks_eval hT hp _
    · exact .still rfl
  | count => exact .change (T.addCell e m.store _)

omit hT hp in
theorem defineAll (frame : ScopeId) (bound : List (Text × CellId)) (s : Store) :
    T.rel frame s (bound.foldl (fun s b ↦ s.define frame b.1 b.2) s) := by
  induction bound generalizing s with
  | nil => exact T.refl frame s
  | cons b bound ih => exact T.trans (T.define frame s b.1 b.2) (ih _)

omit hT hp in
theorem addFrame (captured : ScopeId) (bound : List (Text × CellId)) (s : Store) :
    T.rel e s (s.addFrame captured bound).2 :=
  T.inner (T.addScope e s (some captured)) (Nat.le_refl _) (defineAll _ bound _)

theorem tracks_body (captured : ScopeId) (params : List Text) (body : CellId) :
    T.Tracks p (p.run eval).2.store e m (bindArguments captured params args >>= eval body)
      (bindArguments captured params args >>= eval' body) := by
  by_cases hlen : params.length = args.length
  · obtain ⟨frame, s', hframe⟩ : ∃ frame s', m.store.addFrame captured (params.zip args) =
      (frame, s') := ⟨_, _, rfl⟩
    have hbind : (bindArguments captured params args).execute m =
        (.ok frame, { m with store := s' }) := by
      rw [bindArguments, if_pos hlen, execute_change, hframe]
    have hfresh : frame = m.store.scopes.size := congrArg Prod.fst hframe.symm
    have hbefore : T.rel e m.store s' := by
      have h := addFrame (T := T) (e := e) captured (params.zip args) m.store
      rwa [hframe] at h
    have halloc : frame < s'.scopes.size := by
      have hsize := T.scopes_le (defineAll (T := T) frame (params.zip args)
        (m.store.addScope (some captured)).2)
      have hs' : s' = (m.store.addFrame captured (params.zip args)).2 := by rw [hframe]
      rw [hs', hfresh]
      rw [hfresh] at hsize
      exact Nat.lt_of_lt_of_le (Nat.lt_of_lt_of_eq (Nat.lt_succ_self _) (Array.size_push _).symm)
        hsize
    refine ⟨?_, ?_⟩
    · rw [execute_bind_ok hbind]
      exact T.inner hbefore (Nat.le_of_eq hfresh.symm) (hT ⟨body, frame, { m with store := s' }⟩)
    · rw [execute_bind_ok hbind, execute_bind_ok hbind]
      by_cases hq : (⟨body, frame, { m with store := s' }⟩ : Call) = p
      · subst hq
        exact .inr ⟨hbefore, T.refl e _, .inr ⟨Nat.le_of_eq hfresh.symm, halloc⟩⟩
      · exact .inl (hp _ hq)
  · have hfail : ∀ f : ScopeId → EvalM CellId,
        (bindArguments captured params args >>= f).execute m =
          (.error (.argumentCount params args.length), m) := by
      intro f
      refine execute_bind_error ?_
      rw [bindArguments, if_neg hlen]
      rfl
    refine ⟨?_, .inl ?_⟩
    · rw [hfail]
      exact T.refl e _
    · rw [hfail, hfail]

theorem tracks_invoke (cfg : Settings) (fn : FunctionValue) :
    T.Tracks p (p.run eval).2.store e m (invoke cfg eval fn e args)
      (invoke cfg eval' fn e args) := by
  unfold invoke
  split
  case h_1 op _ => exact tracks_builtin op cfg.compareDepth args
  case h_2 op _ => exact tracks_form hT hp op
  case h_3 op _ => exact tracks_host hT hp op
  case h_4 captured params body _ => exact tracks_body hT hp captured params body

theorem tracks_evalEach : T.Tracks p (p.run eval).2.store e m (evalEach eval e args)
    (evalEach eval' e args) := by
  induction args generalizing m with
  | nil => exact .still rfl
  | cons c cs ih =>
    refine (tracks_eval hT hp c).bind ?_
    intro v m₁ _
    refine ih.bind ?_
    intro vs m₂ _
    exact .still rfl

theorem tracks_call (cfg : Settings) (head : CellId) : T.Tracks p (p.run eval).2.store e m
    (evalCall cfg eval e head args) (evalCall cfg eval' e head args) := by
  refine (tracks_eval hT hp head).bind ?_
  intro f m₁ _
  refine .reads (execute_cell f) ?_
  split
  case h_1 fn _ =>
    have harguments : T.Tracks p (p.run eval).2.store e m₁
        (if fn.kind = .normal then evalEach eval e args else pure args)
        (if fn.kind = .normal then evalEach eval' e args else pure args) := by
      by_cases hk : fn.kind = .normal
      · rw [if_pos hk, if_pos hk]
        exact tracks_evalEach hT hp
      · rw [if_neg hk, if_neg hk]
        exact .still rfl
    refine .ite_bind (harguments.bind ?_)
    intro vs m₂ _
    refine .traceEvent cfg (execute_pure _) ?_
    intro trace
    refine (tracks_invoke hT hp cfg fn).bind ?_
    intro v m₃ _
    refine .traceEvent cfg (execute_bind_ok (execute_snapshot v)) ?_
    intro trace
    exact .still rfl
  case h_2 => exact .still rfl

theorem tracks_evalStep (cfg : Settings) (c : CellId) : T.Tracks p (p.run eval).2.store e m
    (evalStep cfg eval c e) (evalStep cfg eval' c e) := by
  refine .reads (execute_cell c) ?_
  split
  case h_1 name _ =>
    refine .traceEvent cfg (execute_pure _) ?_
    intro trace
    refine .reads execute_getStore ?_
    split <;> exact .still rfl
  case h_7 h _ =>
    refine .reads (execute_items h) ?_
    split
    · exact .still rfl
    · exact tracks_call hT hp cfg _
  all_goals exact .still rfl

end Evaluation

variable (T)

theorem sound_evalDepth (cfg : Settings) (depth : Nat) : T.Sound (evalDepth cfg depth) := by
  induction depth with
  | zero =>
    intro q
    exact T.refl q.scope _
  | succ depth ih =>
    intro q
    have hsame : AgreeOff q (evalDepth cfg depth) (evalDepth cfg depth) := fun _ _ ↦ rfl
    exact (tracks_evalStep ih hsame cfg q.cell).effect

theorem visits_makes {cfg : Settings} {depth : Nat} {q p : Call}
    (h : q.Makes cfg (evalDepth cfg depth) p) :
    T.Visits p (p.run (evalDepth cfg depth)).2.store q.scope q.machine.store
      (q.run (evalDepth cfg (depth + 1))).2.store := by
  obtain ⟨eval', hagree, hne⟩ := h
  exact (tracks_evalStep (T.sound_evalDepth cfg depth) hagree cfg q.cell).visits.resolve_left hne

/-- What follows from the effect in any scope holds of the stretches before and after every call of
an evaluation, at every depth. -/
theorem stretches_hands {P : Store → Store → Prop} (hrefl : ∀ s, P s s)
    (htrans : ∀ {s s' s''}, P s s' → P s' s'' → P s s'')
    (hP : ∀ {e s s'}, T.rel e s s' → P s s') {cfg : Settings} {q p : Call} {depth : Nat}
    (h : q.Hands cfg depth p) :
    P q.machine.store p.machine.store ∧
      P (p.run (evalDepth cfg depth)).2.store (q.run (evaluate cfg)).2.store := by
  induction h with
  | self => exact ⟨hrefl _, hrefl _⟩
  | part _ makes ih =>
    have hvisits := T.visits_makes makes
    exact ⟨htrans ih.1 (hP hvisits.before), htrans (hP hvisits.rest) ih.2⟩

end Effect

end LittleLisp
