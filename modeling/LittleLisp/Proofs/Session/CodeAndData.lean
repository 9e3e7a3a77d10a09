import LittleLisp.Proofs.Session.Code

namespace LittleLisp

open Store Territory

variable {cfg : Settings} {es : List Call} {s : Store} {q p : Call} {depth : Nat}

theorem Parsed.admits (h : Parsed es q.machine.store) (hq : q ∈ es) :
    ((codeOf es).discipline q.machine.store).Admits q :=
  ⟨h.guard, ⟨q, hq, h.root q hq⟩, trivial⟩

theorem parsed_invariant (cfg : Settings) :
    HistoryInvariant cfg fun es s ↦ Parsed es s.store where
  start := Parsed.nil.guarded Parsed.nil.guard.addRoot
  restart h := h.guarded h.guard.addRoot
  emptyList {es s} h := by
    have hnil : ∀ v ∈ ([] : List CellId), (codeOf es).Data s.store v := nofun
    exact h.guarded (h.guard.addList hnil).1
  store {es s d} trace h hd := by
    have hs : (⟨s.store, trace⟩ : Machine).store.WellLinked := h.separates.linked
    exact h.add (added_ofDatum hd s.root hs)
  eval hq h := h.guarded ((h.admits hq).follows cfg cfg.evalDepth).inv

namespace Session

theorem Begins.parsed (h : Begins cfg es q) : Parsed es q.machine.store :=
  (parsed_invariant cfg).begins h

theorem Begins.admits (h : Begins cfg es q) (hp : q.Hands cfg depth p) :
    ((codeOf es).discipline q.machine.store).Admits p :=
  (h.parsed.admits h.mem).hands hp

theorem Moment.parsed (h : Moment cfg es s) : Parsed es s := by
  cases h with
  | between reached => exact (parsed_invariant cfg).reaches reached
  | called begins hands => exact begins.parsed.guarded (begins.admits hands).inv
  | returned begins hands =>
    exact begins.parsed.guarded ((begins.admits hands).follows cfg _).inv
  | pushing begins hands pushes =>
    exact begins.parsed.guarded ((begins.admits hands).pushes pushes).1
  | pushed begins hands pushes =>
    obtain ⟨hi, hv, l, hl, hcell⟩ := (begins.admits hands).pushes pushes
    exact begins.parsed.guarded (hi.push (hi.separates.not_handle hl hcell) hv)

end Session

theorem Territory.Separates.part_data {T : Territory} {c x : Nat} (hs : T.Separates s)
    (hc : T.Data s c) (hp : Part s c x) : T.Data s x := by
  induction hp with
  | self => exact hc
  | item _ list mem ih =>
    obtain ⟨n, hn, rfl⟩ := List.mem_map.1 mem
    exact hs.item_data (hs.not_handle ih list) hn
  | inner _ quoted _ => exact hs.quoted quoted

namespace Session

/-- Code and data are apart at every moment of every session. What the evaluator gets lies in the
skeleton of an expression that was read, and not under a quote; a push reaches neither the handle
nor a node of a skeleton list; so skeleton lists, and with them the bodies of closures, are what
they were, what has changed lies under a quote, and no skeleton list ever comes under one. -/
theorem code_apart_from_data (cfg : Settings) :
    (∀ es q depth p, Begins cfg es q → q.Hands cfg depth p →
      (∃ e ∈ es, e.Skeleton p.cell) ∧ ∀ e ∈ es, ¬ e.UnderQuote p.cell) ∧
    (∀ es q depth p h v m, Begins cfg es q → q.Hands cfg (depth + 1) p →
      p.Pushes cfg depth h v m → ∀ e ∈ es, ∀ x k, e.Skeleton x →
        e.machine.store.cell x = .list k →
        h ≠ k ∧ ∀ n ∈ m.store.chain h, n ∉ m.store.chain k) ∧
    (∀ es s, Moment cfg es s →
      (∀ e ∈ es, e.Unchanged s) ∧
      (∀ f fn captured params body, s.cell f = .function fn →
        fn.executor = .closure captured params body → ∃ e ∈ es, e.Skeleton body) ∧
      (∀ e ∈ es, ∀ x k, Part e.machine.store e.cell x → e.machine.store.cell x = .list k →
        s.items k ≠ e.machine.store.items k → e.UnderQuote x) ∧
      (∀ c i x k, s.cell c = .quoted i → Part s i x → s.cell x = .list k →
        ∀ e ∈ es, ¬ e.Skeleton x)) := by
  refine ⟨?_, ?_, ?_⟩
  · intro es q depth p hb hp
    have hcode := (hb.admits hp).code
    exact ⟨hcode, fun e he ↦ hb.parsed.apart e he p.cell hcode⟩
  · intro es q depth p h v m hb hp hpush e he x k hx hk
    obtain ⟨hi, -, l, hl, hcell⟩ := (hb.admits hp).pushes hpush
    have hh := hi.separates.not_handle hl hcell
    have hcode : (codeOf es).handle k := ⟨e, he, x, hx, hk⟩
    refine ⟨fun heq ↦ hh (heq ▸ hcode), fun n hn hn' ↦ hh ?_⟩
    exact (hi.separates.chain_iff hn).1 ((hi.separates.chain_iff hn').2 hcode)
  · intro es s hm
    have h := hm.parsed
    refine ⟨h.unchanged, ?_, ?_, ?_⟩
    · intro f fn captured params body hf hx
      have hcall := h.separates.function hf
      simp only [FunctionValue.Callable, hx] at hcall
      exact hcall.2.2
    · intro e he x k hpart hk hne
      refine Classical.byContradiction fun hu ↦ hne ?_
      exact (h.unchanged e he x k ⟨hpart, hu⟩ hk).2.2.2
    · intro c i x k hc hpart hk e he hx
      exact (h.separates.part_data (h.separates.quoted hc) hpart).2 k hk ⟨e, he, hx⟩

def quotedPush : Call :=
  .ofDatum 0 ⟨start.store, #[]⟩
    (.list [.atom "push", .bool true, .quoted (.list [.bool false])])

def shallow : Settings := { evalDepth := 2 }

theorem begins_quotedPush : Begins shallow [quotedPush] quotedPush := by
  have hdata : (Command.eval "(push #t \x27(#f))").data =
      [.list [.atom "push", .bool true, .quoted (.list [.bool false])]] := rfl
  have hcalls : start.calls shallow (.eval "(push #t \x27(#f))") = [] ++ quotedPush :: [] := by
    rw [calls, hdata, callsOf_singleton]
    rfl
  exact .command .start hcalls

theorem cell_quotedPush : quotedPush.machine.store.cell quotedPush.cell = .list 1 := by
  decide +kernel

theorem items_quotedPush : quotedPush.machine.store.items 1 = [15, 16, 19] := by decide +kernel

theorem pushes_quotedPush : quotedPush.Pushes shallow 1 0 16 quotedPush.machine :=
  ⟨⟨"push", .normal, .operator (.builtin .push)⟩, 18,
    ⟨1, 15, [16, 19], 6, quotedPush.machine, cell_quotedPush, items_quotedPush, rfl,
      by decide +kernel, rfl⟩, rfl, by decide +kernel⟩

theorem hands_quotedPush : quotedPush.Hands shallow 1 ⟨15, 0, quotedPush.machine⟩ :=
  .part .self (Call.makes_head shallow _ cell_quotedPush items_quotedPush)

/-- The quoted list is changed; the call around it is code and is not. -/
theorem code_apart_quotedPush :
    quotedPush.machine.store.items 0 = [17] ∧
      (quotedPush.machine.store.push 0 16).items 0 = [17, 16] ∧
      quotedPush.UnderQuote 18 ∧ quotedPush.Skeleton 15 ∧
      (∀ x k, quotedPush.Skeleton x → quotedPush.machine.store.cell x = .list k → 0 ≠ k) ∧
      quotedPush.Unchanged (quotedPush.machine.store.push 0 16) := by
  obtain ⟨hcode, hpush, hmoment⟩ := code_apart_from_data shallow
  have hitems : quotedPush.machine.store.items 0 = [17] := by decide +kernel
  have hpushed : (quotedPush.machine.store.push 0 16).items 0 = [17, 16] := by
    decide +kernel
  have hpart : Part quotedPush.machine.store quotedPush.cell 18 := by
    have hquote : 19 ∈ quotedPush.machine.store.items 1 := by simp [items_quotedPush]
    exact .inner (.item .self cell_quotedPush hquote) (by decide +kernel)
  obtain ⟨hunchanged, -, hchanged, -⟩ :=
    hmoment _ _ (.pushed begins_quotedPush .self pushes_quotedPush)
  refine ⟨hitems, hpushed, ?_, ?_, ?_, hunchanged _ List.mem_cons_self⟩
  · refine hchanged _ List.mem_cons_self 18 0 hpart (by decide +kernel) ?_
    rw [hitems, hpushed]
    decide
  · obtain ⟨⟨e, he, hskeleton⟩, -⟩ := hcode _ _ _ _ begins_quotedPush hands_quotedPush
    obtain rfl := List.mem_singleton.1 he
    exact hskeleton
  · intro x k hx hk
    exact (hpush _ _ _ _ _ _ _ begins_quotedPush .self pushes_quotedPush _ List.mem_cons_self
      x k hx hk).1

end Session

end LittleLisp
