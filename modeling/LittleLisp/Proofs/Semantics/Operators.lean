import LittleLisp.Proofs.Evaluator.Execution
import LittleLisp.Proofs.Semantics.Rules
import LittleLisp.Proofs.Store.Chain
import Mathlib.Data.List.Basic

namespace LittleLisp.Semantics

open EvalM

variable {s : Store} {m m' : Machine}

theorem hold_or_first {α : Type} (s : Store) (f : α → Cell) (cs : List CellId) :
    (∃ xs : List α, cs.map s.cell = xs.map f) ∨
      ∃ (before after : List CellId) (c : CellId) (xs : List α),
        cs = before ++ c :: after ∧ before.map s.cell = xs.map f ∧ ∀ x, s.cell c ≠ f x := by
  induction cs with
  | nil => exact .inl ⟨[], rfl⟩
  | cons c cs ih =>
    by_cases hc : ∃ x, s.cell c = f x
    · obtain ⟨x, hx⟩ := hc
      obtain ⟨xs, h⟩ | ⟨before, after, d, xs, rfl, hb, hd⟩ := ih
      · exact .inl ⟨x :: xs, by simp [hx, h]⟩
      · exact .inr ⟨c :: before, after, d, x :: xs, rfl, by simp [hx, hb], hd⟩
    · exact .inr ⟨[], cs, c, [], rfl, rfl, fun x hx ↦ hc ⟨x, hx⟩⟩

section Reading

variable {α : Type} {content? : Cell → Option α} {f : α → Cell}
  (hf : ∀ x a, content? x = some a ↔ x = f a) (fault : Datum → Fault)

include hf

theorem execute_readAll {cs : List CellId} {as : List α} (h : cs.map m.store.cell = as.map f) :
    (readAll content? fault cs).execute m = (.ok as, m) := by
  induction cs generalizing as with
  | nil =>
    cases List.map_eq_nil_iff.1 h.symm
    rfl
  | cons c cs ih =>
    obtain ⟨a, as, rfl, ha, has⟩ := List.map_eq_cons_iff.1 h.symm
    simp [readAll, execute_bind, (hf _ a).2 ha.symm, ih has.symm, Except.map]

theorem execute_readAll_error {before after : List CellId} {c : CellId} {as : List α}
    (hb : before.map m.store.cell = as.map f) (hc : ∀ a, m.store.cell c ≠ f a) :
    (readAll content? fault (before ++ c :: after)).execute m =
      (.error (fault (m.store.snapshot c)), m) := by
  induction before generalizing as with
  | nil =>
    have hnone : content? (m.store.cell c) = none :=
      Option.eq_none_iff_forall_not_mem.2 fun a ha ↦ hc a ((hf _ a).1 ha)
    simp [readAll, execute_bind, hnone]
  | cons b before ih =>
    obtain ⟨a, as, rfl, ha, has⟩ := List.map_eq_cons_iff.1 hb.symm
    simp [readAll, execute_bind, (hf _ a).2 ha.symm, ih has.symm, Except.map]

end Reading

theorem number?_eq_some_iff (x : Cell) (a : Binary64) : x.number? = some a ↔ x = .number a := by
  cases x <;> simp [Cell.number?]

theorem name?_eq_some_iff (x : Cell) (n : Text) : x.name? = some n ↔ x = .atom n := by
  cases x <;> simp [Cell.name?]

theorem execute_numbers (op : Builtin) {cs : List CellId} {xs : List Binary64}
    (h : HoldNumbers m.store cs xs) : (op.numbers cs).execute m = (.ok xs, m) :=
  execute_readAll number?_eq_some_iff _ h

theorem execute_numbers_error (op : Builtin) {before after : List CellId} {c : CellId}
    {xs : List Binary64} (hb : HoldNumbers m.store before xs)
    (hc : ∀ x, m.store.cell c ≠ .number x) :
    (op.numbers (before ++ c :: after)).execute m =
      (.error (.notNumeric op (m.store.snapshot c)), m) :=
  execute_readAll_error number?_eq_some_iff _ hb hc

theorem split?_eq_none {h : HandleId} : s.split? h = none ↔ s.items h = [] := by
  cases hc : s.chain h <;> simp [Store.split?, Store.items, hc]

theorem split?_eq_some {h : HandleId} {first : CellId} {rest : Option NodeId}
    (hs : s.split? h = some (first, rest)) :
    ∃ n ns, s.chain h = n :: ns ∧ s.items h = first :: ns.map s.nodeValue ∧ rest = ns.head? := by
  obtain ⟨n, ns, hc, rfl, hrest⟩ := Store.chain_of_split? hs
  exact ⟨n, ns, hc, by rw [Store.items, hc, List.map_cons], hrest⟩

theorem yields_fold {op : Builtin} {args : List CellId} {start : Binary64}
    {f : Binary64 → Binary64 → Binary64} {o : Except Fault CellId} (ha : IsArithmetic op)
    (hf : ∀ xs, HoldNumbers m.store args xs →
      Yields m.store op args (.ok (m.store.addCell (.number (xs.foldl f start))).1)
        (m.store.addCell (.number (xs.foldl f start))).2)
    (h : (Builtin.fold op start f args).execute m = (o, m')) :
    Yields m.store op args o m'.store := by
  obtain ⟨xs, hx⟩ | ⟨before, after, c, xs, rfl, hb, hc⟩ := hold_or_first m.store Cell.number args
  · simp only [Builtin.fold, Builtin.number, execute_bind, execute_numbers op hx, execute_change,
      Prod.mk.injEq] at h
    obtain ⟨rfl, rfl⟩ := h
    exact hf xs hx
  · simp only [Builtin.fold, execute_bind, execute_numbers_error op hb hc, Prod.mk.injEq] at h
    obtain ⟨rfl, rfl⟩ := h
    exact .notNumeric ha hb hc

theorem yields_foldFirst {op : Builtin} {args : List CellId}
    {f : Binary64 → Binary64 → Binary64} {o : Except Fault CellId} (ha : op = .sub ∨ op = .div)
    (hf : ∀ x xs, HoldNumbers m.store args (x :: xs) →
      Yields m.store op args (.ok (m.store.addCell (.number (xs.foldl f x))).1)
        (m.store.addCell (.number (xs.foldl f x))).2)
    (h : (Builtin.foldFirst op f args).execute m = (o, m')) :
    Yields m.store op args o m'.store := by
  obtain ⟨xs, hx⟩ | ⟨before, after, c, xs, rfl, hb, hc⟩ := hold_or_first m.store Cell.number args
  · cases xs with
    | nil =>
      cases List.map_eq_nil_iff.1 hx
      simp only [Builtin.foldFirst, execute_bind, execute_numbers op hx, execute_throw,
        Prod.mk.injEq] at h
      obtain ⟨rfl, rfl⟩ := h
      exact .operandsMissing ha
    | cons x xs =>
      simp only [Builtin.foldFirst, Builtin.number, execute_bind, execute_numbers op hx,
        execute_change, Prod.mk.injEq] at h
      obtain ⟨rfl, rfl⟩ := h
      exact hf x xs hx
  · simp only [Builtin.foldFirst, execute_bind, execute_numbers_error op hb hc,
      Prod.mk.injEq] at h
    obtain ⟨rfl, rfl⟩ := h
    exact .notNumeric (by rcases ha with rfl | rfl <;> simp [IsArithmetic]) hb hc

theorem yields_push {args : List CellId} {o : Except Fault CellId}
    (h : (Builtin.applyPush args).execute m = (o, m')) : Yields m.store .push args o m'.store := by
  rw [Builtin.applyPush.eq_def] at h
  split at h
  case h_1 v l =>
    by_cases hl : ∃ k, m.store.cell l = .list k
    · obtain ⟨k, hl⟩ := hl
      simp only [execute_bind, execute_listOperand .push hl, execute_change, Prod.mk.injEq] at h
      obtain ⟨rfl, rfl⟩ := h
      exact .push hl
    · have hl : ∀ k, m.store.cell l ≠ .list k := fun k hk ↦ hl ⟨k, hk⟩
      simp only [execute_bind, execute_listOperand_error .push hl, Prod.mk.injEq] at h
      obtain ⟨rfl, rfl⟩ := h
      exact .operandNotList .push rfl hl
  case h_2 hn =>
    simp only [execute_throw, Prod.mk.injEq] at h
    obtain ⟨rfl, rfl⟩ := h
    refine .operandCount .push fun hl ↦ ?_
    obtain ⟨v, l, rfl⟩ := List.length_eq_two.1 hl
    exact hn v l rfl

theorem yields_car {args : List CellId} {o : Except Fault CellId}
    (h : (Builtin.applyCar args).execute m = (o, m')) : Yields m.store .car args o m'.store := by
  rw [Builtin.applyCar.eq_def] at h
  split at h
  case h_1 l =>
    by_cases hl : ∃ k, m.store.cell l = .list k
    · obtain ⟨k, hl⟩ := hl
      simp only [execute_bind, execute_listOperand .car hl, execute_getStore] at h
      cases hs : m.store.split? k with
      | none =>
        simp only [hs, Builtin.emptyList, execute_change, Prod.mk.injEq] at h
        obtain ⟨rfl, rfl⟩ := h
        exact .carEmpty hl (split?_eq_none.1 hs)
      | some p =>
        simp only [hs, execute_pure, Prod.mk.injEq] at h
        obtain ⟨rfl, rfl⟩ := h
        obtain ⟨n, ns, -, hi, -⟩ := split?_eq_some hs
        exact .car hl hi
    · have hl : ∀ k, m.store.cell l ≠ .list k := fun k hk ↦ hl ⟨k, hk⟩
      simp only [execute_bind, execute_listOperand_error .car hl, Prod.mk.injEq] at h
      obtain ⟨rfl, rfl⟩ := h
      exact .operandNotList .car rfl hl
  case h_2 hn =>
    simp only [execute_throw, Prod.mk.injEq] at h
    obtain ⟨rfl, rfl⟩ := h
    refine .operandCount .car fun hl ↦ ?_
    obtain ⟨l, rfl⟩ := List.length_eq_one_iff.1 hl
    exact hn l rfl

theorem yields_cdr {args : List CellId} {o : Except Fault CellId}
    (h : (Builtin.applyCdr args).execute m = (o, m')) : Yields m.store .cdr args o m'.store := by
  rw [Builtin.applyCdr.eq_def] at h
  split at h
  case h_1 l =>
    by_cases hl : ∃ k, m.store.cell l = .list k
    · obtain ⟨k, hl⟩ := hl
      simp only [execute_bind, execute_listOperand .cdr hl, execute_getStore, Store.split?] at h
      match hc : m.store.chain k with
      | [] =>
        simp only [hc, Builtin.emptyList, execute_change, Prod.mk.injEq] at h
        obtain ⟨rfl, rfl⟩ := h
        exact .cdrEmpty hl (by simp [hc])
      | [n] =>
        simp only [hc, List.head?_nil, Builtin.emptyList, execute_change, Prod.mk.injEq] at h
        obtain ⟨rfl, rfl⟩ := h
        exact .cdrEmpty hl (by simp [hc])
      | n₁ :: n₂ :: ns =>
        simp only [hc, List.head?_cons, execute_change, Prod.mk.injEq] at h
        obtain ⟨rfl, rfl⟩ := h
        exact .cdr hl hc
    · have hl : ∀ k, m.store.cell l ≠ .list k := fun k hk ↦ hl ⟨k, hk⟩
      simp only [execute_bind, execute_listOperand_error .cdr hl, Prod.mk.injEq] at h
      obtain ⟨rfl, rfl⟩ := h
      exact .operandNotList .cdr rfl hl
  case h_2 hn =>
    simp only [execute_throw, Prod.mk.injEq] at h
    obtain ⟨rfl, rfl⟩ := h
    refine .operandCount .cdr fun hl ↦ ?_
    obtain ⟨l, rfl⟩ := List.length_eq_one_iff.1 hl
    exact hn l rfl

theorem yields_eq {budget : Nat} {args : List CellId} {o : Except Fault CellId}
    (h : (Builtin.applyEq budget args).execute m = (o, m')) (ho : o ≠ .error .tooDeep) :
    Yields m.store .eq args o m'.store := by
  rw [Builtin.applyEq.eq_def] at h
  split at h
  case h_1 a b =>
    simp only [execute_bind, execute_getStore, Store.same?] at h
    by_cases he : a = b
    · subst he
      simp only [if_true, execute_change, Prod.mk.injEq] at h
      obtain ⟨rfl, rfl⟩ := h
      exact .same
    · rw [if_neg he] at h
      cases hr : m.store.equal? budget a b with
      | none =>
        simp only [hr, execute_throw, Prod.mk.injEq] at h
        exact absurd h.1.symm ho
      | some r =>
        simp only [hr, execute_change, Prod.mk.injEq] at h
        obtain ⟨rfl, rfl⟩ := h
        exact .compared he (compares_of_equal? hr)
  case h_2 hn =>
    simp only [execute_throw, Prod.mk.injEq] at h
    obtain ⟨rfl, rfl⟩ := h
    refine .comparandCount fun hl ↦ ?_
    obtain ⟨a, b, rfl⟩ := List.length_eq_two.1 hl
    exact hn a b rfl

/-- An operator that does not run out of its budget does what its rules say. -/
theorem yields_of_apply {op : Builtin} {budget : Nat} {args : List CellId}
    {o : Except Fault CellId} (h : (op.apply budget args).execute m = (o, m'))
    (ho : o ≠ .error .tooDeep) : Yields m.store op args o m'.store := by
  cases op with
  | add => exact yields_fold (by simp [IsArithmetic]) (fun _ ↦ .sum) h
  | mul => exact yields_fold (by simp [IsArithmetic]) (fun _ ↦ .product) h
  | sub => exact yields_foldFirst (.inl rfl) (fun _ _ ↦ .difference) h
  | div => exact yields_foldFirst (.inr rfl) (fun _ _ ↦ .quotient) h
  | list =>
    cases h
    exact .list
  | push => exact yields_push h
  | car => exact yields_car h
  | cdr => exact yields_cdr h
  | eq => exact yields_eq h ho

theorem Yields.apply {op : Builtin} {args : List CellId} {o : Except Fault CellId} {s' : Store}
    (h : Yields s op args o s') :
    ∃ d₀, ∀ (d : Nat) (m : Machine), d₀ ≤ d → m.store = s →
      (op.apply d args).execute m = (o, { m with store := s' }) := by
  cases h with
  | notNumeric ha hb hc =>
    refine ⟨0, fun d m _ hm ↦ ?_⟩
    subst hm
    rcases ha with rfl | rfl | rfl | rfl <;>
      simp [Builtin.apply, Builtin.fold, Builtin.foldFirst, execute_bind,
        execute_numbers_error _ hb hc]
  | sum hx | product hx =>
    refine ⟨0, fun d m _ hm ↦ ?_⟩
    subst hm
    simp [Builtin.apply, Builtin.fold, Builtin.number, execute_bind, execute_numbers _ hx]
  | difference hx | quotient hx =>
    refine ⟨0, fun d m _ hm ↦ ?_⟩
    subst hm
    simp [Builtin.apply, Builtin.foldFirst, Builtin.number, execute_bind, execute_numbers _ hx]
  | operandsMissing ho => exact ⟨0, fun d m _ hm ↦ by rcases ho with rfl | rfl <;> exact hm ▸ rfl⟩
  | list => exact ⟨0, fun d m _ hm ↦ hm ▸ rfl⟩
  | push hl =>
    refine ⟨0, fun d m _ hm ↦ ?_⟩
    subst hm
    simp [Builtin.apply, Builtin.applyPush, execute_bind, execute_listOperand _ hl]
  | @car _ _ k rest hl hi =>
    refine ⟨0, fun d m _ hm ↦ ?_⟩
    subst hm
    obtain ⟨n, ns, hc, hn, hr⟩ := List.map_eq_cons_iff.1 hi
    simp [Builtin.apply, Builtin.applyCar, execute_bind, execute_listOperand _ hl, Store.split?,
      hc, hn]
  | carEmpty hl hi =>
    refine ⟨0, fun d m _ hm ↦ ?_⟩
    subst hm
    simp [Builtin.apply, Builtin.applyCar, execute_bind, execute_listOperand _ hl,
      split?_eq_none.2 hi, Builtin.emptyList]
  | cdr hl hc =>
    refine ⟨0, fun d m _ hm ↦ ?_⟩
    subst hm
    simp [Builtin.apply, Builtin.applyCdr, execute_bind, execute_listOperand _ hl, Store.split?, hc]
  | @cdrEmpty _ k hl hc =>
    refine ⟨0, fun d m _ hm ↦ ?_⟩
    subst hm
    rcases hn : m.store.chain k with _ | ⟨n, _ | ⟨n', ns⟩⟩
    · simp [Builtin.apply, Builtin.applyCdr, execute_bind, execute_listOperand _ hl, Store.split?,
        hn, Builtin.emptyList]
    · simp [Builtin.apply, Builtin.applyCdr, execute_bind, execute_listOperand _ hl, Store.split?,
        hn, Builtin.emptyList]
    · simp [hn] at hc
  | @operandNotList _ args l hn hg hl =>
    refine ⟨0, fun d m _ hm ↦ ?_⟩
    subst hm
    generalize hk : args.length = k at hn
    cases hn with
    | push =>
      obtain ⟨v, l', rfl⟩ := List.length_eq_two.1 hk
      obtain rfl : l' = l := by simpa using hg
      simp [Builtin.apply, Builtin.applyPush, execute_bind, execute_listOperand_error _ hl]
    | car =>
      obtain ⟨l', rfl⟩ := List.length_eq_one_iff.1 hk
      obtain rfl : l' = l := by simpa using hg
      simp [Builtin.apply, Builtin.applyCar, execute_bind, execute_listOperand_error _ hl]
    | cdr =>
      obtain ⟨l', rfl⟩ := List.length_eq_one_iff.1 hk
      obtain rfl : l' = l := by simpa using hg
      simp [Builtin.apply, Builtin.applyCdr, execute_bind, execute_listOperand_error _ hl]
  | operandCount hn hl =>
    refine ⟨0, fun d m _ hm ↦ ?_⟩
    subst hm
    cases hn with
    | push =>
      simp only [Builtin.apply, Builtin.applyPush.eq_def]
      split
      · exact absurd rfl hl
      · rfl
    | car =>
      simp only [Builtin.apply, Builtin.applyCar.eq_def]
      split
      · exact absurd rfl hl
      · rfl
    | cdr =>
      simp only [Builtin.apply, Builtin.applyCdr.eq_def]
      split
      · exact absurd rfl hl
      · rfl
  | same =>
    refine ⟨0, fun d m _ hm ↦ ?_⟩
    subst hm
    simp [Builtin.apply, Builtin.applyEq, execute_bind, Store.same?]
  | compared hne hr =>
    obtain ⟨d₀, hd⟩ := hr.answer
    refine ⟨d₀, fun d m h hm ↦ ?_⟩
    subst hm
    have he : m.store.equal? d _ _ = some _ := hd d h
    simp [Builtin.apply, Builtin.applyEq, execute_bind, Store.same?, hne, he]
  | comparandCount hl =>
    refine ⟨0, fun d m _ hm ↦ ?_⟩
    subst hm
    simp only [Builtin.apply, Builtin.applyEq.eq_def]
    split
    · exact absurd rfl hl
    · rfl

end LittleLisp.Semantics
