import LittleLisp.Host
import LittleLisp.Proofs.Session.Effects
import LittleLisp.Proofs.Store.Sharing

namespace LittleLisp

open Relation Store

def runs : Effect where
  rel _ := Run
  refl _ _ := .refl
  trans := .trans
  scopes_le h := by
    induction h with
    | refl => exact Nat.le_refl _
    | tail _ step ih => exact Nat.le_trans ih step.scopes_le
  inner h _ h' := h.trans h'
  addCell _ s x := .single (.addCell s x)
  addList _ s vs := .single (.addList s vs)
  addRest _ split := .single (.addRest split)
  push _ s h v := .single (.push s h v)
  addScope _ s outer := .single (.addScope s outer)
  define e s n v := .single (.define s e n v)

/-- The stretches of an evaluation before and after a call inside it are runs as well. -/
theorem run_of_hands {cfg : Settings} {q p : Call} {depth : Nat} (h : q.Hands cfg depth p) :
    Run q.machine.store p.machine.store ∧
      Run (p.run (evalDepth cfg depth)).2.store (q.run (evaluate cfg)).2.store :=
  runs.stretches_hands (fun _ ↦ .refl) .trans id h

theorem list_of_handle {operation : String} {s : Store} {l : CellId} {h : HandleId}
    (hh : Host.handle operation s l = .ok h) : s.cell l = .list h := by
  unfold Host.handle at hh
  split at hh
  · cases hh
    assumption
  · cases hh

theorem run_of_pushBack {s s' : Store} {l v : CellId} (h : Host.pushBack l v s = .ok s') :
    Run s s' := by
  unfold Host.pushBack at h
  cases hh : Host.handle "push" s l with
  | error => simp [hh, Bind.bind, Except.bind] at h
  | ok i =>
    simp only [hh, Bind.bind, Except.bind, Pure.pure, Except.pure, Except.ok.injEq] at h
    subst h
    exact .single (.push s i v)

theorem split_cases {s s' : Store} {l first : CellId} {rest : Option CellId}
    (h : Host.split l s = .ok (first, rest, s')) :
    ∃ x, s.cell l = .list x ∧
      ((s.split? x = some (first, none) ∧ rest = none ∧ s' = s) ∨
        ∃ n, s.split? x = some (first, some n) ∧ rest = some s.cells.size ∧
          s' = (s.addListFrom (some n)).2) := by
  unfold Host.split at h
  cases hh : Host.handle "split" s l with
  | error => simp [hh, Bind.bind, Except.bind] at h
  | ok x =>
    refine ⟨x, list_of_handle hh, ?_⟩
    simp only [hh, Bind.bind, Except.bind] at h
    split at h
    case h_1 => cases h
    case h_2 v hsplit =>
      cases h
      exact .inl ⟨hsplit, rfl, rfl⟩
    case h_3 v n hsplit =>
      cases h
      exact .inr ⟨n, hsplit, rfl, rfl⟩

/-- The remainder of the list behind `x` is taken, as a list cell over the handle `y`. -/
inductive TakesRest (s : Store) (x y : HandleId) : Store → Prop
  | split {s' : Store} {l first r : CellId} (list : s.cell l = .list x)
      (split : Host.split l s = .ok (first, some r, s')) (rest : s'.cell r = .list y) :
      TakesRest s x y s'
  | cdr {l r : CellId} {trace : Array Event} {depth : Nat} {m : Machine}
      (list : s.cell l = .list x) (more : 1 < (s.items x).length)
      (cdr : (Builtin.apply depth .cdr [l]).execute ⟨s, trace⟩ = (.ok r, m))
      (rest : m.store.cell r = .list y) : TakesRest s x y m.store

theorem split?_of_items {s : Store} {x : HandleId} (h : 1 < (s.items x).length) :
    ∃ v n, s.split? x = some (v, some n) := by
  rw [items, List.length_map] at h
  rw [split?]
  rcases hchain : s.chain x with - | ⟨n, - | ⟨k, ns⟩⟩
  · simp [hchain] at h
  · simp [hchain] at h
  · exact ⟨s.nodeValue n, k, rfl⟩

theorem head?_of_split? {s : Store} {x : HandleId} {v : CellId} {o : Option NodeId}
    (h : s.split? x = some (v, o)) : (s.items x).head? = some v := by
  obtain ⟨n, rest, hchain, rfl, -⟩ := chain_of_split? h
  rw [items, hchain]
  rfl

theorem execute_cdr {s : Store} {trace : Array Event} {l v : CellId} {x : HandleId} {n : NodeId}
    (hl : s.cell l = .list x) (hsplit : s.split? x = some (v, some n)) :
    (Builtin.applyCdr [l]).execute ⟨s, trace⟩ =
      (.ok s.cells.size, ⟨(s.addListFrom (some n)).2, trace⟩) := by
  rw [Builtin.applyCdr, EvalM.execute_bind_ok (EvalM.execute_listOperand .cdr hl),
    EvalM.execute_bind_ok EvalM.execute_getStore]
  simp only [hsplit]
  rfl

theorem TakesRest.remainder {s s' : Store} {x y : HandleId} (h : TakesRest s x y s')
    (hs : s.WellLinked) : Run s s' ∧ ∃ v, (s.items x).head? = some v ∧ s'.Remainder x y v := by
  obtain ⟨v, n, hsplit, hs', hy⟩ : ∃ v n, s.split? x = some (v, some n) ∧
      s' = (s.addListFrom (some n)).2 ∧ s'.cell s.cells.size = .list y := by
    cases h with
    | split list split rest =>
      obtain ⟨x', hx', ⟨-, hnone, -⟩ | ⟨n, hsplit, hr, rfl⟩⟩ := split_cases split
      · cases hnone
      · cases list.symm.trans hx'
        cases hr
        exact ⟨_, n, hsplit, rfl, rest⟩
    | cdr list more cdr rest =>
      obtain ⟨v, n, hsplit⟩ := split?_of_items more
      cases (execute_cdr list hsplit).symm.trans cdr
      exact ⟨v, n, hsplit, rfl, rest⟩
  subst hs'
  have hcell : (s.addListFrom (some n)).2.cell s.cells.size = .list s.handles.size :=
    cell_addCell _ _
  cases hcell.symm.trans hy
  exact ⟨.single (.addRest hsplit), v, head?_of_split? hsplit, remainder_addRest hs hsplit⟩

/-- Lists are append-only and the sharing of tails is permanent. All that evaluation, sessions and
the host do to a store are runs of single operations, also the stretches of an evaluation between
the calls that it makes. Between any two moments of a run from the empty store, every list grows at
its end only; the remainder of a list, once taken, follows its first cell for ever; and lists that
share no node never come to share one. -/
theorem lists_append_only :
    (Run .empty Session.start.store ∧
      (∀ (cfg : Settings) (s : Session) (c : Command), Run s.store (s.perform cfg c).store) ∧
      (∀ (cfg : Settings) (q : Call), Run q.machine.store (q.run (evaluate cfg)).2.store) ∧
      (∀ (cfg : Settings) (q p : Call) (depth : Nat), q.Hands cfg depth p →
        Run q.machine.store p.machine.store ∧
        Run p.machine.store (p.run (evalDepth cfg depth)).2.store ∧
        Run (p.run (evalDepth cfg depth)).2.store (q.run (evaluate cfg)).2.store) ∧
      (∀ (op : Builtin) (depth : Nat) (args : List CellId) (m : Machine),
        Run m.store ((op.apply depth args).execute m).2.store) ∧
      (∀ (l v : CellId) (s s' : Store), Host.pushBack l v s = .ok s' → Run s s') ∧
      ∀ (l first : CellId) (rest : Option CellId) (s s' : Store),
        Host.split l s = .ok (first, rest, s') → Run s s') ∧
    (∀ s s' : Store, Run .empty s → Run s s' → ∀ h : HandleId, s.items h <+: s'.items h) ∧
    (∀ (s s₁ s' : Store) (x y : HandleId), Run .empty s → TakesRest s x y s₁ → Run s₁ s' →
      ∃ first, (s.items x).head? = some first ∧ s'.items x = first :: s'.items y) ∧
    ∀ s s' : Store, Run .empty s → Run s s' → ∀ h k : HandleId, s.items h ≠ [] →
      s.items k ≠ [] → (∀ n ∈ s.chain h, n ∉ s.chain k) → ∀ n ∈ s'.chain h, n ∉ s'.chain k := by
  refine ⟨⟨?_, ?_, ?_, ?_, ?_, ?_, ?_⟩, ?_, ?_, ?_⟩
  · exact runs.rel_addRoot (e := 0) Store.empty
  · intro cfg s c
    exact runs.rel_perform s c
  · intro cfg q
    exact runs.sound_evalDepth cfg cfg.evalDepth q
  · intro cfg q p depth h
    exact ⟨(run_of_hands h).1, runs.sound_evalDepth cfg depth p, (run_of_hands h).2⟩
  · intro op depth args m
    have htracks : runs.Tracks ⟨0, 0, m⟩ m.store 0 m (op.apply depth args) (op.apply depth args) :=
      Effect.tracks_builtin op depth args
    exact htracks.effect
  · intro l v s s' h
    exact run_of_pushBack h
  · intro l first rest s s' h
    obtain ⟨x, -, ⟨-, -, rfl⟩ | ⟨n, hsplit, -, rfl⟩⟩ := split_cases h
    · exact .refl
    · exact .single (.addRest hsplit)
  · intro s s' hs hrun h
    have hlinear := (hs.linear linear_empty).1
    obtain ⟨hlinear', hlater⟩ := hrun.linear hlinear
    exact hlater.items_prefix hlinear.linked hlinear'.linked h
  · intro s s₁ s' x y hs htakes hrun
    have hlinear := (hs.linear linear_empty).1
    obtain ⟨hrun₁, v, hv, hr⟩ := htakes.remainder hlinear.linked
    obtain ⟨hlinear', hlater⟩ := hrun.linear (hrun₁.linear hlinear).1
    exact ⟨v, hv, (hr.later hlater).items_eq hlinear'.linked⟩
  · intro s s' hs hrun h k hh hk
    have hlinear := (hs.linear linear_empty).1
    obtain ⟨hlinear', hlater⟩ := hrun.linear hlinear
    have hne {i : HandleId} (hi : s.items i ≠ []) : s.chain i ≠ [] := by
      intro hnil
      exact hi (by rw [items, hnil]; rfl)
    exact hlater.chains_disjoint hlinear.linked hlinear' (hne hh) (hne hk)

def twoLists : Store :=
  let s := ((Store.empty.addCell (.bool true)).2.addCell (.bool false)).2
  ((s.addList [1, 2]).2.addList [2]).2

def takenRest : Store := (twoLists.addListFrom (some 1)).2

theorem run_twoLists : Run .empty twoLists :=
  ReflTransGen.single (.addCell _ (.bool true)) |>.tail (.addCell _ (.bool false))
    |>.tail (.addList _ [1, 2]) |>.tail (.addList _ [2])

theorem takesRest_twoLists : TakesRest twoLists 0 2 takenRest :=
  .split (l := 3) (by decide +kernel) rfl (by decide +kernel)

/-- A push onto the remainder is seen in the list itself, and not in the other list. -/
theorem append_only_takenRest :
    (takenRest.push 2 1).items 0 = [1, 2, 1] ∧ twoLists.items 0 <+: (takenRest.push 2 1).items 0 ∧
      (∃ first, (twoLists.items 0).head? = some first ∧
        (takenRest.push 2 1).items 0 = first :: (takenRest.push 2 1).items 2) ∧
      ∀ n ∈ (takenRest.push 2 1).chain 0, n ∉ (takenRest.push 2 1).chain 1 := by
  obtain ⟨⟨-, -, -, -, -, -, hsplit⟩, hprefix, hrest, hdisjoint⟩ := lists_append_only
  have htaken : Run twoLists takenRest := hsplit 3 1 (some 5) twoLists takenRest rfl
  have hpush : Run takenRest (takenRest.push 2 1) := .single (.push takenRest 2 1)
  refine ⟨by decide +kernel, hprefix _ _ run_twoLists (htaken.trans hpush) 0,
    hrest _ _ _ 0 2 run_twoLists takesRest_twoLists hpush, ?_⟩
  exact hdisjoint _ _ run_twoLists (htaken.trans hpush) 0 1 (by decide +kernel)
    (by decide +kernel) (by decide +kernel)

end LittleLisp
