import LittleLisp.Proofs.Session.AppendOnly
import LittleLisp.Proofs.Session.Stretches

namespace LittleLisp

open Relation Store

namespace Store

variable {s s' : Store}

def Next (s : Store) (n m : NodeId) : Prop :=
  ∃ node : Node, s.nodes[n]? = some node ∧ node.next = some m

namespace Links

variable {o : Option NodeId} {ns : List NodeId} {n : Nat} {h : HandleId}

theorem exists_last (hl : Links s (some n) ns) :
    ∃ last < s.nodes.size, ReflTransGen s.Next n last ∧ ∀ m, ¬ s.Next last m := by
  induction ns generalizing n with
  | nil => cases hl
  | cons k ns ih =>
    cases hl with
    | @cons _ node _ read rest =>
      cases hnext : node.next with
      | none =>
        refine ⟨k, (Array.getElem?_eq_some_iff.1 read).1, .refl, fun m hm ↦ ?_⟩
        obtain ⟨node', hread, hm⟩ := hm
        cases read.symm.trans hread
        rw [hnext] at hm
        cases hm
      | some m =>
        rw [hnext] at rest
        obtain ⟨last, hlt, hreach, hend⟩ := ih rest
        exact ⟨last, hlt, .head ⟨node, read, hnext⟩ hreach, hend⟩

theorem push (hl : Links s o ns) (hs : s.WellLinked) (v : CellId) (hne : ns ≠ [])
    (hlast : (s.chain h).getLast? = ns.getLast?) :
    Links (s.push h v) o (ns ++ [s.nodes.size]) := by
  induction hl with
  | nil => exact absurd rfl hne
  | @cons n node ns read rest ih =>
    have hlt : n < s.nodes.size := (Array.getElem?_eq_some_iff.1 read).1
    have hnode := push_nodes s h v hlt
    cases ns with
    | nil =>
      rw [hlast, List.getLast?_singleton, if_pos rfl, read] at hnode
      exact .cons hnode (.cons (push_nodes_new s h v) .nil)
    | cons k ns =>
      rw [List.getLast?_cons_cons] at hlast
      have hother : (s.chain h).getLast? ≠ some n := by
        intro hn
        have hmem : n ∈ k :: ns := List.mem_of_getLast? (hlast ▸ hn)
        have hk : node.next = some k := by
          generalize node.next = o at rest
          cases rest
          rfl
        have hgt := hs.next_gt read hk
        have hle := Links.le_of_mem hs (hk ▸ rest) hmem
        omega
      rw [if_neg hother, read] at hnode
      exact .cons hnode (ih (List.cons_ne_nil k ns) hlast)

end Links

namespace WellLinked

theorem push_chain (hs : s.WellLinked) {h : HandleId} (hh : h < s.handles.size) (v : CellId) :
    (s.push h v).chain h = s.chain h ++ [s.nodes.size] := by
  have hl' := (hs.push h v).links_chain h
  by_cases hnil : s.chain h = []
  · rw [push_head, if_pos ⟨rfl, hnil, hh⟩] at hl'
    rw [hnil]
    exact hl'.unique (.cons (push_nodes_new s h v) .nil)
  · rw [push_head, if_neg fun hempty ↦ hnil hempty.2.1] at hl'
    exact hl'.unique ((hs.links_chain h).push hs v hnil rfl)

theorem push_items (hs : s.WellLinked) {h : HandleId} (hh : h < s.handles.size) (v : CellId) :
    (s.push h v).items h = s.items h ++ [v] := by
  have hvalue : (s.push h v).nodeValue s.nodes.size = v := by rw [nodeValue, push_nodes_new]
  have hold : (s.chain h).map (s.push h v).nodeValue = (s.chain h).map s.nodeValue :=
    List.map_congr_left fun n hn ↦ (Later.push s h v hs).nodeValue_eq (mem_chain_lt hn)
  rw [items, items, hs.push_chain hh, List.map_append, hold, List.map_singleton, hvalue]

theorem chainFrom_eq (hs : s.WellLinked) (h : HandleId) {fuel : Nat} (hf : s.nodes.size ≤ fuel) :
    s.chainFrom fuel (s.head h) = s.chain h :=
  (hs.links_chain h).chainFrom_eq (Nat.le_trans (hs.chain_length h) hf)

end WellLinked

theorem Linear.next_unique (hs : s.Linear) {n m k : NodeId} (hn : s.Next n k) (hm : s.Next m k) :
    n = m := by
  obtain ⟨a, ha, hnext⟩ := hn
  obtain ⟨b, hb, hnext'⟩ := hm
  exact hs.next_inj ha hb hnext hnext'

theorem Later.next (h : Later s s') {n k : NodeId} (hn : s.Next n k) : s'.Next n k := by
  obtain ⟨a, ha, hnext⟩ := hn
  obtain ⟨b, hb, -, hsame⟩ := h.node ha
  refine ⟨b, hb, ?_⟩
  rcases hsame with hsame | ⟨hnone, -⟩
  · exact hsame.trans hnext
  · rw [hnone] at hnext
    cases hnext

theorem isSome_equalLists? {equal : CellId → CellId → Option Bool} {h k : HandleId}
    (hequal : ∀ x ∈ s.items h, ∀ y ∈ s.items k, (equal x y).isSome) :
    (s.equalLists? equal h k).isSome := by
  have hitems : ∀ xs ys : List CellId, (∀ x ∈ xs, ∀ y ∈ ys, (equal x y).isSome) →
      (equalItems? equal xs ys).isSome := by
    intro xs
    induction xs with
    | nil => exact fun ys _ ↦ rfl
    | cons x xs ih =>
      intro ys hxs
      cases ys with
      | nil => exact rfl
      | cons y ys =>
        have hrest := ih ys fun a ha b hb ↦
          hxs a (List.mem_cons_of_mem x ha) b (List.mem_cons_of_mem y hb)
        have hfirst := hxs x List.mem_cons_self y List.mem_cons_self
        rw [equalItems?]
        split
        · exact hrest
        · split
          · exact hrest
          · exact hfirst
  unfold equalLists?
  split
  · rfl
  · dsimp only
    split
    · exact hitems _ _ hequal
    · rfl

end Store

/-- What can happen to a store: a stretch of a session, whatever the outcome of its commands and
evaluations, storing an expression that was read, and an operation on lists. -/
inductive Happens : Store → Store → Prop
  | session {cfg : Settings} {s s' : Store} (stretch : Session.Stretch cfg s s') : Happens s s'
  | read (d : Datum) (s : Store) : Happens s (Store.load d s).2
  | builtin (op : Builtin) (depth : Nat) (args : List CellId) (m : Machine) :
      Happens m.store ((op.apply depth args).execute m).2.store
  | newList (vs : List CellId) (s : Store) : Happens s (s.addList vs).2
  | pushBack {l v : CellId} {s s' : Store} (done : Host.pushBack l v s = .ok s') : Happens s s'
  | split {l first : CellId} {rest : Option CellId} {s s' : Store}
      (done : Host.split l s = .ok (first, rest, s')) : Happens s s'

theorem Happens.run {s s' : Store} (h : Happens s s') : Run s s' := by
  cases h with
  | session stretch =>
    obtain ⟨_, hrun⟩ := runs.rel_stretch stretch
    exact hrun
  | read d => exact runs.rel_load (e := 0) d s
  | builtin op depth args m =>
    have htracks : runs.Tracks ⟨0, 0, m⟩ m.store 0 m (op.apply depth args) (op.apply depth args) :=
      Effect.tracks_builtin op depth args
    exact htracks.effect
  | newList vs => exact .single (.addList s vs)
  | pushBack done => exact run_of_pushBack done
  | split done =>
    obtain ⟨x, -, ⟨-, -, rfl⟩ | ⟨n, hsplit, -, rfl⟩⟩ := split_cases done
    · exact .refl
    · exact .single (.addRest hsplit)

theorem run_of_happens {s s' : Store} (h : ReflTransGen Happens s s') : Run s s' := by
  induction h with
  | refl => exact .refl
  | tail _ step ih => exact ih.trans step.run

/-- A list comes to hold itself, by a push onto it and one onto its rest, and a list that holds it;
the last expression fails. -/
def tangled (cfg : Settings) : Session :=
  Session.start.perform cfg (.load "(def x (list #t #f)) (push x x) (push x (cdr x))
    (def y (list #t)) (push y x) (push x y) (car #t)")

theorem happens_tangled (cfg : Settings) : ReflTransGen Happens .empty (tangled cfg).store := by
  have hstart : Session.Stretch cfg .empty Session.start.store := .command ⟨.empty, 0⟩ .reset
  have hload : Session.Stretch cfg Session.start.store (tangled cfg).store := .command .start _
  exact ReflTransGen.single (.session hstart) |>.tail (.session hload)

/-- The list is behind the handle 3, and its rest behind the handle 7. -/
theorem facts_tangled :
    let s := (tangled { evalDepth := 4 }).store
    (s.cell 23 = .list 3 ∧ s.items 3 = [19, 20, 23, 23, 41] ∧ s.cell 34 = .list 7) ∧
      s.handles.size = 14 ∧ s.nodes[6]? = some ⟨19, some 7⟩ := by
  decide +kernel

/-- At every moment the links lead from every node to an end, and a node has at most one
predecessor, which stays the only one. So the walks along a list end: a walk visits the chain
behind the handle and needs no more steps than there are nodes, a push finds the tail, and a
comparison ends if those of the items do. Yet a list may hold itself. -/
theorem chains_end_and_never_join :
    (∀ s, ReflTransGen Happens .empty s →
      (∀ n < s.nodes.size, ∃ last < s.nodes.size, ReflTransGen s.Next n last ∧
        ∀ m, ¬ s.Next last m) ∧
      (∀ n m k, s.Next n k → s.Next m k → n = m) ∧
      (∀ s', ReflTransGen Happens s s' → ∀ n m k, s.Next n k → s'.Next m k → m = n) ∧
      ∀ h, Links s (s.head h) (s.chain h) ∧
        (∀ fuel ≥ s.nodes.size, s.chainFrom fuel (s.head h) = s.chain h) ∧
        (h < s.handles.size → ∀ v, (s.push h v).items h = s.items h ++ [v]) ∧
        ∀ k equal, (∀ x ∈ s.items h, ∀ y ∈ s.items k, (equal x y).isSome) →
          (s.equalLists? equal h k).isSome) ∧
    ∃ s, ReflTransGen Happens .empty s ∧ ∃ c h, s.cell c = .list h ∧ c ∈ s.items h := by
  refine ⟨fun s hs ↦ ?_, ?_⟩
  · have hlinear : s.Linear := ((run_of_happens hs).linear linear_empty).1
    refine ⟨?_, ?_, ?_, ?_⟩
    · intro n hn
      obtain ⟨ns, hlinks, -⟩ := hlinear.linked.links_from n hn
      exact hlinks.exists_last
    · exact fun n m k ↦ hlinear.next_unique
    · intro s' hrun n m k hn hm
      obtain ⟨hlinear', hlater⟩ := (run_of_happens hrun).linear hlinear
      exact hlinear'.next_unique hm (hlater.next hn)
    · intro h
      refine ⟨hlinear.linked.links_chain h, ?_, ?_, ?_⟩
      · exact fun fuel hf ↦ hlinear.linked.chainFrom_eq h hf
      · exact fun hh v ↦ hlinear.linked.push_items hh v
      · exact fun k equal hequal ↦ isSome_equalLists? hequal
  · obtain ⟨⟨hcell, hitems, -⟩, -⟩ := facts_tangled
    refine ⟨_, happens_tangled _, 23, 3, hcell, ?_⟩
    rw [hitems]
    simp

/-- The list that holds itself is walked to its end, a push finds its tail, and a push onto its rest
gives no node a second predecessor. -/
theorem chains_end_tangled :
    let s := (tangled { evalDepth := 4 }).store
    s.cell 23 = .list 3 ∧ s.items 3 = [19, 20, 23, 23, 41] ∧ Links s (s.head 3) (s.chain 3) ∧
      (∃ last < s.nodes.size, ReflTransGen s.Next 6 last ∧ ∀ m, ¬ s.Next last m) ∧
      (s.push 3 23).items 3 = [19, 20, 23, 23, 41, 23] ∧
      ∀ m, (s.push 7 23).Next m 7 → m = 6 := by
  have hs := happens_tangled { evalDepth := 4 }
  obtain ⟨⟨hcell, hitems, hcell'⟩, hhandles, hnode⟩ := facts_tangled
  generalize (tangled { evalDepth := 4 }).store = s at hs hcell hitems hcell' hhandles hnode
  obtain ⟨hend, -, hlater, hwalks⟩ := chains_end_and_never_join.1 s hs
  obtain ⟨hlinks, -, hpush, -⟩ := hwalks 3
  have hrest : Happens s (s.push 7 23) := by
    refine .pushBack (l := 34) (v := 23) ?_
    rw [Host.pushBack, Host.handle, hcell']
    rfl
  refine ⟨hcell, hitems, hlinks, hend 6 (Array.getElem?_eq_some_iff.1 hnode).1, ?_, ?_⟩
  · rw [hpush (by rw [hhandles]; decide), hitems]
    rfl
  · exact fun m ↦ hlater _ (.single hrest) 6 m 7 ⟨_, hnode, rfl⟩

end LittleLisp
