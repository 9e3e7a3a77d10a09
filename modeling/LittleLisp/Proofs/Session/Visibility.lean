import LittleLisp.Proofs.Session.Chains
import LittleLisp.Proofs.Session.Printing

namespace LittleLisp

namespace Store

variable {s s' : Store} {h k : HandleId} {v : CellId}

/-- Both lists have items, and their chains end in the same node. -/
def EndTogether (s : Store) (h k : HandleId) : Prop :=
  ∃ n, (s.chain h).getLast? = some n ∧ (s.chain k).getLast? = some n

structure PushSeen (s s' : Store) (h : HandleId) (v : CellId) : Prop where
  seen : ∀ k, k = h ∨ s.EndTogether h k → s'.items k = s.items k ++ [v]
  unseen : ∀ k, k ≠ h → ¬ s.EndTogether h k → s'.items k = s.items k
  nodes : s'.nodes.size = s.nodes.size + 1
  values : ∀ n < s.nodes.size, s'.nodeValue n = s.nodeValue n
  handles : s'.handles.size = s.handles.size
  cells : s'.cells = s.cells
  sequence : ∀ c k, s.cell c = .list k → Host.toSequence c s' = .ok (s'.items k)

theorem Links.getLast?_of_next {o : Option NodeId} {ns : List NodeId} {n : NodeId} {node : Node}
    (hl : Links s o ns) (hn : n ∈ ns) (hread : s.nodes[n]? = some node) (hnext : node.next = none) :
    ns.getLast? = some n := by
  induction hl with
  | nil => cases hn
  | @cons k first ns read rest ih =>
    rcases List.mem_cons.1 hn with rfl | hn
    · cases read.symm.trans hread
      rw [hnext] at rest
      cases rest
      rfl
    · cases ns with
      | nil => cases hn
      | cons => exact ih hn

namespace WellLinked

theorem push_chain_of_endTogether (hs : s.WellLinked) (hend : s.EndTogether h k) (v : CellId) :
    (s.push h v).chain k = s.chain k ++ [s.nodes.size] := by
  obtain ⟨n, hh, hk⟩ := hend
  have hhead : (s.push h v).head k = s.head k := by
    rw [push_head, if_neg]
    rintro ⟨-, hnil, -⟩
    rw [hnil] at hh
    cases hh
  have hne : s.chain k ≠ [] := by
    intro hnil
    rw [hnil] at hk
    cases hk
  have hl := (hs.push h v).links_chain k
  rw [hhead] at hl
  exact hl.unique ((hs.links_chain k).push hs v hne (hh.trans hk.symm))

/-- The only old node that changes is the tail, and it is in no other chain. -/
theorem push_chain_of_apart (hs : s.WellLinked) (hk : k ≠ h) (hapart : ¬ s.EndTogether h k)
    (v : CellId) : (s.push h v).chain k = s.chain k := by
  have hhead : (s.push h v).head k = s.head k := by
    rw [push_head, if_neg]
    exact fun hempty ↦ hk hempty.1
  have hsame : ∀ n ∈ s.chain k, (s.push h v).nodes[n]? = s.nodes[n]? := by
    intro n hn
    have hlt := mem_chain_lt hn
    rw [push_nodes s h v hlt, if_neg]
    intro htail
    have hread : s.nodes[n]? = some s.nodes[n] := Array.getElem?_eq_getElem hlt
    have hnext := (hs.links_chain h).next_of_getLast htail hread
    exact hapart ⟨n, htail, (hs.links_chain k).getLast?_of_next hn hread hnext⟩
  have hl := (hs.push h v).links_chain k
  rw [hhead] at hl
  exact hl.unique ((hs.links_chain k).congr hsame)

theorem pushSeen (hs : s.WellLinked) (hh : h < s.handles.size) (v : CellId) :
    PushSeen s (s.push h v) h v := by
  have hvalue : (s.push h v).nodeValue s.nodes.size = v := by rw [nodeValue, push_nodes_new]
  have hold : ∀ n < s.nodes.size, (s.push h v).nodeValue n = s.nodeValue n :=
    fun n hn ↦ (Later.push s h v hs).nodeValue_eq hn
  have hmap (k : HandleId) : (s.chain k).map (s.push h v).nodeValue = s.items k :=
    List.map_congr_left fun n hn ↦ hold n (mem_chain_lt hn)
  refine ⟨fun k hk ↦ ?_, fun k hk hapart ↦ ?_, push_nodes_size s h v, hold,
    push_handles_size s h v, push_cells s h v, fun c k hc ↦ ?_⟩
  · have hchain : (s.push h v).chain k = s.chain k ++ [s.nodes.size] := by
      rcases hk with rfl | hend
      · exact hs.push_chain hh v
      · exact hs.push_chain_of_endTogether hend v
    rw [items, hchain, List.map_append, hmap, List.map_singleton, hvalue]
  · rw [items, hs.push_chain_of_apart hk hapart, hmap]
  · have hc' : (s.push h v).cell c = .list k := by rwa [cell, push_cells, ← cell]
    rw [Host.toSequence, Host.handle, hc']
    rfl

end WellLinked

theorem pushBack_of_list {l : CellId} (hl : s.cell l = .list h) (v : CellId) :
    Host.pushBack l v s = .ok (s.push h v) := by
  rw [Host.pushBack, Host.handle, hl]
  rfl

theorem execute_push {l : CellId} {trace : Array Event} (hl : s.cell l = .list h) (v : CellId) :
    (Builtin.applyPush [v, l]).execute ⟨s, trace⟩ = (.ok l, ⟨s.push h v, trace⟩) := by
  rw [Builtin.applyPush, EvalM.execute_bind_ok (EvalM.execute_listOperand .push hl)]
  rfl

theorem execute_cdr_of_singleton {l : CellId} {trace : Array Event} (hl : s.cell l = .list h)
    (hone : (s.items h).length = 1) :
    (Builtin.applyCdr [l]).execute ⟨s, trace⟩ =
      (.ok (s.addList []).1, ⟨(s.addList []).2, trace⟩) := by
  rw [items, List.length_map] at hone
  obtain ⟨n, hchain⟩ := List.length_eq_one_iff.1 hone
  have hsplit : s.split? h = some (s.nodeValue n, none) := by rw [split?, hchain]; rfl
  rw [Builtin.applyCdr, EvalM.execute_bind_ok (EvalM.execute_listOperand .cdr hl),
    EvalM.execute_bind_ok EvalM.execute_getStore]
  simp only [hsplit]
  rfl

theorem WellLinked.items_addList_nil (hs : s.WellLinked) (k : HandleId) :
    (s.addList []).2.items k = s.items k := by
  have hhead : (s.addList []).2.head k = s.head k := by
    rw [head, head, addList_handles, Array.getElem?_push]
    split
    case isTrue hk => rw [Array.getElem?_eq_none (Nat.le_of_eq hk.symm)]; rfl
    case isFalse => rfl
  have hl := (hs.addList []).links_chain k
  rw [hhead] at hl
  have hchain : (s.addList []).2.chain k = s.chain k :=
    hl.unique ((hs.links_chain k).congr fun _ _ ↦ rfl)
  rw [items, hchain]
  rfl

theorem chain_addList_nil (s : Store) : (s.addList []).2.chain s.handles.size = [] := by
  have hnew : (s.addList []).2.head s.handles.size = none := by
    rw [head, addList_handles, Array.getElem?_push, if_pos rfl]
    rfl
  rw [chain, hnew]
  exact Links.nil.chainFrom_eq (Nat.zero_le _)

theorem WellLinked.push_addList_nil (hs : s.WellLinked) (hh : h < s.handles.size) (v : CellId) :
    ((s.addList []).2.push h v).items s.handles.size = [] ∧
      ((s.addList []).2.push s.handles.size v).items h = s.items h := by
  have hs' := hs.addList []
  have hsize : (s.addList []).2.handles.size = s.handles.size + 1 := by
    rw [addList_handles, Array.size_push]
  have hne : s.handles.size ≠ h := Nat.ne_of_gt hh
  have hempty := chain_addList_nil s
  have hapart : ∀ k, ¬ (s.addList []).2.EndTogether k s.handles.size := by
    rintro k ⟨n, -, hn⟩
    rw [hempty] at hn
    cases hn
  have hapart' : ¬ (s.addList []).2.EndTogether s.handles.size h :=
    fun ⟨n, hn, hn'⟩ ↦ hapart h ⟨n, hn', hn⟩
  have hlt : h < (s.addList []).2.handles.size := by
    rw [hsize]
    exact Nat.lt_succ_of_lt hh
  have hlt' : s.handles.size < (s.addList []).2.handles.size := by
    rw [hsize]
    exact Nat.lt_succ_self _
  refine ⟨?_, ?_⟩
  · rw [(hs'.pushSeen hlt v).unseen _ hne (hapart h), items, hempty, List.map_nil]
  · rw [(hs'.pushSeen hlt' v).unseen h hne.symm hapart', hs.items_addList_nil]

end Store

open Store

/-- Who sees a push, at every moment of every session and in every store that can be built. What is
pushed through a handle is seen, at the end, through this handle and through those whose chains end
in the same node; every other list is as it was. One node is added, no node loses its value, and
the cells stay what they are. This is what both push operations do through the handle of a list
cell. The rest of a list with one item is a new empty list, and pushes onto either of the two are
not seen through the other. -/
theorem push_seen_through_shared_ends :
    (∀ cfg es s, Session.Moment cfg es s → s.Built) ∧
    ∀ (s : Store) (h : HandleId), s.Built → h < s.handles.size →
      (∀ v, PushSeen s (s.push h v) h v) ∧
      ∀ l, s.cell l = .list h →
        (∀ v, Host.pushBack l v s = .ok (s.push h v) ∧
          ∀ depth trace, (Builtin.apply depth .push [v, l]).execute ⟨s, trace⟩ =
            (.ok l, ⟨s.push h v, trace⟩)) ∧
        ((s.items h).length = 1 → ∀ depth trace, ∃ r y s₁,
          (Builtin.apply depth .cdr [l]).execute ⟨s, trace⟩ = (.ok r, ⟨s₁, trace⟩) ∧
          s₁.cell r = .list y ∧ s.handles.size ≤ y ∧ s₁.items y = [] ∧
          ∀ v, (s₁.push h v).items y = [] ∧ (s₁.push y v).items h = s.items h) := by
  refine ⟨fun cfg es s hs ↦ hs.built, ?_⟩
  intro s h hs hh
  have hlinked := hs.whole.wellFormed.linked
  refine ⟨hlinked.pushSeen hh, fun l hl ↦ ⟨fun v ↦ ?_, fun hone depth trace ↦ ?_⟩⟩
  · exact ⟨pushBack_of_list hl v, fun _ _ ↦ execute_push hl v⟩
  · have hcell : (s.addList []).2.cell (s.addList []).1 = .list s.handles.size := by
      rw [cell, addList_cells, addList_fst, Array.getElem?_push, if_pos rfl]
      rfl
    have hempty : (s.addList []).2.items s.handles.size = [] := by
      rw [items, chain_addList_nil, List.map_nil]
    exact ⟨_, _, _, execute_cdr_of_singleton hl hone, hcell, Nat.le_refl _, hempty,
      hlinked.push_addList_nil hh⟩

theorem facts_tailInside :
    tailInside.items 0 = [1, 1, 4] ∧ tailInside.items 1 = [1, 4] ∧ tailInside.items 2 = [1] ∧
      (tailInside.chain 0).getLast? = some 2 ∧ (tailInside.chain 1).getLast? = some 2 ∧
      (tailInside.chain 2).getLast? = some 3 := by
  decide +kernel

/-- A list is pushed onto the tail of another one, which is quoted inside it. Both see the push, and
the list that is pushed does not; neither does its rest see a push onto it. -/
theorem push_seen_tailInside :
    tailInside.Built ∧ tailInside.cell 3 = .list 1 ∧ tailInside.EndTogether 1 0 ∧
      Host.pushBack 3 5 tailInside = .ok (tailInside.push 1 5) ∧
      (tailInside.push 1 5).items 0 = [1, 1, 4, 5] ∧ (tailInside.push 1 5).items 1 = [1, 4, 5] ∧
      (tailInside.push 1 5).items 2 = [1] ∧
      tailInside.cell 5 = .list 2 ∧ (tailInside.items 2).length = 1 ∧
      ∃ r y s₁, (Builtin.apply 0 .cdr [5]).execute ⟨tailInside, #[]⟩ = (.ok r, ⟨s₁, #[]⟩) ∧
        s₁.cell r = .list y ∧ (s₁.push 2 1).items y = [] := by
  obtain ⟨-, hpush⟩ := push_seen_through_shared_ends
  obtain ⟨hitems, htail, hone, hlast, hlast', hlast''⟩ := facts_tailInside
  have hend : tailInside.EndTogether 1 0 := ⟨2, hlast', hlast⟩
  have hapart : ¬ tailInside.EndTogether 1 2 := by
    rintro ⟨n, hn, hn'⟩
    rw [hlast'] at hn
    rw [hlast'', ← hn] at hn'
    cases hn'
  have hlength : (tailInside.items 2).length = 1 := by rw [hone]; rfl
  obtain ⟨hseen, hcell⟩ := hpush tailInside 1 built_tailInside (by decide)
  obtain ⟨-, hcell'⟩ := hpush tailInside 2 built_tailInside (by decide)
  obtain ⟨r, y, s₁, hcdr, hr, -, -, hrest⟩ := (hcell' 5 rfl).2 hlength 0 #[]
  refine ⟨built_tailInside, rfl, hend, ((hcell 3 rfl).1 5).1, ?_, ?_, ?_, rfl, hlength,
    r, y, s₁, hcdr, hr, (hrest 1).1⟩
  · rw [(hseen 5).seen 0 (.inr hend), hitems]
    rfl
  · rw [(hseen 5).seen 1 (.inl rfl), htail]
    rfl
  · rw [(hseen 5).unseen 2 nofun hapart, hone]

end LittleLisp
