import LittleLisp.Store.Chain

/-!
Chains as a relation between a first node and all nodes from there on. In a well linked store every
chain ends. New chains and pushes are described by the nodes and heads that are there afterwards.
-/

namespace LittleLisp.Store

variable {s s' : Store} {o : Option NodeId} {ns ms : List NodeId}

/-- The nodes from `o` to the end of its chain. -/
inductive Links (s : Store) : Option NodeId → List NodeId → Prop
  | nil : Links s none []
  | cons {n : Nat} {node : Node} {ns : List NodeId} (read : s.nodes[n]? = some node)
      (rest : Links s node.next ns) : Links s (some n) (n :: ns)

namespace Links

theorem chainFrom_eq (h : Links s o ns) {fuel : Nat} (hf : ns.length ≤ fuel) :
    s.chainFrom fuel o = ns := by
  induction h generalizing fuel with
  | nil => cases fuel <;> rfl
  | cons read rest ih =>
    cases fuel with
    | zero => simp at hf
    | succ fuel => simp only [chainFrom, read, ih (Nat.le_of_succ_le_succ hf)]

theorem unique (h : Links s o ns) (h' : Links s o ms) : ns = ms := by
  induction h generalizing ms with
  | nil => cases h'; rfl
  | cons read rest ih =>
    cases h' with
    | cons read' rest' =>
      cases read.symm.trans read'
      rw [ih rest']

theorem congr (h : Links s o ns) (hn : ∀ n ∈ ns, s'.nodes[n]? = s.nodes[n]?) : Links s' o ns := by
  induction h with
  | nil => exact .nil
  | cons read rest ih =>
    refine .cons ((hn _ List.mem_cons_self).trans read) (ih fun n h ↦ hn n ?_)
    exact List.mem_cons_of_mem _ h

theorem mem_next (h : Links s o ns) {n k : Nat} {node : Node} (hn : n ∈ ns)
    (hread : s.nodes[n]? = some node) (hk : node.next = some k) : k ∈ ns := by
  induction h with
  | nil => cases hn
  | cons read rest ih =>
    rcases List.mem_cons.1 hn with rfl | hn
    · cases read.symm.trans hread
      rw [hk] at rest
      cases rest
      exact List.mem_cons_of_mem _ List.mem_cons_self
    · exact List.mem_cons_of_mem _ (ih hn)

theorem mem_lt (h : Links s o ns) {n : Nat} (hn : n ∈ ns) : n < s.nodes.size := by
  induction h with
  | nil => cases hn
  | cons read rest ih =>
    rcases List.mem_cons.1 hn with rfl | hn
    · exact (Array.getElem?_eq_some_iff.1 read).1
    · exact ih hn

end Links

structure WellLinked (s : Store) : Prop where
  head_lt : ∀ {h : HandleId} {n : Nat}, s.head h = some n → n < s.nodes.size
  next_gt : ∀ {n m : Nat} {node : Node}, s.nodes[n]? = some node → node.next = some m → n < m
  next_lt : ∀ {n m : Nat} {node : Node}, s.nodes[n]? = some node → node.next = some m →
    m < s.nodes.size

namespace WellLinked

theorem links_from (hs : s.WellLinked) (n : Nat) (hn : n < s.nodes.size) :
    ∃ ns, Links s (some n) ns ∧ ns.length + n ≤ s.nodes.size := by
  -- Later nodes have shorter chains.
  induction hk : s.nodes.size - n using Nat.strongRecOn generalizing n with
  | ind k ih =>
    have hread : s.nodes[n]? = some s.nodes[n] := Array.getElem?_eq_getElem hn
    cases hnext : s.nodes[n].next with
    | none => exact ⟨[n], .cons hread (hnext ▸ .nil), by simp; omega⟩
    | some m =>
      have hgt := hs.next_gt hread hnext
      have hlt := hs.next_lt hread hnext
      obtain ⟨ns, hlinks, hlen⟩ := ih (s.nodes.size - m) (by omega) m hlt rfl
      refine ⟨n :: ns, .cons hread (hnext ▸ hlinks), ?_⟩
      rw [List.length_cons]
      omega

theorem links_chain (hs : s.WellLinked) (h : HandleId) : Links s (s.head h) (s.chain h) := by
  unfold chain
  cases hh : s.head h with
  | none =>
    rw [Links.nil.chainFrom_eq (Nat.zero_le _)]
    exact .nil
  | some n =>
    obtain ⟨ns, hlinks, hlen⟩ := hs.links_from n (hs.head_lt hh)
    rwa [hlinks.chainFrom_eq (by omega)]

theorem mem_chain_of_head (hs : s.WellLinked) {h n : Nat} (hh : s.head h = some n) :
    n ∈ s.chain h := by
  have hl := hs.links_chain h
  rw [hh] at hl
  generalize s.chain h = ns at hl
  cases hl
  exact List.mem_cons_self

theorem chain_length (hs : s.WellLinked) (h : HandleId) : (s.chain h).length ≤ s.nodes.size := by
  have hl := hs.links_chain h
  cases hh : s.head h with
  | none =>
    rw [hh] at hl
    rw [hl.unique .nil]
    exact Nat.zero_le _
  | some n =>
    obtain ⟨ns, hlinks, hlen⟩ := hs.links_from n (hs.head_lt hh)
    rw [hh] at hl
    rw [hl.unique hlinks]
    omega

end WellLinked

theorem Links.chain_eq {h : HandleId} (hl : Links s (s.head h) ns)
    (hn : ns.length ≤ s.nodes.size) : s.chain h = ns :=
  hl.chainFrom_eq hn

theorem mem_chainFrom_lt {fuel : Nat} {n : Nat} (hn : n ∈ s.chainFrom fuel o) :
    n < s.nodes.size := by
  induction fuel generalizing o with
  | zero => simp [chainFrom] at hn
  | succ fuel ih =>
    cases o with
    | none => simp [chainFrom] at hn
    | some m =>
      simp only [chainFrom] at hn
      split at hn
      case h_1 hread =>
        rcases List.mem_cons.1 hn with rfl | hn
        · exact (Array.getElem?_eq_some_iff.1 hread).1
        · exact ih hn
      case h_2 => cases hn

theorem mem_chain_lt {h : HandleId} {n : Nat} (hn : n ∈ s.chain h) : n < s.nodes.size :=
  mem_chainFrom_lt hn

theorem lt_of_head {h n : Nat} (hh : s.head h = some n) : h < s.handles.size := by
  refine Nat.lt_of_not_ge fun hlt ↦ ?_
  rw [head, Array.getElem?_eq_none hlt] at hh
  cases hh

theorem chain_of_split? {h : HandleId} {v : CellId} {r : Option NodeId}
    (hs : s.split? h = some (v, r)) :
    ∃ n rest, s.chain h = n :: rest ∧ v = s.nodeValue n ∧ r = rest.head? := by
  unfold split? at hs
  split at hs
  case h_1 => cases hs
  case h_2 n rest hchain =>
    cases hs
    exact ⟨n, rest, hchain, rfl, rfl⟩

section Push

variable (s) (h : HandleId) (v : CellId)

@[simp] theorem push_cells : (s.push h v).cells = s.cells := by
  unfold push
  split <;> rfl

@[simp] theorem push_scopes : (s.push h v).scopes = s.scopes := by
  unfold push
  split <;> rfl

@[simp] theorem push_nodes_size : (s.push h v).nodes.size = s.nodes.size + 1 := by
  unfold push
  split <;> simp

@[simp] theorem push_handles_size : (s.push h v).handles.size = s.handles.size := by
  unfold push
  split <;> simp

theorem push_nodes {n : Nat} (hn : n < s.nodes.size) :
    (s.push h v).nodes[n]? =
      if (s.chain h).getLast? = some n then
        s.nodes[n]?.map ({ · with next := some s.nodes.size })
      else s.nodes[n]? := by
  unfold push
  split
  case h_1 hnone => simp [hnone, Array.getElem?_push, Nat.ne_of_lt hn]
  case h_2 tail hlast =>
    simp only [hlast, Array.getElem?_modify, Array.getElem?_push, Nat.ne_of_lt hn, if_false,
      Option.some.injEq]

theorem push_nodes_new : (s.push h v).nodes[s.nodes.size]? = some ⟨v, none⟩ := by
  unfold push
  split
  case h_1 => simp
  case h_2 tail hlast =>
    have htail : tail ≠ s.nodes.size := Nat.ne_of_lt (mem_chain_lt (List.mem_of_getLast? hlast))
    rw [Array.getElem?_modify, if_neg htail, Array.getElem?_push_size]

theorem push_handles :
    (s.push h v).handles =
      if s.chain h = [] then s.handles.setIfInBounds h (some s.nodes.size) else s.handles := by
  unfold push
  split
  case h_1 hnone => rw [if_pos (List.getLast?_eq_none_iff.1 hnone)]
  case h_2 tail hlast =>
    rw [if_neg]
    rintro hnil
    simp [hnil] at hlast

theorem push_head (k : HandleId) :
    (s.push h v).head k =
      if k = h ∧ s.chain h = [] ∧ h < s.handles.size then some s.nodes.size else s.head k := by
  unfold push
  split
  case h_1 hnone =>
    have hnil : s.chain h = [] := List.getLast?_eq_none_iff.1 hnone
    by_cases hk : k = h
    · subst hk
      by_cases hlt : k < s.handles.size <;> simp [head, hnil, hlt]
    · simp [head, hk, Ne.symm hk]
  case h_2 hlast =>
    have hne : s.chain h ≠ [] := by
      rintro hnil
      simp [hnil] at hlast
    simp [head, hne]

/-- A node after a push is the new one, the tail that now leads to it, or a node as it was. -/
theorem push_node_cases {n : Nat} {node : Node} (hread : (s.push h v).nodes[n]? = some node) :
    (n = s.nodes.size ∧ node = ⟨v, none⟩) ∨
      (∃ old, s.nodes[n]? = some old ∧ (s.chain h).getLast? = some n ∧
        node = { old with next := some s.nodes.size }) ∨
      s.nodes[n]? = some node := by
  have hlt := (Array.getElem?_eq_some_iff.1 hread).1
  rw [push_nodes_size] at hlt
  rcases Nat.lt_succ_iff_lt_or_eq.1 hlt with hlt | rfl
  · rw [push_nodes _ _ _ hlt] at hread
    split at hread
    case isTrue hlast =>
      obtain ⟨old, hold, rfl⟩ := Option.map_eq_some_iff.1 hread
      exact .inr (.inl ⟨old, hold, hlast, rfl⟩)
    case isFalse => exact .inr (.inr hread)
  · rw [push_nodes_new] at hread
    cases hread
    exact .inl ⟨rfl, rfl⟩

end Push

section AddChain

variable (vs : List CellId) (s : Store)

@[simp] theorem addChain_cells : (addChain vs s).2.cells = s.cells := by
  induction vs generalizing s with
  | nil => rfl
  | cons v vs ih => exact ih _

@[simp] theorem addChain_handles : (addChain vs s).2.handles = s.handles := by
  induction vs generalizing s with
  | nil => rfl
  | cons v vs ih => exact ih _

@[simp] theorem addChain_scopes : (addChain vs s).2.scopes = s.scopes := by
  induction vs generalizing s with
  | nil => rfl
  | cons v vs ih => exact ih _

@[simp] theorem addChain_nodes_size :
    (addChain vs s).2.nodes.size = s.nodes.size + vs.length := by
  induction vs generalizing s with
  | nil => rfl
  | cons v vs ih =>
    rw [addChain, ih]
    simp [Nat.add_assoc, Nat.add_comm 1]

theorem addChain_nodes_old {n : Nat} (hn : n < s.nodes.size) :
    (addChain vs s).2.nodes[n]? = s.nodes[n]? := by
  induction vs generalizing s with
  | nil => rfl
  | cons v vs ih =>
    rw [addChain, ih]
    · simp [Array.getElem?_push, Nat.ne_of_lt hn]
    · simp only [Array.size_push]
      omega

theorem addChain_fst : (addChain vs s).1 = if vs = [] then none else some s.nodes.size := by
  cases vs <;> rfl

theorem addChain_nodes_new {i : Nat} {v : CellId} (hi : vs[i]? = some v) :
    (addChain vs s).2.nodes[s.nodes.size + i]? =
      some ⟨v, if i + 1 < vs.length then some (s.nodes.size + i + 1) else none⟩ := by
  induction vs generalizing s i with
  | nil => simp at hi
  | cons w vs ih =>
    cases i with
    | zero =>
      obtain rfl : w = v := by simpa using hi
      rw [addChain, addChain_nodes_old]
      · cases vs <;> simp
      · simp
    | succ i =>
      obtain ⟨s', hs', hsize⟩ : ∃ s', (addChain (w :: vs) s).2 = (addChain vs s').2 ∧
          s'.nodes.size = s.nodes.size + 1 := ⟨_, rfl, by simp⟩
      have h := ih s' (by simpa using hi)
      rw [hsize] at h
      rw [hs', ← Nat.add_assoc, Nat.add_right_comm, h]
      simp only [List.length_cons, Nat.add_lt_add_iff_right]

theorem addChain_node_cases {n : Nat} {node : Node}
    (hread : (addChain vs s).2.nodes[n]? = some node) :
    s.nodes[n]? = some node ∨ ∃ i v, n = s.nodes.size + i ∧ vs[i]? = some v ∧
      node = ⟨v, if i + 1 < vs.length then some (s.nodes.size + i + 1) else none⟩ := by
  have hlt := (Array.getElem?_eq_some_iff.1 hread).1
  rw [addChain_nodes_size] at hlt
  rcases Nat.lt_or_ge n s.nodes.size with hn | hn
  · rw [addChain_nodes_old vs s hn] at hread
    exact .inl hread
  · obtain ⟨i, rfl⟩ := Nat.exists_eq_add_of_le hn
    have hi : i < vs.length := by omega
    rw [addChain_nodes_new vs s (List.getElem?_eq_getElem hi)] at hread
    cases hread
    exact .inr ⟨i, vs[i], rfl, List.getElem?_eq_getElem hi, rfl⟩

theorem links_addChain :
    Links (addChain vs s).2 (addChain vs s).1 (List.range' s.nodes.size vs.length) := by
  induction vs generalizing s with
  | nil => exact .nil
  | cons v vs ih =>
    obtain ⟨s', hs', hsize⟩ : ∃ s', (addChain (v :: vs) s).2 = (addChain vs s').2 ∧
        s'.nodes.size = s.nodes.size + 1 := ⟨_, rfl, by simp⟩
    have hread := addChain_nodes_new (v :: vs) s (i := 0) rfl
    have hrest := ih s'
    rw [addChain_fst, hsize, ← hs'] at hrest
    refine .cons hread ?_
    cases vs with
    | nil => exact .nil
    | cons w vs => simpa using hrest

theorem nodeValue_addChain :
    (List.range' s.nodes.size vs.length).map (addChain vs s).2.nodeValue = vs := by
  refine List.ext_getElem? fun i ↦ ?_
  by_cases hi : i < vs.length
  · have hval : (addChain vs s).2.nodeValue (s.nodes.size + i) = vs[i] := by
      simp only [nodeValue, addChain_nodes_new vs s (List.getElem?_eq_getElem hi)]
    simp [hi, hval]
  · simp [hi]

end AddChain

section AddList

variable (vs : List CellId) (s : Store)

@[simp] theorem addList_fst : (addList vs s).1 = s.cells.size := by
  simp [addList, addListFrom, addHandle, addCell]

@[simp] theorem addList_cells : (addList vs s).2.cells = s.cells.push (.list s.handles.size) := by
  simp [addList, addListFrom, addHandle, addCell]

@[simp] theorem addList_handles :
    (addList vs s).2.handles = s.handles.push (addChain vs s).1 := by
  simp [addList, addListFrom, addHandle, addCell]

@[simp] theorem addList_nodes : (addList vs s).2.nodes = (addChain vs s).2.nodes := rfl

@[simp] theorem addList_scopes : (addList vs s).2.scopes = s.scopes := by
  simp [addList, addListFrom, addHandle, addCell]

theorem links_addList :
    Links (addList vs s).2 (addChain vs s).1 (List.range' s.nodes.size vs.length) :=
  (links_addChain vs s).congr fun _ _ ↦ rfl

end AddList

namespace WellLinked

theorem of_eq (hs : s.WellLinked) (hh : s'.handles = s.handles) (hn : s'.nodes = s.nodes) :
    s'.WellLinked := by
  refine ⟨fun {h n} hhead ↦ ?_, fun {n k node} hread ↦ ?_, fun {n k node} hread ↦ ?_⟩
  · rw [head, hh] at hhead
    rw [hn]
    exact hs.head_lt hhead
  · rw [hn] at hread
    exact hs.next_gt hread
  · rw [hn] at hread ⊢
    exact hs.next_lt hread

theorem addListFrom (hs : s.WellLinked) (ho : ∀ n : Nat, o = some n → n < s.nodes.size) :
    (s.addListFrom o).2.WellLinked := by
  refine ⟨fun {h n} hhead ↦ ?_, hs.next_gt, hs.next_lt⟩
  by_cases hh : h = s.handles.size
  · subst hh
    exact ho n (by simpa [head, Store.addListFrom, addHandle, addCell] using hhead)
  · refine hs.head_lt (h := h) ?_
    simpa [head, Store.addListFrom, addHandle, addCell, Array.getElem?_push, hh] using hhead

theorem addChain (hs : s.WellLinked) (vs : List CellId) : (s.addChain vs).2.WellLinked := by
  refine ⟨fun {h n} hhead ↦ ?_, fun {n k node} hread hnext ↦ ?_, fun {n k node} hread hnext ↦ ?_⟩
  · rw [head, addChain_handles] at hhead
    rw [addChain_nodes_size]
    exact Nat.lt_add_right _ (hs.head_lt hhead)
  all_goals
    obtain hold | ⟨i, v, rfl, hi, rfl⟩ := addChain_node_cases vs s hread
  · exact hs.next_gt hold hnext
  · obtain ⟨-, ⟨⟩⟩ := Option.ite_none_right_eq_some.1 hnext
    exact Nat.lt_succ_self _
  · rw [addChain_nodes_size]
    exact Nat.lt_add_right _ (hs.next_lt hold hnext)
  · rw [addChain_nodes_size]
    obtain ⟨hlast, ⟨⟩⟩ := Option.ite_none_right_eq_some.1 hnext
    omega

theorem addList (hs : s.WellLinked) (vs : List CellId) : (s.addList vs).2.WellLinked := by
  refine (hs.addChain vs).addListFrom fun n hn ↦ ?_
  rw [addChain_fst] at hn
  obtain ⟨hne, ⟨⟩⟩ := Option.ite_none_left_eq_some.1 hn
  have := List.length_pos_iff.2 hne
  rw [addChain_nodes_size]
  omega

theorem push (hs : s.WellLinked) (h : HandleId) (v : CellId) : (s.push h v).WellLinked := by
  refine ⟨fun {k n} hhead ↦ ?_, fun {n k node} hread hnext ↦ ?_, fun {n k node} hread hnext ↦ ?_⟩
  · rw [push_head] at hhead
    rw [push_nodes_size]
    split at hhead
    · cases hhead
      exact Nat.lt_succ_self _
    · exact Nat.lt_succ_of_lt (hs.head_lt hhead)
  all_goals
    obtain ⟨rfl, rfl⟩ | ⟨old, hold, -, rfl⟩ | hold := push_node_cases s h v hread
  · cases hnext
  · cases hnext
    exact (Array.getElem?_eq_some_iff.1 hold).1
  · exact hs.next_gt hold hnext
  · cases hnext
  · cases hnext
    simp
  · rw [push_nodes_size]
    exact Nat.lt_succ_of_lt (hs.next_lt hold hnext)

end WellLinked

end LittleLisp.Store
