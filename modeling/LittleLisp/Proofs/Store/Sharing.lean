import LittleLisp.Proofs.Store.Growth
import Mathlib.Logic.Relation

/-!
Lists in the course of time. A run is a sequence of single operations on the store. Along a run no
node loses its value or its link, and a new link leads to a new node, so lists only grow at their
ends. No two nodes ever lead to the same node: two chains that share a node share all that follows,
and chains that share none never come together.
-/

namespace LittleLisp.Store

open Relation

variable {s s' s'' : Store}

inductive Step : Store → Store → Prop
  | addCell (s : Store) (x : Cell) : Step s (s.addCell x).2
  | addList (s : Store) (vs : List CellId) : Step s (s.addList vs).2
  | addRest {s : Store} {h : HandleId} {v : CellId} {n : NodeId}
      (split : s.split? h = some (v, some n)) : Step s (s.addListFrom (some n)).2
  | push (s : Store) (h : HandleId) (v : CellId) : Step s (s.push h v)
  | addScope (s : Store) (outer : Option ScopeId) : Step s (s.addScope outer).2
  | define (s : Store) (e : ScopeId) (n : Text) (v : CellId) : Step s (s.define e n v)

abbrev Run : Store → Store → Prop := ReflTransGen Step

theorem Step.scopes_le (h : Step s s') : s.scopes.size ≤ s'.scopes.size := by
  cases h with
  | addCell => exact (appends_addCell _ s).toExtends.scopes
  | addList => exact (appends_addList _ s).toExtends.scopes
  | addRest => exact (appends_addListFrom _ s).toExtends.scopes
  | push => exact (extends_push _ _ s).scopes
  | addScope => exact (extends_addScope _ s).scopes
  | define => exact (extends_define _ _ _ s).scopes

namespace Links

variable {o : Option NodeId} {ns ms : List NodeId} {n a b x : Nat}

theorem next_of_getLast {node : Node} (h : Links s o ns) (hlast : ns.getLast? = some n)
    (hread : s.nodes[n]? = some node) : node.next = none := by
  induction h with
  | nil => cases hlast
  | @cons k first ns read rest ih =>
    cases ns with
    | nil =>
      cases hlast
      cases read.symm.trans hread
      generalize node.next = o at rest
      cases rest
      rfl
    | cons k' ns => exact ih (by rwa [List.getLast?_cons_cons] at hlast)

theorem first_or_next (h : Links s o ns) (hx : x ∈ ns) :
    o = some x ∨ ∃ k ∈ ns, ∃ node : Node, s.nodes[k]? = some node ∧ node.next = some x := by
  induction h with
  | nil => cases hx
  | @cons k node ns read rest ih =>
    rcases List.mem_cons.1 hx with rfl | hx
    · exact .inl rfl
    · rcases ih hx with hnext | ⟨k', hk', hnode⟩
      · exact .inr ⟨k, List.mem_cons_self, node, read, hnext⟩
      · exact .inr ⟨k', List.mem_cons_of_mem k hk', hnode⟩

theorem le_of_mem (hs : s.WellLinked) (h : Links s (some n) ns) (hx : x ∈ ns) : n ≤ x := by
  induction x using Nat.strongRecOn with
  | ind x ih =>
    rcases h.first_or_next hx with hfirst | ⟨k, hk, node, hread, hnext⟩
    · cases hfirst
      exact Nat.le_refl _
    · have hlt := hs.next_gt hread hnext
      exact Nat.le_of_lt (Nat.lt_of_le_of_lt (ih k hlt hk) hlt)

end Links

/-- Every chain ends, and no two nodes lead to the same node. -/
structure Linear (s : Store) : Prop where
  linked : s.WellLinked
  next_inj : ∀ {n m k : Nat} {a b : Node}, s.nodes[n]? = some a → s.nodes[m]? = some b →
    a.next = some k → b.next = some k → n = m

/-- All nodes of `s` have their values and their links in `s'`, and where a chain ended it ends
still or goes on with a new node. -/
structure Later (s s' : Store) : Prop where
  handles : s.handles.size ≤ s'.handles.size
  nodes : s.nodes.size ≤ s'.nodes.size
  head : ∀ {h n : Nat}, s.head h = some n → s'.head h = some n
  node : ∀ {n : Nat} {a : Node}, s.nodes[n]? = some a → ∃ b, s'.nodes[n]? = some b ∧
    b.value = a.value ∧ (b.next = a.next ∨ a.next = none ∧ ∃ k, b.next = some k ∧ s.nodes.size ≤ k)

namespace Later

theorem refl (s : Store) : Later s s where
  handles := Nat.le_refl _
  nodes := Nat.le_refl _
  head := id
  node hread := ⟨_, hread, rfl, .inl rfl⟩

theorem trans (h : Later s s') (h' : Later s' s'') : Later s s'' where
  handles := Nat.le_trans h.handles h'.handles
  nodes := Nat.le_trans h.nodes h'.nodes
  head hn := h'.head (h.head hn)
  node {n a} hread := by
    obtain ⟨b, hb, hvalue, hnext⟩ := h.node hread
    obtain ⟨c, hc, hvalue', hnext'⟩ := h'.node hb
    refine ⟨c, hc, hvalue'.trans hvalue, ?_⟩
    rcases hnext' with hsame | ⟨hend, k, hk, hle⟩
    · rw [hsame]
      exact hnext
    · rcases hnext with hnext | ⟨-, k', hk', -⟩
      · exact .inr ⟨hnext ▸ hend, k, hk, Nat.le_trans h.nodes hle⟩
      · rw [hend] at hk'
        cases hk'

theorem of_appends (h : Appends s s') : Later s s' where
  handles := h.handles_size
  nodes := h.nodes_size
  head {i n} hn := by
    have hread := Array.getElem?_eq_getElem (lt_of_head hn)
    rw [← hn, Store.head, Store.head, hread, h.handles hread]
  node hread := ⟨_, h.nodes hread, rfl, .inl rfl⟩

theorem of_eq (hh : s'.handles = s.handles) (hn : s'.nodes = s.nodes) : Later s s' where
  handles := Nat.le_of_eq (by rw [hh])
  nodes := Nat.le_of_eq (by rw [hn])
  head hhead := by rwa [Store.head, hh]
  node hread := ⟨_, hn ▸ hread, rfl, .inl rfl⟩

theorem push (s : Store) (h : HandleId) (v : CellId) (hs : s.WellLinked) :
    Later s (s.push h v) where
  handles := by simp
  nodes := by simp
  head {k n} hhead := by
    rw [push_head, if_neg, hhead]
    rintro ⟨rfl, hnil, -⟩
    have hmem := hs.mem_chain_of_head hhead
    rw [hnil] at hmem
    cases hmem
  node {n a} hread := by
    rw [push_nodes _ _ _ (Array.getElem?_eq_some_iff.1 hread).1, hread]
    split
    case isTrue hlast =>
      refine ⟨_, rfl, rfl, .inr ⟨?_, s.nodes.size, rfl, Nat.le_refl _⟩⟩
      exact (hs.links_chain h).next_of_getLast hlast hread
    case isFalse => exact ⟨a, rfl, rfl, .inl rfl⟩

theorem links (h : Later s s') (hs' : s'.WellLinked) {o : Option NodeId} {ns : List NodeId}
    (hl : Links s o ns) (hne : ns ≠ []) :
    ∃ ms, Links s' o (ns ++ ms) ∧ ∀ n ∈ ms, s.nodes.size ≤ n := by
  induction hl with
  | nil => exact absurd rfl hne
  | @cons n a ns read rest ih =>
    obtain ⟨b, hb, -, hnext⟩ := h.node read
    cases ns with
    | cons k ns =>
      have hsame : b.next = a.next := by
        refine hnext.resolve_right ?_
        rintro ⟨hend, -⟩
        rw [hend] at rest
        cases rest
      obtain ⟨ms, hms, hnew⟩ := ih (List.cons_ne_nil k ns)
      exact ⟨ms, .cons hb (hsame ▸ hms), hnew⟩
    | nil =>
      have hend : a.next = none := by
        generalize a.next = o at rest
        cases rest
        rfl
      cases hb' : b.next with
      | none => exact ⟨[], .cons hb (hb' ▸ .nil), nofun⟩
      | some k =>
        -- The chain goes on with `k`, and all that follows it is newer still.
        obtain ⟨ms, hms, -⟩ := hs'.links_from k (hs'.next_lt hb hb')
        refine ⟨ms, .cons hb (hb' ▸ hms), fun x hx ↦ ?_⟩
        have hk : s.nodes.size ≤ k := by
          rcases hnext with hsame | ⟨-, k', hk', hle⟩
          · rw [hb', hend] at hsame
            cases hsame
          · cases hb'.symm.trans hk'
            exact hle
        exact Nat.le_trans hk (hms.le_of_mem hs' hx)

theorem nodeValue_eq (h : Later s s') {n : Nat} (hn : n < s.nodes.size) :
    s'.nodeValue n = s.nodeValue n := by
  have hread : s.nodes[n]? = some s.nodes[n] := Array.getElem?_eq_getElem hn
  obtain ⟨b, hb, hvalue, -⟩ := h.node hread
  rw [nodeValue, nodeValue, hb, hread]
  exact hvalue

theorem chain (h : Later s s') (hs : s.WellLinked) (hs' : s'.WellLinked) {l : HandleId}
    (hne : s.chain l ≠ []) :
    ∃ ms, s'.chain l = s.chain l ++ ms ∧ ∀ n ∈ ms, s.nodes.size ≤ n := by
  have hl := hs.links_chain l
  obtain ⟨ms, hms, hnew⟩ := h.links hs' hl hne
  refine ⟨ms, ?_, hnew⟩
  cases hh : s.head l with
  | none =>
    rw [hh] at hl
    exact absurd (hl.unique .nil) hne
  | some n =>
    have hl' := hs'.links_chain l
    rw [h.head hh] at hl'
    rw [hh] at hms
    exact hl'.unique hms

theorem items_prefix (h : Later s s') (hs : s.WellLinked) (hs' : s'.WellLinked) (l : HandleId) :
    s.items l <+: s'.items l := by
  by_cases hnil : s.chain l = []
  · rw [items, hnil]
    exact List.nil_prefix
  · obtain ⟨ms, hms, -⟩ := h.chain hs hs' hnil
    have hold : (s.chain l).map s'.nodeValue = (s.chain l).map s.nodeValue :=
      List.map_congr_left fun n hn ↦ h.nodeValue_eq (mem_chain_lt hn)
    exact ⟨ms.map s'.nodeValue, by rw [items, items, hms, List.map_append, hold]⟩

end Later

namespace Linear

theorem of_eq (hs : s.Linear) (hh : s'.handles = s.handles) (hn : s'.nodes = s.nodes) :
    s'.Linear := by
  refine ⟨hs.linked.of_eq hh hn, ?_⟩
  rw [hn]
  exact hs.next_inj

theorem addListFrom (hs : s.Linear) {o : Option NodeId}
    (ho : ∀ n : Nat, o = some n → n < s.nodes.size) : (s.addListFrom o).2.Linear :=
  ⟨hs.linked.addListFrom ho, hs.next_inj⟩

theorem addList (hs : s.Linear) (vs : List CellId) : (s.addList vs).2.Linear := by
  refine ⟨hs.linked.addList vs, fun {n m k a b} hn hm ha hb ↦ ?_⟩
  rw [addList_nodes] at hn hm
  obtain hn | ⟨i, v, rfl, hi, rfl⟩ := addChain_node_cases vs s hn <;>
    obtain hm | ⟨j, w, rfl, hj, rfl⟩ := addChain_node_cases vs s hm
  · exact hs.next_inj hn hm ha hb
  · obtain ⟨-, ⟨⟩⟩ := Option.ite_none_right_eq_some.1 hb
    have := hs.linked.next_lt hn ha
    omega
  · obtain ⟨-, ⟨⟩⟩ := Option.ite_none_right_eq_some.1 ha
    have := hs.linked.next_lt hm hb
    omega
  · obtain ⟨-, ⟨⟩⟩ := Option.ite_none_right_eq_some.1 ha
    obtain ⟨-, hk⟩ := Option.ite_none_right_eq_some.1 hb
    exact (Nat.succ.inj (Option.some.inj hk)).symm

theorem push (hs : s.Linear) (h : HandleId) (v : CellId) : (s.push h v).Linear := by
  refine ⟨hs.linked.push h v, fun {n m k a b} hn hm ha hb ↦ ?_⟩
  have hold {i : Nat} {c : Node} (hi : s.nodes[i]? = some c) (hc : c.next = some k) :
      k < s.nodes.size := hs.linked.next_lt hi hc
  obtain ⟨rfl, rfl⟩ | ⟨c, -, hc, rfl⟩ | hn := push_node_cases s h v hn <;>
    obtain ⟨rfl, rfl⟩ | ⟨d, -, hd, rfl⟩ | hm := push_node_cases s h v hm
  · cases ha
  · cases ha
  · cases ha
  · cases hb
  · exact Option.some.inj (hc.symm.trans hd)
  · cases ha
    exact absurd (hold hm hb) (Nat.lt_irrefl _)
  · cases hb
  · cases hb
    exact absurd (hold hn ha) (Nat.lt_irrefl _)
  · exact hs.next_inj hn hm ha hb

theorem first_mem_of_shared (hs : s.Linear) {a b x : Nat} {ns ms : List NodeId}
    (hns : Links s (some a) ns) (hms : Links s (some b) ms) (hx : x ∈ ns) (hx' : x ∈ ms) :
    b ∈ ns ∨ a ∈ ms := by
  induction x using Nat.strongRecOn with
  | ind x ih =>
    rcases hns.first_or_next hx with hfirst | ⟨k, hk, node, hread, hnext⟩
    · cases hfirst
      exact .inr hx'
    · rcases hms.first_or_next hx' with hfirst | ⟨k', hk', node', hread', hnext'⟩
      · cases hfirst
        exact .inl hx
      · -- Both chains come to `x` from the same node.
        have hkk := hs.next_inj hread hread' hnext hnext'
        exact ih k (hs.linked.next_gt hread hnext) hk (hkk ▸ hk')

end Linear

theorem Step.linear (h : Step s s') (hs : s.Linear) : s'.Linear ∧ Later s s' := by
  cases h with
  | addCell x => exact ⟨hs.of_eq rfl rfl, .of_appends (appends_addCell x s)⟩
  | addList vs => exact ⟨hs.addList vs, .of_appends (appends_addList vs s)⟩
  | @addRest h v n split =>
    refine ⟨hs.addListFrom ?_, .of_appends (appends_addListFrom _ s)⟩
    rintro k ⟨⟩
    obtain ⟨first, rest, hchain, -, hn⟩ := chain_of_split? split
    have hmem : n ∈ s.chain h := by
      rw [hchain]
      exact List.mem_cons_of_mem first (List.mem_of_head? hn.symm)
    exact mem_chain_lt hmem
  | push h v => exact ⟨hs.push h v, .push s h v hs.linked⟩
  | addScope outer => exact ⟨hs.of_eq rfl rfl, .of_eq rfl rfl⟩
  | define e n v => exact ⟨hs.of_eq rfl rfl, .of_eq rfl rfl⟩

theorem Run.linear (h : Run s s') (hs : s.Linear) : s'.Linear ∧ Later s s' := by
  induction h with
  | refl => exact ⟨hs, .refl s⟩
  | tail _ step ih =>
    obtain ⟨hlinear, hlater⟩ := ih
    obtain ⟨hlinear', hlater'⟩ := step.linear hlinear
    exact ⟨hlinear', hlater.trans hlater'⟩

theorem linear_empty : Store.empty.Linear where
  linked := ⟨nofun, nofun, nofun⟩
  next_inj := nofun

theorem Later.chains_disjoint (h : Later s s') (hs : s.WellLinked) (hs' : s'.Linear)
    {l k : HandleId} (hl : s.chain l ≠ []) (hk : s.chain k ≠ [])
    (hd : ∀ n ∈ s.chain l, n ∉ s.chain k) : ∀ n ∈ s'.chain l, n ∉ s'.chain k := by
  have hfirst {i : HandleId} (hi : s.chain i ≠ []) :
      ∃ n : Nat, s.head i = some n ∧ n ∈ s.chain i := by
    cases hn : s.head i with
    | none =>
      have hlinks := hs.links_chain i
      rw [hn] at hlinks
      exact absurd (hlinks.unique .nil) hi
    | some n => exact ⟨n, rfl, hs.mem_chain_of_head hn⟩
  obtain ⟨a, ha, ham⟩ := hfirst hl
  obtain ⟨b, hb, hbm⟩ := hfirst hk
  obtain ⟨ns, hns, hnew⟩ := h.chain hs hs'.linked hl
  obtain ⟨ms, hms, hnew'⟩ := h.chain hs hs'.linked hk
  have hla := hs'.linked.links_chain l
  have hlb := hs'.linked.links_chain k
  rw [h.head ha] at hla
  rw [h.head hb] at hlb
  intro x hx hx'
  -- The first node of either chain is old, so it would be in the old part of the other chain.
  rcases hs'.first_mem_of_shared hla hlb hx hx' with hmem | hmem
  · rw [hns] at hmem
    rcases List.mem_append.1 hmem with hmem | hmem
    · exact hd b hmem hbm
    · exact Nat.not_lt.2 (hnew b hmem) (mem_chain_lt hbm)
  · rw [hms] at hmem
    rcases List.mem_append.1 hmem with hmem | hmem
    · exact hd a ham hmem
    · exact Nat.not_lt.2 (hnew' a hmem) (mem_chain_lt ham)

/-- The list behind `y` is what follows the first cell `v` of the list behind `x`. -/
structure Remainder (s : Store) (x y : HandleId) (v : CellId) : Prop where
  first : ∃ m n : Nat, s.head x = some m ∧ s.nodes[m]? = some ⟨v, some n⟩ ∧ s.head y = some n

theorem Remainder.later {x y : HandleId} {v : CellId} (hr : s.Remainder x y v) (h : Later s s') :
    s'.Remainder x y v := by
  obtain ⟨m, n, hx, hm, hy⟩ := hr.first
  obtain ⟨⟨w, o⟩, hb, rfl, hnext⟩ := h.node hm
  obtain rfl : o = some n := hnext.resolve_right nofun
  exact ⟨m, n, h.head hx, hb, h.head hy⟩

theorem Remainder.items_eq {x y : HandleId} {v : CellId} (hr : s.Remainder x y v)
    (hs : s.WellLinked) : s.items x = v :: s.items y := by
  obtain ⟨m, n, hx, hm, hy⟩ := hr.first
  have hlx := hs.links_chain x
  have hly := hs.links_chain y
  rw [hx] at hlx
  rw [hy] at hly
  have hchain : s.chain x = m :: s.chain y := hlx.unique (.cons hm hly)
  have hvalue : s.nodeValue m = v := by rw [nodeValue, hm]
  rw [items, items, hchain, List.map_cons, hvalue]

theorem remainder_addRest {h : HandleId} {v : CellId} {n : NodeId} (hs : s.WellLinked)
    (hsplit : s.split? h = some (v, some n)) :
    (s.addListFrom (some n)).2.Remainder h s.handles.size v := by
  obtain ⟨m, rest, hchain, rfl, hn⟩ := chain_of_split? hsplit
  have hl := hs.links_chain h
  rw [hchain] at hl
  generalize ho : s.head h = o at hl
  cases hl with
  | @cons _ node _ read hrest =>
    have hnext : node.next = some n := by
      generalize node.next = o at hrest
      cases hrest with
      | nil => cases hn
      | cons read rest =>
        cases hn
        rfl
    have hhead : (s.addListFrom (some n)).2.head h = some m :=
      (Later.of_appends (appends_addListFrom (some n) s)).head ho
    refine ⟨m, n, hhead, ?_, ?_⟩
    · have hvalue : s.nodeValue m = node.value := by rw [nodeValue, read]
      rw [hvalue, ← hnext]
      exact read
    · simp [head, Store.addListFrom, addHandle, addCell]

end LittleLisp.Store
