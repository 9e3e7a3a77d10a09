import LittleLisp.Proofs.Session.Safety

namespace LittleLisp

namespace Store

variable {s : Store} {c x : CellId} {path : List NodeId} {d e : Datum}

/-- A way down from a cell, through quotes and into lists with the given first nodes. -/
inductive Descends (s : Store) (c : CellId) : List NodeId → CellId → Prop
  | here : Descends s c [] c
  | inner {path x i} (way : Descends s c path x) (cell : s.cell x = .quoted i) :
      Descends s c path i
  | item {path x h n i} (way : Descends s c path x) (cell : s.cell x = .list h)
      (head : s.head h = some n) (mem : i ∈ s.items h) : Descends s c (n :: path) i

/-- No list below the cell is entered again below itself. -/
def NeverReentered (s : Store) (c : CellId) : Prop :=
  ∀ path x h n, s.Descends c path x → s.cell x = .list h → s.head h = some n → n ∉ path

namespace Unrolls

theorem plain (h : s.Unrolls entered path x d) (hnever : s.NeverReentered c)
    (hway : s.Descends c path x) : s.Unrolls never path x d := by
  induction h with
  | atom cell | number cell | str cell | bool cell | function cell =>
    constructor
    exact cell
  | quoted cell _ ih => exact .quoted cell (ih (hway.inner cell))
  | empty cell head => exact .empty cell head
  | cut cell head stop => exact absurd stop (hnever _ _ _ _ hway cell head)
  | list cell head _ _ ih =>
    exact .list cell head not_false fun i hi ↦ ih i hi (hway.item cell head hi)

theorem never_path (h : s.Unrolls never path c d) (path' : List NodeId) :
    s.Unrolls never path' c d := by
  induction h generalizing path' with
  | atom cell | number cell | str cell | bool cell | function cell =>
    constructor
    exact cell
  | quoted cell _ ih => exact .quoted cell (ih path')
  | empty cell head => exact .empty cell head
  | cut _ _ stop => exact False.elim stop
  | list cell head _ _ ih => exact .list cell head not_false fun i hi ↦ ih i hi _

theorem inner {i : CellId} (h : s.Unrolls never path c d) (hc : s.cell c = .quoted i) :
    ∃ e, s.Unrolls never path i e ∧ sizeOf e < sizeOf d := by
  cases h with
  | quoted cell inner =>
    cases hc.symm.trans cell
    exact ⟨_, inner, by simp⟩
  | _ => simp_all

theorem item {h : HandleId} {n : NodeId} (hd : s.Unrolls never path c d) (hc : s.cell c = .list h)
    (hh : s.head h = some n) :
    (∀ i ∈ s.items h, ∃ e, s.Unrolls never (n :: path) i e ∧ sizeOf e < sizeOf d) ∧
      ∀ {y k path' e}, s.cell y = .list k → s.head k = some n → s.Unrolls never path' y e →
        e = d := by
  cases hd with
  | @list _ _ _ _ f cell head new items =>
    cases hc.symm.trans cell
    cases hh.symm.trans head
    refine ⟨?_, ?_⟩
    · intro i hi
      have hmem := List.sizeOf_lt_of_mem (List.mem_map_of_mem (f := f) hi)
      rw [Datum.list.sizeOf_spec]
      exact ⟨f i, items i hi, by omega⟩
    · intro y k path' e hy hk he
      have hitems : s.items k = s.items h := items_eq_of_head (hk.trans hh.symm)
      have hlist : s.Unrolls never path' y (.list ((s.items k).map f)) :=
        .list hy hk not_false fun i hi ↦ (items i (hitems ▸ hi)).never_path _
      rw [← hitems]
      exact he.unique hlist
  | cut _ _ stop => exact False.elim stop
  | _ => simp_all

theorem shrinks (hd : s.Unrolls never [] c d) (hway : s.Descends c path x) :
    ∃ e, s.Unrolls never path x e ∧ ∀ n ∈ path, ∀ {y k path' e'}, s.cell y = .list k →
      s.head k = some n → s.Unrolls never path' y e' → sizeOf e < sizeOf e' := by
  induction hway with
  | here => exact ⟨d, hd, nofun⟩
  | inner _ cell ih =>
    obtain ⟨e, he, hless⟩ := ih
    obtain ⟨e', he', hlt⟩ := he.inner cell
    refine ⟨e', he', ?_⟩
    intro n hn y k path' e'' hy hk hu
    exact Nat.lt_trans hlt (hless n hn hy hk hu)
  | item _ cell head mem ih =>
    obtain ⟨e, he, hless⟩ := ih
    obtain ⟨hitems, hsame⟩ := he.item cell head
    obtain ⟨e', he', hlt⟩ := hitems _ mem
    refine ⟨e', he', ?_⟩
    intro m hm y k path' e'' hy hk hu
    rcases List.mem_cons.1 hm with heq | hm
    · rw [hsame hy (heq ▸ hk) hu]
      exact hlt
    · exact Nat.lt_trans hlt (hless m hm hy hk hu)

theorem neverReentered (hd : s.Unrolls never [] c d) : s.NeverReentered c := by
  intro path x h n hway hcell hhead hmem
  obtain ⟨e, he, hless⟩ := hd.shrinks hway
  exact Nat.lt_irrefl _ (hless n hmem hcell hhead he)

end Unrolls

end Store

open Store

/-- What is printed of a cell, at every moment of every session and in every store that can be
built. The cell has one tree with a cut at just those lists that are entered again, and this tree is
printed; a tree without cuts exists just if no list is entered again, and then it is printed. -/
theorem printing_cuts_reentered_lists (cfg : Settings) :
    (∀ es s, Session.Moment cfg es s → s.Built) ∧
    ∀ (s : Store) (c : CellId), s.Built → s.Present (.cell c) →
      (∃ d, (∀ d', s.Unrolls entered [] c d' ↔ d' = d) ∧ s.print c = .ok d.print) ∧
      (s.NeverReentered c ↔ ∃ d, s.Unrolls never [] c d) ∧
      ∀ d, s.Unrolls never [] c d → s.print c = .ok d.print := by
  refine ⟨fun es s h ↦ h.built, ?_⟩
  intro s c hs hc
  have htree := unrolls_tree hs.whole hc
  have hprint := print_tree hs.whole hc
  have hplain : s.NeverReentered c → s.Unrolls never [] c (s.tree c) :=
    fun h ↦ htree.plain h .here
  refine ⟨⟨s.tree c, ?_, hprint⟩, ⟨fun h ↦ ⟨_, hplain h⟩, fun ⟨_, h⟩ ↦ h.neverReentered⟩, ?_⟩
  · intro d
    constructor
    · exact fun h ↦ h.unique htree
    · intro h
      rw [h]
      exact htree
  · intro d hd
    rw [hd.unique (hplain hd.neverReentered)]
    exact hprint

/-- A list whose tail is quoted inside it, and a list that holds another one twice. -/
def tailInside : Store :=
  let s := (Store.empty.addCell (.bool true)).2
  let s := (s.addList [1, 1]).2
  let s := (s.addListFrom (some 1)).2
  let s := ((s.addCell (.quoted 3)).2).push 0 4
  let s := (s.addList [1]).2
  (s.addList [5, 5]).2

theorem built_tailInside : tailInside.Built := by
  have hleaf : (Store.empty.addCell (.bool true)).2.Built := Built.empty.addCell nofun nofun nofun
  have hleaves : ∀ v ∈ [1, 1], (Store.empty.addCell (.bool true)).2.Present (.cell v) := by
    simpa using ⟨_, rfl, nofun⟩
  have hlist := (hleaf.addList hleaves).1
  have htail := hlist.addListFrom (o := some 1) fun n hn ↦ by
    cases hn
    exact ⟨_, rfl, nofun⟩
  have hquote := htail.addCell (x := .quoted 3) nofun (fun y hy ↦ by
    cases hy
    exact ⟨_, rfl, nofun⟩) nofun
  have hpush := hquote.push (h := 0) (v := 4) ⟨_, rfl, nofun⟩ ⟨_, rfl, nofun⟩
  have hinner : (addList [1] _).2.Built ∧ (addList [1] _).2.Present (.cell 5) :=
    hpush.addList (by simpa using ⟨_, rfl, nofun⟩)
  exact (hinner.1.addList (by simpa using hinner.2)).1

theorem reentered_tailInside : ¬ tailInside.NeverReentered 2 := by
  intro h
  have hquote : 4 ∈ tailInside.items 0 := by decide +kernel
  have hquote' : 4 ∈ tailInside.items 1 := by decide +kernel
  have htail : tailInside.Descends 2 [0] 3 := (Descends.item .here rfl rfl hquote).inner rfl
  have hagain : tailInside.Descends 2 [1, 0] 3 := (htail.item rfl rfl hquote').inner rfl
  exact h _ _ _ _ hagain rfl rfl List.mem_cons_self

theorem unrolls_tailInside :
    tailInside.Unrolls never [] 6 (.list [.list [.bool true], .list [.bool true]]) := by
  have hitems : tailInside.items 2 = [1] := by decide +kernel
  have hitems' : tailInside.items 3 = [5, 5] := by decide +kernel
  have hshared (path : List NodeId) : tailInside.Unrolls never path 5
      (.list ((tailInside.items 2).map fun _ ↦ .bool true)) := by
    refine .list rfl rfl not_false ?_
    rw [hitems]
    exact List.forall_mem_singleton.2 (.bool rfl)
  have hlist : tailInside.Unrolls never [] 6
      (.list ((tailInside.items 3).map fun _ ↦ .list ((tailInside.items 2).map fun _ ↦
        .bool true))) := by
    refine .list rfl rfl not_false ?_
    rw [hitems']
    intro i hi
    obtain rfl : i = 5 := by simpa using hi
    exact hshared _
  rwa [hitems, hitems'] at hlist

theorem cuts_tailInside :
    tailInside.Built ∧ tailInside.Present (.cell 2) ∧ tailInside.Present (.cell 6) ∧
      (∃ d, tailInside.Unrolls entered [] 2 d ∧ tailInside.print 2 = .ok d.print) ∧
      (tailInside.tree 2).print = "(#t #t \x27(#t \x27(...)))" ∧
      ¬ (∃ d, tailInside.Unrolls never [] 2 d) ∧
      tailInside.NeverReentered 6 ∧ tailInside.print 6 = .ok "((#t) (#t))" := by
  obtain ⟨-, hprint⟩ := printing_cuts_reentered_lists {}
  have htail : tailInside.Present (.cell 2) := ⟨_, rfl, nofun⟩
  have hshared : tailInside.Present (.cell 6) := ⟨_, rfl, nofun⟩
  obtain ⟨⟨d, hd, htext⟩, hiff, -⟩ := hprint tailInside 2 built_tailInside htail
  obtain ⟨-, hiff', hplain⟩ := hprint tailInside 6 built_tailInside hshared
  refine ⟨built_tailInside, htail, hshared, ⟨d, (hd d).2 rfl, htext⟩, by decide +kernel, ?_, ?_, ?_⟩
  · exact fun h ↦ reentered_tailInside (hiff.2 h)
  · exact hiff'.2 ⟨_, unrolls_tailInside⟩
  · exact hplain _ unrolls_tailInside

end LittleLisp
