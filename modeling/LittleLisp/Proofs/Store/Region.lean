import LittleLisp.Proofs.Store.Loading

/-!
The stretch of a store that stored data take. Every cell, handle and node in it belongs to exactly
one part of the data, and a part that is reached through lists alone is never under a quote.
-/

namespace LittleLisp.Store

variable {s : Store} {lo mid hi : Extent} {c x : Nat} {cs cs' : List Nat}

/-- The cells that a cell is made of: itself, items of lists, and what is quoted. -/
inductive Part (s : Store) (c : CellId) : CellId → Prop
  | self : Part s c c
  | item {x i : CellId} {h : HandleId} (part : Part s c x) (list : s.cell x = .list h)
      (mem : i ∈ s.items h) : Part s c i
  | inner {x i : CellId} (part : Part s c x) (quoted : s.cell x = .quoted i) : Part s c i

def UnderQuote (s : Store) (c x : CellId) : Prop :=
  ∃ q i, Part s c q ∧ s.cell q = .quoted i ∧ Part s i x

/-- The skeleton of a cell: the parts that do not lie under a quote. -/
def Skeleton (s : Store) (c x : CellId) : Prop := Part s c x ∧ ¬ UnderQuote s c x

inductive Bare (s : Store) (c : CellId) : CellId → Prop
  | self : Bare s c c
  | item {x i : CellId} {h : HandleId} (part : Bare s c x) (list : s.cell x = .list h)
      (mem : i ∈ s.items h) : Bare s c i

theorem Part.trans {y : Nat} (h : Part s c x) (h' : Part s x y) : Part s c y := by
  induction h' with
  | self => exact h
  | item _ list mem ih => exact ih.item list mem
  | inner _ quoted ih => exact ih.inner quoted

theorem UnderQuote.part (h : UnderQuote s c x) : Part s c x := by
  obtain ⟨q, i, hq, hcell, hx⟩ := h
  exact (hq.inner hcell).trans hx

theorem Bare.part (h : Bare s c x) : Part s c x := by
  induction h with
  | self => exact .self
  | item _ list mem ih => exact ih.item list mem

theorem Part.bare_or (h : Part s c x) : Bare s c x ∨ UnderQuote s c x := by
  induction h with
  | self => exact .inl .self
  | item _ list mem ih =>
    rcases ih with hb | ⟨q, i, hq, hcell, hx⟩
    · exact .inl (hb.item list mem)
    · exact .inr ⟨q, i, hq, hcell, hx.item list mem⟩
  | inner part quoted _ => exact .inr ⟨_, _, part, quoted, .self⟩

theorem part_of_list {h : HandleId} (hc : s.cell c = .list h) (hp : Part s c x) :
    x = c ∨ ∃ i ∈ s.items h, Part s i x := by
  induction hp with
  | self => exact .inl rfl
  | item _ list mem ih =>
    rcases ih with rfl | ⟨i, hi, hx⟩
    · cases hc.symm.trans list
      exact .inr ⟨_, mem, .self⟩
    · exact .inr ⟨i, hi, hx.item list mem⟩
  | inner _ quoted ih =>
    rcases ih with rfl | ⟨i, hi, hx⟩
    · cases hc.symm.trans quoted
    · exact .inr ⟨i, hi, hx.inner quoted⟩

theorem part_of_quoted {i : CellId} (hc : s.cell c = .quoted i) (hp : Part s c x) :
    x = c ∨ Part s i x := by
  induction hp with
  | self => exact .inl rfl
  | item _ list mem ih =>
    rcases ih with rfl | hx
    · cases hc.symm.trans list
    · exact .inr (hx.item list mem)
  | inner _ quoted ih =>
    rcases ih with rfl | hx
    · cases hc.symm.trans quoted
      exact .inr .self
    · exact .inr (hx.inner quoted)

theorem part_of_leaf (hl : ∀ h, s.cell c ≠ .list h) (hq : ∀ i, s.cell c ≠ .quoted i)
    (hp : Part s c x) : x = c := by
  induction hp with
  | self => rfl
  | item _ list _ ih => exact absurd (ih ▸ list) (hl _)
  | inner _ quoted ih => exact absurd (ih ▸ quoted) (hq _)

theorem bare_of_list {h : HandleId} (hc : s.cell c = .list h) (hb : Bare s c x) :
    x = c ∨ ∃ i ∈ s.items h, Bare s i x := by
  induction hb with
  | self => exact .inl rfl
  | item _ list mem ih =>
    rcases ih with rfl | ⟨i, hi, hx⟩
    · cases hc.symm.trans list
      exact .inr ⟨_, mem, .self⟩
    · exact .inr ⟨i, hi, hx.item list mem⟩

theorem bare_of_not_list (hl : ∀ h, s.cell c ≠ .list h) (hb : Bare s c x) : x = c := by
  induction hb with
  | self => rfl
  | item _ list _ ih => exact absurd (ih ▸ list) (hl _)

theorem underQuote_of_list {h : HandleId} (hc : s.cell c = .list h) (hu : UnderQuote s c x) :
    ∃ i ∈ s.items h, UnderQuote s i x := by
  obtain ⟨q, j, hq, hcell, hx⟩ := hu
  rcases part_of_list hc hq with rfl | ⟨i, hi, hq⟩
  · cases hc.symm.trans hcell
  · exact ⟨i, hi, q, j, hq, hcell, hx⟩

/-- The roots and their parts fill the stretch from `lo` to `hi`. -/
structure Region (s : Store) (lo hi : Extent) (roots : List Nat) : Prop where
  cells_le : lo.cells ≤ hi.cells
  handles_le : lo.handles ≤ hi.handles
  nodes_le : lo.nodes ≤ hi.nodes
  part_iff : ∀ x : Nat, (∃ c ∈ roots, Part s c x) ↔ lo.cells ≤ x ∧ x < hi.cells
  plain : ∀ x : Nat, lo.cells ≤ x → x < hi.cells → ∀ fn, s.cell x ≠ .function fn
  handle : ∀ x h : Nat, lo.cells ≤ x → x < hi.cells → s.cell x = .list h →
    lo.handles ≤ h ∧ h < hi.handles
  node : ∀ x h n : Nat, lo.cells ≤ x → x < hi.cells → s.cell x = .list h → n ∈ s.chain h →
    lo.nodes ≤ n ∧ n < hi.nodes
  handle_owner : ∀ h : Nat, lo.handles ≤ h → h < hi.handles →
    ∃ x : Nat, lo.cells ≤ x ∧ x < hi.cells ∧ s.cell x = .list h
  node_owner : ∀ n : Nat, lo.nodes ≤ n → n < hi.nodes →
    ∃ x h : Nat, lo.cells ≤ x ∧ x < hi.cells ∧ s.cell x = .list h ∧ n ∈ s.chain h
  ordered : ∀ x y h k : Nat, lo.cells ≤ x → x < y → y < hi.cells → s.cell x = .list h →
    s.cell y = .list k → h < k ∧ ∀ n m : Nat, n ∈ s.chain h → m ∈ s.chain k → n < m
  apart : ∀ c ∈ roots, ∀ c' ∈ roots, ∀ x : Nat, Bare s c x → ¬ UnderQuote s c' x

namespace Region

theorem nil (s : Store) (lo : Extent) : Region s lo lo [] where
  cells_le := Nat.le_refl _
  handles_le := Nat.le_refl _
  nodes_le := Nat.le_refl _
  part_iff x := by simp
  plain x h h' := by omega
  handle x h h₁ h₂ := by omega
  node x h n h₁ h₂ := by omega
  handle_owner h h₁ h₂ := by omega
  node_owner n h₁ h₂ := by omega
  ordered x y h k h₁ h₂ h₃ := by omega
  apart := by simp

theorem cell_lt (r : Region s lo hi cs) (hc : c ∈ cs) (hp : Part s c x) :
    lo.cells ≤ x ∧ x < hi.cells :=
  (r.part_iff x).1 ⟨c, hc, hp⟩

theorem append (r : Region s lo mid cs) (r' : Region s mid hi cs') :
    Region s lo hi (cs ++ cs') where
  cells_le := Nat.le_trans r.cells_le r'.cells_le
  handles_le := Nat.le_trans r.handles_le r'.handles_le
  nodes_le := Nat.le_trans r.nodes_le r'.nodes_le
  part_iff x := by
    have h := r.cells_le
    have h' := r'.cells_le
    simp only [List.mem_append, or_and_right, exists_or, r.part_iff, r'.part_iff]
    omega
  plain x h₁ h₂ := by
    rcases Nat.lt_or_ge x mid.cells with hx | hx
    · exact r.plain x h₁ hx
    · exact r'.plain x hx h₂
  handle x h h₁ h₂ hcell := by
    have := r.handles_le
    have := r'.handles_le
    rcases Nat.lt_or_ge x mid.cells with hx | hx
    · have := r.handle x h h₁ hx hcell
      omega
    · have := r'.handle x h hx h₂ hcell
      omega
  node x h n h₁ h₂ hcell hn := by
    have := r.nodes_le
    have := r'.nodes_le
    rcases Nat.lt_or_ge x mid.cells with hx | hx
    · have := r.node x h n h₁ hx hcell hn
      omega
    · have := r'.node x h n hx h₂ hcell hn
      omega
  handle_owner h h₁ h₂ := by
    have := r.cells_le
    have := r'.cells_le
    rcases Nat.lt_or_ge h mid.handles with hh | hh
    · obtain ⟨x, hx₁, hx₂, hcell⟩ := r.handle_owner h h₁ hh
      exact ⟨x, hx₁, by omega, hcell⟩
    · obtain ⟨x, hx₁, hx₂, hcell⟩ := r'.handle_owner h hh h₂
      exact ⟨x, by omega, hx₂, hcell⟩
  node_owner n h₁ h₂ := by
    have := r.cells_le
    have := r'.cells_le
    rcases Nat.lt_or_ge n mid.nodes with hn | hn
    · obtain ⟨x, h, hx₁, hx₂, hcell⟩ := r.node_owner n h₁ hn
      exact ⟨x, h, hx₁, by omega, hcell⟩
    · obtain ⟨x, h, hx₁, hx₂, hcell⟩ := r'.node_owner n hn h₂
      exact ⟨x, h, by omega, hx₂, hcell⟩
  ordered x y h k h₁ h₂ h₃ hx hy := by
    rcases Nat.lt_or_ge y mid.cells with hy' | hy'
    · exact r.ordered x y h k h₁ h₂ hy' hx hy
    · rcases Nat.lt_or_ge x mid.cells with hx' | hx'
      · have hh := r.handle x h h₁ hx' hx
        have hk := r'.handle y k hy' h₃ hy
        refine ⟨by omega, fun n m hn hm ↦ ?_⟩
        have hn := r.node x h n h₁ hx' hx hn
        have hm := r'.node y k m hy' h₃ hy hm
        omega
      · exact r'.ordered x y h k hx' h₂ h₃ hx hy
  apart c hc c' hc' x hb hu := by
    rcases List.mem_append.1 hc with hc | hc <;> rcases List.mem_append.1 hc' with hc' | hc'
    · exact r.apart c hc c' hc' x hb hu
    · have h₁ := r.cell_lt hc hb.part
      have h₂ := r'.cell_lt hc' hu.part
      omega
    · have h₁ := r'.cell_lt hc hb.part
      have h₂ := r.cell_lt hc' hu.part
      omega
    · exact r'.apart c hc c' hc' x hb hu

theorem next (r : Region s lo mid cs) (hl : ∀ h, s.cell mid.cells ≠ .list h)
    (hf : ∀ fn, s.cell mid.cells ≠ .function fn)
    (hp : ∀ x : Nat, Part s mid.cells x ↔ x = mid.cells ∨ ∃ c ∈ cs, Part s c x)
    (hu : ∀ x : Nat, UnderQuote s mid.cells x → ∃ c ∈ cs, Part s c x) :
    Region s lo mid.next [mid.cells] where
  cells_le := Nat.le_succ_of_le r.cells_le
  handles_le := r.handles_le
  nodes_le := r.nodes_le
  part_iff x := by
    have := r.cells_le
    simp only [List.mem_singleton, exists_eq_left, hp, r.part_iff, Extent.next]
    omega
  plain x h₁ h₂ := by
    rcases Nat.lt_succ_iff_lt_or_eq.1 h₂ with hx | rfl
    · exact r.plain x h₁ hx
    · exact hf
  handle x h h₁ h₂ hcell := by
    rcases Nat.lt_succ_iff_lt_or_eq.1 h₂ with hx | rfl
    · exact r.handle x h h₁ hx hcell
    · exact absurd hcell (hl h)
  node x h n h₁ h₂ hcell hn := by
    rcases Nat.lt_succ_iff_lt_or_eq.1 h₂ with hx | rfl
    · exact r.node x h n h₁ hx hcell hn
    · exact absurd hcell (hl h)
  handle_owner h h₁ h₂ := by
    obtain ⟨x, hx₁, hx₂, hcell⟩ := r.handle_owner h h₁ h₂
    exact ⟨x, hx₁, Nat.lt_succ_of_lt hx₂, hcell⟩
  node_owner n h₁ h₂ := by
    obtain ⟨x, h, hx₁, hx₂, hcell⟩ := r.node_owner n h₁ h₂
    exact ⟨x, h, hx₁, Nat.lt_succ_of_lt hx₂, hcell⟩
  ordered x y h k h₁ h₂ h₃ hx hy := by
    rcases Nat.lt_succ_iff_lt_or_eq.1 h₃ with h₃ | rfl
    · exact r.ordered x y h k h₁ h₂ h₃ hx hy
    · exact absurd hy (hl k)
  apart c hc c' hc' x hb h := by
    obtain rfl := List.mem_singleton.1 hc
    obtain rfl := List.mem_singleton.1 hc'
    obtain rfl := bare_of_not_list hl hb
    obtain ⟨c, hc, hx⟩ := hu _ h
    exact Nat.lt_irrefl _ (r.cell_lt hc hx).2

theorem leaf (hl : ∀ h, s.cell lo.cells ≠ .list h) (hq : ∀ i, s.cell lo.cells ≠ .quoted i)
    (hf : ∀ fn, s.cell lo.cells ≠ .function fn) : Region s lo lo.next [lo.cells] := by
  refine (nil s lo).next hl hf (fun x ↦ ⟨fun hp ↦ .inl (part_of_leaf hl hq hp), ?_⟩) ?_
  · rintro (rfl | ⟨c, hc, -⟩)
    · exact .self
    · cases hc
  · rintro x ⟨q, i, hpart, hcell, -⟩
    exact absurd (part_of_leaf hl hq hpart ▸ hcell) (hq i)

theorem quoted {i : Nat} (r : Region s lo mid [i]) (hc : s.cell mid.cells = .quoted i) :
    Region s lo mid.next [mid.cells] := by
  have hne : ∀ {x : Cell}, x ≠ .quoted i → s.cell mid.cells ≠ x := fun hx h ↦ hx (h.symm.trans hc)
  refine r.next (fun h ↦ hne nofun) (fun fn ↦ hne nofun) (fun x ↦ ⟨fun hp ↦ ?_, ?_⟩) ?_
  · simpa using part_of_quoted hc hp
  · rintro (rfl | ⟨c, hmem, hp⟩)
    · exact .self
    · obtain rfl := List.mem_singleton.1 hmem
      exact (Part.self.inner hc).trans hp
  · -- Whatever is under the quote is part of what is quoted.
    rintro x ⟨q, j, hpart, hcell, hx⟩
    refine ⟨i, List.mem_singleton_self i, ?_⟩
    rcases part_of_quoted hc hpart with rfl | hpart
    · cases hc.symm.trans hcell
      exact hx
    · exact (hpart.inner hcell).trans hx

theorem list (r : Region s lo mid cs) (hc : s.cell mid.cells = .list mid.handles)
    (hrow : s.HasRow mid.handles mid.nodes cs) :
    Region s lo ⟨mid.cells + 1, mid.handles + 1, mid.nodes + cs.length⟩ [mid.cells] where
  cells_le := Nat.le_succ_of_le r.cells_le
  handles_le := Nat.le_succ_of_le r.handles_le
  nodes_le := Nat.le_add_right_of_le r.nodes_le
  part_iff x := by
    have hp : Part s mid.cells x ↔ x = mid.cells ∨ ∃ c ∈ cs, Part s c x := by
      constructor
      · intro hp
        have := part_of_list hc hp
        rwa [hrow.items_eq] at this
      · rintro (rfl | ⟨c, hmem, hp⟩)
        · exact .self
        · exact (Part.self.item hc (by rwa [hrow.items_eq])).trans hp
    have := r.cells_le
    simp only [List.mem_singleton, exists_eq_left, hp, r.part_iff]
    omega
  plain x h₁ h₂ := by
    rcases Nat.lt_succ_iff_lt_or_eq.1 h₂ with hx | rfl
    · exact r.plain x h₁ hx
    · intro fn hfn
      cases hc.symm.trans hfn
  handle x h h₁ h₂ hcell := by
    have := r.handles_le
    rcases Nat.lt_succ_iff_lt_or_eq.1 h₂ with hx | rfl
    · have := r.handle x h h₁ hx hcell
      exact ⟨this.1, Nat.lt_succ_of_lt this.2⟩
    · cases hc.symm.trans hcell
      exact ⟨r.handles_le, Nat.lt_succ_self _⟩
  node x h n h₁ h₂ hcell hn := by
    have := r.nodes_le
    rcases Nat.lt_succ_iff_lt_or_eq.1 h₂ with hx | rfl
    · have := r.node x h n h₁ hx hcell hn
      exact ⟨this.1, Nat.lt_add_right _ this.2⟩
    · cases hc.symm.trans hcell
      rw [hrow.chain_eq, List.mem_range'_1] at hn
      exact ⟨Nat.le_trans r.nodes_le hn.1, hn.2⟩
  handle_owner h h₁ h₂ := by
    rcases Nat.lt_succ_iff_lt_or_eq.1 h₂ with hh | rfl
    · obtain ⟨x, hx₁, hx₂, hcell⟩ := r.handle_owner h h₁ hh
      exact ⟨x, hx₁, Nat.lt_succ_of_lt hx₂, hcell⟩
    · exact ⟨mid.cells, r.cells_le, Nat.lt_succ_self _, hc⟩
  node_owner n h₁ h₂ := by
    rcases Nat.lt_or_ge n mid.nodes with hn | hn
    · obtain ⟨x, h, hx₁, hx₂, hcell⟩ := r.node_owner n h₁ hn
      exact ⟨x, h, hx₁, Nat.lt_succ_of_lt hx₂, hcell⟩
    · refine ⟨mid.cells, mid.handles, r.cells_le, Nat.lt_succ_self _, hc, ?_⟩
      rw [hrow.chain_eq, List.mem_range'_1]
      exact ⟨hn, h₂⟩
  ordered x y h k h₁ h₂ h₃ hx hy := by
    rcases Nat.lt_succ_iff_lt_or_eq.1 h₃ with h₃ | rfl
    · exact r.ordered x y h k h₁ h₂ h₃ hx hy
    · cases hc.symm.trans hy
      refine ⟨(r.handle x h h₁ h₂ hx).2, fun n m hn hm ↦ ?_⟩
      have hn := r.node x h n h₁ h₂ hx hn
      rw [hrow.chain_eq, List.mem_range'_1] at hm
      omega
  apart c hmem c' hmem' x hb hu := by
    obtain rfl := List.mem_singleton.1 hmem
    obtain rfl := List.mem_singleton.1 hmem'
    obtain ⟨j, hj, hu⟩ := underQuote_of_list hc hu
    rw [hrow.items_eq] at hj
    rcases bare_of_list hc hb with rfl | ⟨i, hi, hb⟩
    · exact Nat.lt_irrefl _ (r.cell_lt hj hu.part).2
    · rw [hrow.items_eq] at hi
      exact r.apart i hi j hj x hb hu

theorem list_unique (r : Region s lo hi cs) {x y h k : Nat} (hx : lo.cells ≤ x ∧ x < hi.cells)
    (hy : lo.cells ≤ y ∧ y < hi.cells) (hxl : s.cell x = .list h) (hyl : s.cell y = .list k)
    (hshare : h = k ∨ ∃ n : Nat, n ∈ s.chain h ∧ n ∈ s.chain k) : x = y := by
  rcases Nat.lt_trichotomy x y with hlt | heq | hlt
  · obtain ⟨hh, hn⟩ := r.ordered x y h k hx.1 hlt hy.2 hxl hyl
    rcases hshare with rfl | ⟨n, hnx, hny⟩
    · exact absurd hh (Nat.lt_irrefl _)
    · exact absurd (hn n n hnx hny) (Nat.lt_irrefl _)
  · exact heq
  · obtain ⟨hh, hn⟩ := r.ordered y x k h hy.1 hlt hx.2 hyl hxl
    rcases hshare with rfl | ⟨n, hnx, hny⟩
    · exact absurd hh (Nat.lt_irrefl _)
    · exact absurd (hn n n hny hnx) (Nat.lt_irrefl _)

theorem skeleton_iff (r : Region s lo hi cs) (hc : c ∈ cs) : Skeleton s c x ↔ Bare s c x :=
  ⟨fun h ↦ h.1.bare_or.resolve_right h.2, fun h ↦ ⟨h.part, r.apart c hc c hc x h⟩⟩

end Region

end LittleLisp.Store

namespace LittleLisp.Datum

open Store

variable {s : Store} {lo hi : Extent}

theorem AllStored.region {ds : List Datum} {cs : List Nat}
    (hd : ∀ d ∈ ds, ∀ {lo hi c}, d.Stored s lo hi c → Region s lo hi [c])
    (h : AllStored s ds lo hi cs) : Region s lo hi cs := by
  induction ds generalizing lo cs with
  | nil =>
    obtain ⟨rfl, rfl⟩ := h
    exact .nil s hi
  | cons d ds ih =>
    obtain ⟨mid, c, cs', hc, hcs, rfl⟩ := h
    exact (hd d List.mem_cons_self hc).append
      (ih (fun d' h ↦ hd d' (List.mem_cons_of_mem d h)) hcs)

theorem Stored.region {d : Datum} {c : Nat} (h : d.Stored s lo hi c) : Region s lo hi [c] := by
  induction d using induction generalizing lo hi c with
  | atom | number | str | bool =>
    obtain ⟨hc, rfl, rfl⟩ := h
    have hcell := cell_eq_of_getElem? hc
    exact .leaf (by simp [hcell]) (by simp [hcell]) (by simp [hcell])
  | quoted inner ih =>
    obtain ⟨mid, i, hi, hc, rfl, rfl⟩ := h
    exact (ih hi).quoted (cell_eq_of_getElem? hc)
  | list items ih =>
    obtain ⟨mid, cs, hitems, hc, hrow, rfl, rfl⟩ := h
    exact (hitems.region fun d hd ↦ ih d hd).list (cell_eq_of_getElem? hc) hrow
  | mark => cases h

theorem region_load {d : Datum} (h : d.Storable) (s : Store) :
    Region (load d s).2 s.extent (load d s).2.extent [(load d s).1] :=
  (storesWell h s).2.region

end LittleLisp.Datum
