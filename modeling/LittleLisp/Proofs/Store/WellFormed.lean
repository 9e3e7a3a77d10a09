import LittleLisp.Proofs.Store.Growth
import LittleLisp.Store.Unfold

/-!
Stores in which nothing leads back to itself except through lists. In such a store the walks along
scopes and through cells do not depend on the number of steps that they are given, as long as it is
large enough; the number that they get is.
-/

namespace LittleLisp.Store

variable {s : Store}

/-- Chains end, what is quoted is older than its quote, and so is the scope around a scope. -/
structure WellFormed (s : Store) : Prop where
  linked : s.WellLinked
  quoted_lt : ∀ {c i : Nat}, s.cells[c]? = some (.quoted i) → i < c
  outer_lt : ∀ {e o : Nat} {x : Scope}, s.scopes[e]? = some x → x.outer = some o → o < e

theorem wellFormed_empty : Store.empty.WellFormed where
  linked := ⟨nofun, nofun, nofun⟩
  quoted_lt {c i} h := by
    cases c <;> simp [empty] at h
  outer_lt := nofun

namespace WellFormed

theorem inner_lt (hs : s.WellFormed) {c i : Nat} (hc : s.cell c = .quoted i) : i < c := by
  have hlt : c < s.cells.size := lt_of_cell_ne_absent (by rw [hc]; nofun)
  refine hs.quoted_lt ?_
  rw [Array.getElem?_eq_getElem hlt, ← hc, cell, Array.getElem?_eq_getElem hlt]
  rfl

theorem addCell (hs : s.WellFormed) {x : Cell} (hx : ∀ i, x = .quoted i → i < s.cells.size) :
    (s.addCell x).2.WellFormed where
  linked := hs.linked.of_eq rfl rfl
  quoted_lt {c i} hread := by
    simp only [Store.addCell, Array.getElem?_push] at hread
    split at hread
    · rename_i hc
      rw [hc]
      exact hx i (Option.some.inj hread)
    · exact hs.quoted_lt hread
  outer_lt := hs.outer_lt

theorem addHandle (hs : s.WellFormed) {o : Option NodeId}
    (ho : ∀ n : Nat, o = some n → n < s.nodes.size) : (s.addHandle o).2.WellFormed where
  linked := (hs.linked.addListFrom ho).of_eq rfl rfl
  quoted_lt := hs.quoted_lt
  outer_lt := hs.outer_lt

theorem push (hs : s.WellFormed) (h : HandleId) (v : CellId) : (s.push h v).WellFormed where
  linked := hs.linked.push h v
  quoted_lt := by
    rw [push_cells]
    exact hs.quoted_lt
  outer_lt := by
    rw [push_scopes]
    exact hs.outer_lt

theorem addScope (hs : s.WellFormed) {outer : Option ScopeId}
    (ho : ∀ o : Nat, outer = some o → o < s.scopes.size) : (s.addScope outer).2.WellFormed where
  linked := hs.linked.of_eq rfl rfl
  quoted_lt := hs.quoted_lt
  outer_lt {e o x} hread hx := by
    simp only [Store.addScope, Array.getElem?_push] at hread
    split at hread
    · rename_i he
      cases hread
      rw [he]
      exact ho o hx
    · exact hs.outer_lt hread hx

theorem define (hs : s.WellFormed) (e : ScopeId) (name : Text) (c : CellId) :
    (s.define e name c).WellFormed where
  linked := hs.linked.of_eq rfl rfl
  quoted_lt := hs.quoted_lt
  outer_lt {d o x} hread hx := by
    simp only [Store.define, Array.getElem?_modify] at hread
    split at hread
    · obtain ⟨y, hy, rfl⟩ := Option.map_eq_some_iff.1 hread
      exact hs.outer_lt hy hx
    · exact hs.outer_lt hread hx

end WellFormed

section Scopes

variable {e : ScopeId} {x : Scope}

theorem scopeChainFrom_fuel (hs : s.WellFormed) {fuel fuel' : Nat} {e : Nat} (hf : e < fuel)
    (hf' : e < fuel') : s.scopeChainFrom fuel (some e) = s.scopeChainFrom fuel' (some e) := by
  induction e using Nat.strongRecOn generalizing fuel fuel' with
  | ind e ih =>
    obtain ⟨fuel, rfl⟩ := Nat.exists_eq_succ_of_ne_zero (Nat.ne_zero_of_lt hf)
    obtain ⟨fuel', rfl⟩ := Nat.exists_eq_succ_of_ne_zero (Nat.ne_zero_of_lt hf')
    simp only [scopeChainFrom]
    split
    case h_1 x hread =>
      cases houter : x.outer with
      | none => cases fuel <;> cases fuel' <;> rfl
      | some o =>
        have ho := hs.outer_lt hread houter
        exact congrArg _ (ih o ho (by omega) (by omega))
    case h_2 => rfl

theorem scopeChain_eq (hs : s.WellFormed) (hx : s.scopes[e]? = some x) :
    s.scopeChain e = (e, x) :: x.outer.elim [] s.scopeChain := by
  have he := (Array.getElem?_eq_some_iff.1 hx).1
  obtain ⟨k, hk⟩ := Nat.exists_eq_succ_of_ne_zero (Nat.ne_zero_of_lt he)
  simp only [scopeChain, hk, scopeChainFrom, hx]
  congr 1
  cases houter : x.outer with
  | none => cases k <;> rfl
  | some o =>
    have ho := hs.outer_lt hx houter
    exact scopeChainFrom_fuel hs (by omega) (by omega)

theorem lookup?_eq (hs : s.WellFormed) (hx : s.scopes[e]? = some x) (name : Text) :
    s.lookup? e name = (x.bindings.lookup name).or (x.outer.bind (s.lookup? · name)) := by
  rw [lookup?, scopeChain_eq hs hx, List.findSome?_cons]
  cases x.bindings.lookup name with
  | some c => rfl
  | none => cases x.outer <;> rfl

end Scopes

/-- Lists are recognised by numbers below a bound, except for empty ones. -/
structure Identity.Bounded (identity : Identity) (s : Store) (bound : Nat) : Prop where
  lt : ∀ {c : CellId} {h : HandleId} {k : Nat}, s.cell c = .list h → identity s c h = some k →
    k < bound
  nil : ∀ {c : CellId} {h : HandleId}, identity s c h = none → s.items h = []

theorem bounded_byCell (s : Store) : byCell.Bounded s s.cells.size where
  lt hc hk := by
    cases hk
    exact lt_of_cell_ne_absent (by rw [hc]; nofun)
  nil := nofun

theorem bounded_byFirstNode (hs : s.WellFormed) : byFirstNode.Bounded s s.nodes.size where
  lt _ hk := hs.linked.head_lt hk
  nil {_ h} hnone := by
    have hlinks := hs.linked.links_chain h
    rw [show s.head h = none from hnone] at hlinks
    rw [items, hlinks.unique .nil, List.map_nil]

/-- The steps that it takes to unfold a cell inside so many opened lists. Each further list allows
for a descent through quotes, where cells get older. -/
def unfoldSteps (s : Store) (bound opened : Nat) (c : CellId) : Nat :=
  (bound - opened) * (s.cells.size + 1) + min c s.cells.size + 1

theorem unfoldSteps_item {bound opened : Nat} (h : opened < bound) (c d : CellId) :
    s.unfoldSteps bound (opened + 1) d < s.unfoldSteps bound opened c := by
  have hle : min d s.cells.size ≤ s.cells.size := Nat.min_le_right _ _
  have hopen : bound - opened = bound - (opened + 1) + 1 := by omega
  rw [unfoldSteps, unfoldSteps, hopen, Nat.add_mul, Nat.one_mul]
  omega

theorem unfoldSteps_quoted {bound opened : Nat} {c i : Nat} (hi : i < c)
    (hc : c < s.cells.size) :
    s.unfoldSteps bound opened i < s.unfoldSteps bound opened c := by
  rw [unfoldSteps, unfoldSteps]
  omega

theorem unfoldSteps_le_unfoldFuel {bound : Nat} (hbound : bound ≤ s.cells.size + s.nodes.size)
    (c : CellId) : s.unfoldSteps bound 0 c ≤ s.unfoldFuel := by
  have hmul := Nat.mul_le_mul hbound (show s.cells.size + 1 ≤ s.cells.size + 2 by omega)
  rw [unfoldSteps, unfoldFuel, Nat.sub_zero, Nat.add_mul _ 2]
  omega

theorem length_lt_of_nodup {k bound : Nat} {path : List Nat} (hnodup : (k :: path).Nodup)
    (hpath : ∀ j ∈ k :: path, j < bound) : path.length < bound := by
  have hlen : (k :: path).length ≤ (List.range bound).length :=
    hnodup.length_le_of_subset fun j hj ↦ List.mem_range.2 (hpath j hj)
  rw [List.length_cons, List.length_range] at hlen
  omega

theorem unfoldWith_fuel (hs : s.WellFormed) {identity : Identity} {bound : Nat}
    (hI : identity.Bounded s bound) {path : List Nat} (hnodup : path.Nodup)
    (hpath : ∀ k ∈ path, k < bound) {c : CellId} {fuel fuel' : Nat}
    (hf : s.unfoldSteps bound path.length c ≤ fuel)
    (hf' : s.unfoldSteps bound path.length c ≤ fuel') :
    s.unfoldWith identity fuel path c = s.unfoldWith identity fuel' path c := by
  induction fuel generalizing fuel' path c with
  | zero => simp [unfoldSteps] at hf
  | succ fuel ih =>
    obtain ⟨fuel', rfl⟩ : ∃ k, fuel' = k + 1 :=
      Nat.exists_eq_succ_of_ne_zero (by rintro rfl; simp [unfoldSteps] at hf')
    simp only [unfoldWith]
    split
    case h_7 inner hcell =>
      have hlt : c < s.cells.size := lt_of_cell_ne_absent (by rw [hcell]; nofun)
      have hsteps : s.unfoldSteps bound path.length inner < s.unfoldSteps bound path.length c :=
        unfoldSteps_quoted (hs.inner_lt hcell) hlt
      exact congrArg _ (ih hnodup hpath (by omega) (by omega))
    case h_8 h hcell =>
      split
      case h_1 hnone => rw [hI.nil hnone, List.map_nil, List.map_nil]
      case h_2 k hk =>
        split
        · rfl
        · rename_i hmem
          have hnodup' : (k :: path).Nodup := List.nodup_cons.2 ⟨hmem, hnodup⟩
          have hpath' : ∀ j ∈ k :: path, j < bound := by
            intro j hj
            rcases List.mem_cons.1 hj with rfl | hj
            · exact hI.lt hcell hk
            · exact hpath j hj
          have hopen := length_lt_of_nodup hnodup' hpath'
          congr 1
          refine List.map_congr_left fun d _ ↦ ?_
          have hsteps := unfoldSteps_item (s := s) hopen c d
          exact ih hnodup' hpath' (by rw [List.length_cons]; omega)
            (by rw [List.length_cons]; omega)
    all_goals rfl

/-- More fuel than a store provides makes no difference. -/
theorem unfoldWith_of_le (hs : s.WellFormed) {identity : Identity} {bound : Nat}
    (hI : identity.Bounded s bound) (hbound : bound ≤ s.cells.size + s.nodes.size)
    (c : CellId) {fuel : Nat} (hf : s.unfoldFuel ≤ fuel) :
    s.unfoldWith identity fuel [] c = s.unfoldWith identity s.unfoldFuel [] c := by
  have hsteps := unfoldSteps_le_unfoldFuel hbound c
  exact unfoldWith_fuel hs hI List.nodup_nil (by simp) (Nat.le_trans hsteps hf) hsteps

end LittleLisp.Store
