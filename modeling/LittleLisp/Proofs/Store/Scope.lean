import LittleLisp.Store.Scope

namespace LittleLisp.Store

variable {s : Store}

theorem mem_bind {n : Text} {c : CellId} {l : List (Text × CellId)} {p : Text × CellId}
    (h : p ∈ bind n c l) : p.2 = c ∨ p ∈ l := by
  induction l with
  | nil =>
    rw [List.mem_singleton.1 h]
    exact .inl rfl
  | cons q l ih =>
    rw [bind] at h
    split at h
    · rcases List.mem_cons.1 h with rfl | h
      · exact .inl rfl
      · exact .inr (List.mem_cons_of_mem q h)
    · rcases List.mem_cons.1 h with rfl | h
      · exact .inr List.mem_cons_self
      · exact (ih h).imp_right (List.mem_cons_of_mem q)

theorem mem_scopeChainFrom {fuel : Nat} {o : Option ScopeId} {p : ScopeId × Scope}
    (h : p ∈ s.scopeChainFrom fuel o) : s.scopes[p.1]? = some p.2 := by
  induction fuel generalizing o with
  | zero => cases h
  | succ fuel ih =>
    cases o with
    | none => cases h
    | some e =>
      simp only [scopeChainFrom] at h
      split at h
      case h_1 scope hread =>
        rcases List.mem_cons.1 h with rfl | h
        · exact hread
        · exact ih h
      case h_2 => cases h

theorem exists_of_lookup? {e : ScopeId} {n : Text} {c : CellId} (h : s.lookup? e n = some c) :
    ∃ (e' : Nat) (scope : Scope), s.scopes[e']? = some scope ∧ (n, c) ∈ scope.bindings := by
  obtain ⟨p, hp, hc⟩ := List.exists_of_findSome?_eq_some h
  obtain ⟨before, after, hb, -⟩ := List.lookup_eq_some_iff.1 hc
  exact ⟨p.1, p.2, mem_scopeChainFrom hp, by simp [hb]⟩

end LittleLisp.Store
