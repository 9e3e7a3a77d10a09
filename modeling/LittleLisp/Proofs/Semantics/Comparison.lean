import LittleLisp.Store.Equality

/-!
Comparison of cells by rules, without a budget. A budget can only cut a comparison short: the rules
derive an answer exactly when some budget gives it, and then every larger budget gives it too.
-/

namespace LittleLisp.Semantics

inductive Comparison where
  | cells (a b : CellId)
  | items (xs ys : List CellId)

inductive Compares (s : Store) : Comparison → Bool → Prop
  | absent {a b : CellId} : s.cell a = .absent → s.cell b = .absent → Compares s (.cells a b) true
  | atoms {a b : CellId} {m n : Text} :
      s.cell a = .atom m → s.cell b = .atom n → Compares s (.cells a b) (m == n)
  | numbers {a b : CellId} {x y : Binary64} :
      s.cell a = .number x → s.cell b = .number y → Compares s (.cells a b) (x.equal y)
  | strings {a b : CellId} {t u : Text} :
      s.cell a = .str t → s.cell b = .str u → Compares s (.cells a b) (t == u)
  | booleans {a b : CellId} {p q : Bool} :
      s.cell a = .bool p → s.cell b = .bool q → Compares s (.cells a b) (p == q)
  | functions {a b : CellId} {f g : FunctionValue} :
      s.cell a = .function f → s.cell b = .function g → Compares s (.cells a b) (f.name == g.name)
  | quoted {a b x y : CellId} {r : Bool} :
      s.cell a = .quoted x → s.cell b = .quoted y → Compares s (.cells x y) r →
      Compares s (.cells a b) r
  | sameFirstNode {a b : CellId} {h k : HandleId} :
      s.cell a = .list h → s.cell b = .list k → s.head h = s.head k → Compares s (.cells a b) true
  | lengths {a b : CellId} {h k : HandleId} :
      s.cell a = .list h → s.cell b = .list k → s.head h ≠ s.head k →
      (s.items h).length ≠ (s.items k).length → Compares s (.cells a b) false
  | lists {a b : CellId} {h k : HandleId} {r : Bool} :
      s.cell a = .list h → s.cell b = .list k → s.head h ≠ s.head k →
      (s.items h).length = (s.items k).length → Compares s (.items (s.items h) (s.items k)) r →
      Compares s (.cells a b) r
  | variants {a b : CellId} :
      (s.cell a).variant ≠ (s.cell b).variant → Compares s (.cells a b) false
  | ended : Compares s (.items [] []) true
  /-- An item is never compared with itself. -/
  | sameItem {x : CellId} {xs ys : List CellId} {r : Bool} :
      Compares s (.items xs ys) r → Compares s (.items (x :: xs) (x :: ys)) r
  | equalItem {x y : CellId} {xs ys : List CellId} {r : Bool} :
      x ≠ y → Compares s (.cells x y) true → Compares s (.items xs ys) r →
      Compares s (.items (x :: xs) (y :: ys)) r
  | differentItem {x y : CellId} {xs ys : List CellId} :
      x ≠ y → Compares s (.cells x y) false → Compares s (.items (x :: xs) (y :: ys)) false

variable {s : Store}

def Comparison.answer (s : Store) (budget : Nat) : Comparison → Option Bool
  | .cells a b => s.equal? budget a b
  | .items xs ys => Store.equalItems? (s.equal? budget) xs ys

theorem compares_items {budget : Nat}
    (hc : ∀ a b r, s.equal? budget a b = some r → Compares s (.cells a b) r)
    {xs ys : List CellId} (hl : xs.length = ys.length) {r : Bool}
    (h : Store.equalItems? (s.equal? budget) xs ys = some r) : Compares s (.items xs ys) r := by
  induction xs generalizing ys with
  | nil =>
    cases List.length_eq_zero_iff.1 hl.symm
    cases h
    exact .ended
  | cons x xs ih =>
    obtain ⟨y, ys, rfl⟩ := List.exists_cons_of_length_eq_add_one hl.symm
    have hl' : xs.length = ys.length := by simpa using hl
    rw [Store.equalItems?] at h
    split at h
    case isTrue he => exact he ▸ .sameItem (ih hl' h)
    case isFalse he =>
      split at h
      case h_1 ht => exact .equalItem he (hc x y true ht) (ih hl' h)
      case h_2 hr =>
        cases r with
        | true => exact absurd h hr
        | false => exact .differentItem he (hc x y false h)

theorem compares_of_equal? {budget : Nat} {a b : CellId} {r : Bool}
    (h : s.equal? budget a b = some r) : Compares s (.cells a b) r := by
  induction budget generalizing a b r with
  | zero => cases h
  | succ budget ih =>
    rw [Store.equal?] at h
    split at h
    case h_1 ha hb => cases h; exact .absent ha hb
    case h_2 ha hb => cases h; exact .atoms ha hb
    case h_3 ha hb => cases h; exact .numbers ha hb
    case h_4 ha hb => cases h; exact .strings ha hb
    case h_5 ha hb => cases h; exact .booleans ha hb
    case h_6 ha hb => cases h; exact .functions ha hb
    case h_7 ha hb => exact .quoted ha hb (ih h)
    case h_8 k l ha hb =>
      simp only [Store.equalLists?] at h
      split at h
      case isTrue hh => cases h; exact .sameFirstNode ha hb hh
      case isFalse hh =>
        split at h
        case isTrue hl =>
          exact .lists ha hb hh hl (compares_items (fun _ _ _ ↦ ih) hl h)
        case isFalse hl => cases h; exact .lengths ha hb hh hl
    case h_9 h₁ h₂ h₃ h₄ h₅ h₆ h₇ h₈ =>
      cases h
      refine .variants fun hv ↦ ?_
      cases ha : s.cell a <;> cases hb : s.cell b <;> simp_all [Cell.variant]

theorem Compares.answer {t : Comparison} {r : Bool} (h : Compares s t r) :
    ∃ d₀, ∀ d, d₀ ≤ d → t.answer s d = some r := by
  induction h with
  | absent ha hb | atoms ha hb | numbers ha hb | strings ha hb | booleans ha hb
  | functions ha hb =>
    refine ⟨1, fun d hd ↦ ?_⟩
    obtain ⟨d, rfl⟩ := Nat.exists_eq_add_of_le' hd
    simp [Comparison.answer, Store.equal?, ha, hb]
  | quoted ha hb _ ih =>
    obtain ⟨d₀, ih⟩ := ih
    refine ⟨d₀ + 1, fun d hd ↦ ?_⟩
    obtain ⟨d, rfl⟩ := Nat.exists_eq_add_of_le' (Nat.le_of_add_left_le hd)
    have h := ih d (by omega)
    simpa [Comparison.answer, Store.equal?, ha, hb] using h
  | sameFirstNode ha hb hh =>
    refine ⟨1, fun d hd ↦ ?_⟩
    obtain ⟨d, rfl⟩ := Nat.exists_eq_add_of_le' hd
    simp [Comparison.answer, Store.equal?, Store.equalLists?, ha, hb, hh]
  | lengths ha hb hh hl =>
    refine ⟨1, fun d hd ↦ ?_⟩
    obtain ⟨d, rfl⟩ := Nat.exists_eq_add_of_le' hd
    simp [Comparison.answer, Store.equal?, Store.equalLists?, ha, hb, hh, hl]
  | lists ha hb hh hl _ ih =>
    obtain ⟨d₀, ih⟩ := ih
    refine ⟨d₀ + 1, fun d hd ↦ ?_⟩
    obtain ⟨d, rfl⟩ := Nat.exists_eq_add_of_le' (Nat.le_of_add_left_le hd)
    have h := ih d (by omega)
    simpa [Comparison.answer, Store.equal?, Store.equalLists?, ha, hb, hh, hl] using h
  | @variants a b hv =>
    refine ⟨1, fun d hd ↦ ?_⟩
    obtain ⟨d, rfl⟩ := Nat.exists_eq_add_of_le' hd
    cases ha : s.cell a <;> cases hb : s.cell b <;>
      simp_all [Comparison.answer, Store.equal?, Cell.variant]
  | ended => exact ⟨0, fun d _ ↦ rfl⟩
  | sameItem _ ih =>
    obtain ⟨d₀, ih⟩ := ih
    refine ⟨d₀, fun d hd ↦ ?_⟩
    simpa [Comparison.answer, Store.equalItems?] using ih d hd
  | equalItem hne _ _ ihc ih =>
    obtain ⟨d₁, ihc⟩ := ihc
    obtain ⟨d₂, ih⟩ := ih
    refine ⟨max d₁ d₂, fun d hd ↦ ?_⟩
    have hc := ihc d (by omega)
    have hi := ih d (by omega)
    simp only [Comparison.answer] at hc hi ⊢
    simpa [Store.equalItems?, hne, hc] using hi
  | differentItem hne _ ihc =>
    obtain ⟨d₀, ihc⟩ := ihc
    refine ⟨d₀, fun d hd ↦ ?_⟩
    have hc := ihc d hd
    simp only [Comparison.answer] at hc ⊢
    simp [Store.equalItems?, hne, hc]

end LittleLisp.Semantics
