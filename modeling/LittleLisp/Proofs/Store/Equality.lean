import LittleLisp.Evaluator.Builtins
import LittleLisp.Proofs.Evaluator.Execution
import LittleLisp.Proofs.Store.Holding
import Mathlib.Data.List.Forall2

/-!
The operator `eq` is an equivalence on the cells of every store, although equality of cells without
the test for identity is not: nothing equals not-a-number. A comparison that ends has the same
answer within every larger budget, comparing in the other order needs the same budget, and two
comparisons that succeed compose within the larger of their budgets, also on lists that hold
themselves.
-/

namespace LittleLisp

theorem Binary64.equal_comm (x y : Binary64) : x.equal y = y.equal x := by
  cases x <;> cases y <;> simp only [equal, Bool.beq_comm, Bool.and_comm, eq_comm]

theorem Binary64.equal_trans {x y z : Binary64} (h : x.equal y = true) (h' : y.equal z = true) :
    x.equal z = true := by
  cases x <;> cases y <;> cases z <;> simp_all [equal]
  rcases h with ⟨hx, hy⟩ | ⟨rfl, rfl⟩
  · rcases h' with ⟨-, hz⟩ | ⟨rfl, rfl⟩
    · exact .inl ⟨hx, hz⟩
    · exact .inl ⟨hx, hy⟩
  · exact h'

namespace Store

variable {s : Store} {equal equal' : CellId → CellId → Option Bool} {a b c : CellId}

section Order

theorem equalItems?_comm (hcomm : ∀ x y, equal x y = equal y x) (xs ys : List CellId) :
    equalItems? equal xs ys = equalItems? equal ys xs := by
  induction xs generalizing ys with
  | nil => cases ys <;> rfl
  | cons x xs ih =>
    cases ys with
    | nil => rfl
    | cons y ys =>
      simp only [equalItems?, eq_comm (a := x), hcomm x y, ih ys]

theorem equalLists?_comm (hcomm : ∀ x y, equal x y = equal y x) (h k : HandleId) :
    s.equalLists? equal h k = s.equalLists? equal k h := by
  simp only [equalLists?, eq_comm (a := s.head h), eq_comm (a := (s.items h).length),
    equalItems?_comm hcomm]

theorem equal?_comm (s : Store) (budget : Nat) (a b : CellId) :
    s.equal? budget a b = s.equal? budget b a := by
  induction budget generalizing a b with
  | zero => rfl
  | succ budget ih =>
    cases ha : s.cell a <;> cases hb : s.cell b <;>
      simp only [equal?, ha, hb, Bool.beq_comm, Binary64.equal_comm, ih, equalLists?_comm ih]

end Order

section Budget

variable (hle : ∀ x y r, equal x y = some r → equal' x y = some r)
include hle

theorem equalItems?_mono {xs ys : List CellId} {r : Bool}
    (h : equalItems? equal xs ys = some r) : equalItems? equal' xs ys = some r := by
  induction xs generalizing ys with
  | nil => exact h
  | cons x xs ih =>
    cases ys with
    | nil => exact h
    | cons y ys =>
      rw [equalItems?] at h ⊢
      split at h
      case isTrue heq => rw [if_pos heq, ih h]
      case isFalse hne =>
        rw [if_neg hne]
        rcases hx : equal x y with - | - | -
        · rw [hx] at h
          cases h
        · rw [hx] at h
          rw [hle x y false hx]
          exact h
        · rw [hx] at h
          rw [hle x y true hx]
          exact ih h

theorem equalLists?_mono {h k : HandleId} {r : Bool} (hr : s.equalLists? equal h k = some r) :
    s.equalLists? equal' h k = some r := by
  simp only [equalLists?] at hr ⊢
  split at hr
  case isTrue heq => rw [if_pos heq, hr]
  case isFalse hne =>
    rw [if_neg hne]
    split at hr
    case isTrue hlen => rw [if_pos hlen, equalItems?_mono hle hr]
    case isFalse hlen => rw [if_neg hlen, hr]

end Budget

theorem equal?_succ {budget : Nat} {r : Bool} (h : s.equal? budget a b = some r) :
    s.equal? (budget + 1) a b = some r := by
  induction budget generalizing a b r with
  | zero => cases h
  | succ budget ih =>
    have hle : ∀ x y r, s.equal? budget x y = some r → s.equal? (budget + 1) x y = some r :=
      fun _ _ _ ↦ ih
    rw [equal?] at h ⊢
    cases ha : s.cell a <;> cases hb : s.cell b <;> simp only [ha, hb] at h ⊢
    case quoted.quoted => exact ih h
    case list.list => exact equalLists?_mono hle h
    all_goals exact h

theorem equal?_mono {budget budget' : Nat} {r : Bool} (hle : budget ≤ budget')
    (h : s.equal? budget a b = some r) : s.equal? budget' a b = some r := by
  induction hle with
  | refl => exact h
  | step _ ih => exact equal?_succ ih

theorem same?_mono {budget budget' : Nat} {r : Bool} (hle : budget ≤ budget')
    (h : s.same? budget a b = some r) : s.same? budget' a b = some r := by
  rw [same?] at h ⊢
  split at h
  case isTrue heq => rw [if_pos heq, h]
  case isFalse hne => rw [if_neg hne, equal?_mono hle h]

/-- One level of a comparison that succeeds, over a relation for the cells inside. Items of lists
may also be the same. -/
def Agree (s : Store) (R : CellId → CellId → Prop) : Cell → Cell → Prop
  | .absent, .absent => True
  | .atom m, .atom n => m = n
  | .number x, .number y => x.equal y = true
  | .str t, .str u => t = u
  | .bool p, .bool q => p = q
  | .function f, .function g => f.name = g.name
  | .quoted x, .quoted y => R x y
  | .list h, .list k => List.Forall₂ (fun x y ↦ x = y ∨ R x y) (s.items h) (s.items k)
  | _, _ => False

theorem equalItems?_eq_true_iff {xs ys : List CellId} (hlen : xs.length = ys.length) :
    equalItems? equal xs ys = some true ↔
      List.Forall₂ (fun x y ↦ x = y ∨ equal x y = some true) xs ys := by
  induction xs generalizing ys with
  | nil =>
    cases List.length_eq_zero_iff.1 hlen.symm
    exact iff_of_true rfl .nil
  | cons x xs ih =>
    obtain ⟨y, ys, rfl⟩ := List.exists_cons_of_length_eq_add_one hlen.symm
    rw [List.forall₂_cons, ← ih (Nat.succ.inj hlen), equalItems?]
    by_cases heq : x = y
    · simp [heq]
    · rcases hxy : equal x y with - | - | - <;> simp [heq]

/-- Lists with the same first node have the same items, so that looking at the first node does not
change the answer. -/
theorem equalLists?_eq_true_iff {h k : HandleId} :
    s.equalLists? equal h k = some true ↔
      List.Forall₂ (fun x y ↦ x = y ∨ equal x y = some true) (s.items h) (s.items k) := by
  simp only [equalLists?]
  split
  case isTrue hhead =>
    rw [items_eq_of_head hhead]
    exact iff_of_true rfl (List.forall₂_same.2 fun x _ ↦ .inl rfl)
  case isFalse hhead =>
    split
    case isTrue hlen => exact equalItems?_eq_true_iff hlen
    case isFalse hlen => exact iff_of_false nofun fun h ↦ hlen h.length_eq

theorem equal?_eq_true_iff {budget : Nat} :
    s.equal? (budget + 1) a b = some true ↔
      s.Agree (fun x y ↦ s.equal? budget x y = some true) (s.cell a) (s.cell b) := by
  rw [equal?]
  cases s.cell a <;> cases s.cell b <;> simp [Agree, equalLists?_eq_true_iff]

theorem forall₂_trans {R : CellId → CellId → Prop} {xs ys zs : List CellId}
    (hR : ∀ x y z, R x y → R y z → R x z) (h : List.Forall₂ R xs ys) (h' : List.Forall₂ R ys zs) :
    List.Forall₂ R xs zs := by
  induction h generalizing zs with
  | nil => exact h'
  | cons hx _ ih =>
    cases h' with
    | cons hy hys => exact .cons (hR _ _ _ hx hy) (ih hys)

theorem Agree.trans {R : CellId → CellId → Prop} (hR : ∀ x y z, R x y → R y z → R x z)
    {p q r : Cell} (h : s.Agree R p q) (h' : s.Agree R q r) : s.Agree R p r := by
  have hitems : ∀ x y z, x = y ∨ R x y → y = z ∨ R y z → x = z ∨ R x z := by
    rintro x y z (rfl | hxy) (rfl | hyz)
    · exact .inl rfl
    · exact .inr hyz
    · exact .inr hxy
    · exact .inr (hR x y z hxy hyz)
  cases p <;> cases q <;> try exact h.elim
  all_goals cases r <;> try exact h'.elim
  case absent => trivial
  case number => exact Binary64.equal_trans h h'
  case quoted => exact hR _ _ _ h h'
  case list => exact forall₂_trans hitems h h'
  all_goals exact Eq.trans h h'

theorem equal?_trans {budget : Nat} (h : s.equal? budget a b = some true)
    (h' : s.equal? budget b c = some true) : s.equal? budget a c = some true := by
  induction budget generalizing a b c with
  | zero => cases h
  | succ budget ih =>
    have htrans : ∀ x y z, s.equal? budget x y = some true → s.equal? budget y z = some true →
        s.equal? budget x z = some true := fun _ _ _ ↦ ih
    rw [equal?_eq_true_iff] at h h' ⊢
    exact h.trans htrans h'

theorem same?_comm (s : Store) (budget : Nat) (a b : CellId) :
    s.same? budget a b = s.same? budget b a := by
  simp only [same?, equal?_comm s budget a b, eq_comm (a := a)]

theorem same?_trans {n k : Nat} (h : s.same? n a b = some true) (h' : s.same? k b c = some true) :
    s.same? (max n k) a c = some true := by
  have hn := same?_mono (Nat.le_max_left n k) h
  have hk := same?_mono (Nat.le_max_right n k) h'
  by_cases hab : a = b
  · rwa [hab]
  · by_cases hbc : b = c
    · rwa [← hbc]
    · rw [same?, if_neg hab] at hn
      rw [same?, if_neg hbc] at hk
      rw [same?]
      split
      · rfl
      · exact equal?_trans hn hk

end Store

open EvalM

def Machine.AnswersEq (m : Machine) (budget : Nat) (a b : CellId) (r : Bool) : Prop :=
  ∃ c m', (Builtin.apply budget .eq [a, b]).execute m = (.ok c, m') ∧ m'.store.cell c = .bool r

theorem execute_eq (m : Machine) (budget : Nat) (a b : CellId) :
    (Builtin.apply budget .eq [a, b]).execute m =
      match m.store.same? budget a b with
      | some r => (.ok m.store.cells.size, { m with store := (m.store.addCell (.bool r)).2 })
      | none => (.error .tooDeep, m) := by
  rw [Builtin.apply, Builtin.applyEq, execute_bind_ok execute_getStore]
  cases m.store.same? budget a b <;> rfl

theorem Machine.answersEq_iff {m : Machine} {budget : Nat} {a b : CellId} {r : Bool} :
    m.AnswersEq budget a b r ↔ m.store.same? budget a b = some r := by
  rw [AnswersEq, execute_eq]
  cases m.store.same? budget a b with
  | none => simp
  | some r' =>
    have hcell : (m.store.addCell (.bool r')).2.cell m.store.cells.size = .bool r' :=
      Store.cell_addCell _ _
    constructor
    · rintro ⟨c, m', hrun, hc⟩
      cases hrun
      cases hcell.symm.trans hc
      rfl
    · intro h
      cases h
      exact ⟨_, _, rfl, hcell⟩

/-- The operator `eq` is an equivalence on the cells of every store, whatever they hold. Of a cell
and itself it says so without any comparison, with a budget of none. Both orders of two cells have
the same outcome within every budget, an answer or the exhaustion of the budget. Two positive
answers give the third one, within the larger of their budgets. -/
theorem eq_is_equivalence (m : Machine) :
    (∀ a budget, m.AnswersEq budget a a true) ∧
    (∀ a b budget, (Builtin.apply budget .eq [a, b]).execute m =
        (Builtin.apply budget .eq [b, a]).execute m ∧
      ((∃ r, m.AnswersEq budget a b r) ∨
        (Builtin.apply budget .eq [a, b]).execute m = (.error .tooDeep, m))) ∧
    ∀ a b c n k, m.AnswersEq n a b true → m.AnswersEq k b c true →
      m.AnswersEq (max n k) a c true := by
  simp only [Machine.answersEq_iff]
  refine ⟨fun a budget ↦ if_pos rfl, fun a b budget ↦ ⟨?_, ?_⟩, fun a b c n k ↦ Store.same?_trans⟩
  · rw [execute_eq, execute_eq, Store.same?_comm]
  · rw [execute_eq]
    cases m.store.same? budget a b with
    | some r => exact .inl ⟨r, rfl⟩
    | none => exact .inr rfl

def withinItself : Machine :=
  let s := ((Store.empty.addCell (.number .nan)).2.addList [1]).2.push 0 2
  ⟨((s.addList [1, 2]).2.addList [1, 3]).2, #[]⟩

/-- Not-a-number is not equal to itself, but `eq` finds that it is the same cell, and so it finds
the three lists equal. One level of comparison is too little for the last two, in both orders. -/
theorem eq_equivalence_withinItself :
    withinItself.store.items 0 = [1, 2] ∧ withinItself.store.equal? 1 1 1 = some false ∧
      withinItself.AnswersEq 0 1 1 true ∧
      withinItself.AnswersEq 1 2 3 true ∧ withinItself.AnswersEq 2 3 4 true ∧
      withinItself.AnswersEq 2 2 4 true ∧
      (Builtin.apply 1 .eq [4, 3]).execute withinItself = (.error .tooDeep, withinItself) := by
  obtain ⟨hrefl, hsymm, htrans⟩ := eq_is_equivalence withinItself
  have hfirst : withinItself.AnswersEq 1 2 3 true := Machine.answersEq_iff.2 (by decide +kernel)
  have hsecond : withinItself.AnswersEq 2 3 4 true := Machine.answersEq_iff.2 (by decide +kernel)
  have hdeep : withinItself.store.same? 1 3 4 = none := by decide +kernel
  refine ⟨by decide +kernel, by decide +kernel, hrefl 1 0, hfirst, hsecond,
    htrans 2 3 4 1 2 hfirst hsecond, ?_⟩
  rw [(hsymm 4 3 1).1, execute_eq, hdeep]

end LittleLisp
