import LittleLisp.Proofs.Store.Equality
import Mathlib.Logic.Relation

namespace LittleLisp

open Relation

theorem Binary64.equal_self_of_ne_nan {x : Binary64} (h : x ≠ .nan) : x.equal x = true := by
  cases x with
  | nan => exact absurd rfl h
  | infinite | finite => simp [equal]

namespace Datum

mutual

/-- Structural equality of trees: the same variant with equal contents at every position, where
numbers are compared as numbers. -/
def alike : Datum → Datum → Bool
  | .atom m, .atom n => m == n
  | .number x, .number y => x.equal y
  | .str t, .str u => t == u
  | .bool p, .bool q => p == q
  | .quoted d, .quoted e => alike d e
  | .list ds, .list es => alikeItems ds es
  | .mark m, .mark n => m == n
  | _, _ => false

def alikeItems : List Datum → List Datum → Bool
  | [], [] => true
  | d :: ds, e :: es => alike d e && alikeItems ds es
  | _, _ => false

end

theorem alikeItems_map {f g : CellId → Datum} {xs : List CellId}
    (h : ∀ x ∈ xs, (f x).alike (g x) = true) : alikeItems (xs.map f) (xs.map g) = true := by
  induction xs with
  | nil => rfl
  | cons x xs ih =>
    rw [List.map_cons, List.map_cons, alikeItems, h x List.mem_cons_self,
      ih fun y hy ↦ h y (List.mem_cons_of_mem x hy)]
    rfl

theorem length_eq_of_alikeItems {ds es : List Datum} (h : alikeItems ds es = true) :
    ds.length = es.length := by
  induction ds generalizing es with
  | nil =>
    cases es with
    | nil => rfl
    | cons => cases h
  | cons d ds ih =>
    cases es with
    | nil => cases h
    | cons e es =>
      rw [alikeItems, Bool.and_eq_true] at h
      exact congrArg (· + 1) (ih h.2)

end Datum

namespace Store

variable {s : Store} {a b c i : CellId} {t u : Datum}

def parts (s : Store) (c : CellId) : List CellId :=
  match s.cell c with
  | .quoted i => [i]
  | .list h => s.items h
  | _ => []

def Inside (s : Store) (c i : CellId) : Prop := i ∈ s.parts c

/-- Nothing below the cell is inside itself, and no number below it is not-a-number. -/
structure Treelike (s : Store) (c : CellId) : Prop where
  acyclic : ∀ x, ReflTransGen s.Inside c x → ¬ TransGen s.Inside x x
  numbers : ∀ x, ReflTransGen s.Inside c x → s.cell x ≠ .number .nan

/-- The cell unfolds to the tree, with nothing cut off. -/
inductive Unfolds (s : Store) : CellId → Datum → Prop
  | absent {c : CellId} (cell : s.cell c = .absent) : Unfolds s c (.mark .absent)
  | atom {c name} (cell : s.cell c = .atom name) : Unfolds s c (.atom name)
  | number {c value} (cell : s.cell c = .number value) : Unfolds s c (.number value)
  | str {c text} (cell : s.cell c = .str text) : Unfolds s c (.str text)
  | bool {c flag} (cell : s.cell c = .bool flag) : Unfolds s c (.bool flag)
  | function {c fn} (cell : s.cell c = .function fn) : Unfolds s c (.mark (.function fn.name))
  | quoted {c i d} (cell : s.cell c = .quoted i) (inner : Unfolds s i d) : Unfolds s c (.quoted d)
  | list {c h} {f : CellId → Datum} (cell : s.cell c = .list h)
      (items : ∀ i ∈ s.items h, Unfolds s i (f i)) : Unfolds s c (.list ((s.items h).map f))

theorem Unfolds.unique (h : s.Unfolds c t) (h' : s.Unfolds c u) : t = u := by
  induction h generalizing u with
  | quoted cell _ ih =>
    cases h' with
    | quoted cell' inner =>
      cases cell.symm.trans cell'
      rw [ih inner]
    | _ => simp_all
  | list cell _ ih =>
    cases h' with
    | list cell' items =>
      cases cell.symm.trans cell'
      exact congrArg Datum.list (List.map_congr_left fun i hi ↦ ih i hi (items i hi))
    | _ => simp_all
  | _ => cases h' <;> simp_all

theorem inside_of_quoted (hc : s.cell c = .quoted i) : s.Inside c i := by
  rw [Inside, parts, hc]
  exact List.mem_singleton_self i

theorem inside_of_item {h : HandleId} (hc : s.cell c = .list h) (hi : i ∈ s.items h) :
    s.Inside c i := by
  rwa [Inside, parts, hc]

theorem Inside.lt (h : s.Inside c i) : c < s.cells.size := by
  refine lt_of_cell_ne_absent fun hc ↦ ?_
  rw [Inside, parts, hc] at h
  cases h

namespace Treelike

theorem inside (hc : s.Treelike c) (hi : s.Inside c i) : s.Treelike i where
  acyclic x hx := hc.acyclic x (.head hi hx)
  numbers x hx := hc.numbers x (.head hi hx)

theorem alike_self (hc : s.Treelike c) (ht : s.Unfolds c t) : t.alike t = true := by
  induction ht with
  | number cell =>
    refine Binary64.equal_self_of_ne_nan fun hnan ↦ hc.numbers _ .refl ?_
    rw [cell, hnan]
  | quoted cell _ ih => exact ih (hc.inside (inside_of_quoted cell))
  | list cell _ ih =>
    exact Datum.alikeItems_map fun i hi ↦ ih i hi (hc.inside (inside_of_item cell hi))
  | _ => simp [Datum.alike]

end Treelike

/-- On the way down to `c` the cells of `path` were met, all different, and there is fuel for those
that were not. -/
structure Descent (s : Store) (path : List CellId) (c : CellId) (fuel : Nat) : Prop where
  nodup : path.Nodup
  lt : ∀ p ∈ path, p < s.cells.size
  below : ∀ p ∈ path, TransGen s.Inside p c
  fuel : s.cells.size < fuel + path.length

namespace Descent

variable {path : List CellId} {fuel : Nat}

theorem nil (hf : s.cells.size < fuel) : s.Descent [] c fuel := ⟨List.nodup_nil, nofun, nofun, hf⟩

theorem pos (h : s.Descent path c fuel) : 0 < fuel := by
  have hlen : path.length ≤ (List.range s.cells.size).length :=
    h.nodup.length_le_of_subset fun p hp ↦ List.mem_range.2 (h.lt p hp)
  have hfuel := h.fuel
  rw [List.length_range] at hlen
  omega

theorem cons (h : s.Descent path c (fuel + 1)) (hnew : c ∉ path) (hi : s.Inside c i) :
    s.Descent (c :: path) i fuel where
  nodup := List.nodup_cons.2 ⟨hnew, h.nodup⟩
  lt := List.forall_mem_cons.2 ⟨hi.lt, h.lt⟩
  below := List.forall_mem_cons.2 ⟨.single hi, fun p hp ↦ (h.below p hp).tail hi⟩
  fuel := by
    have hfuel := h.fuel
    rw [List.length_cons]
    omega

theorem next (h : s.Descent path c (fuel + 1)) (hc : s.Treelike c) (hi : s.Inside c i) :
    s.Descent (c :: path) i fuel :=
  h.cons (fun hmem ↦ hc.acyclic c .refl (h.below c hmem)) hi

end Descent

theorem exists_unfolds {path : List CellId} {fuel : Nat} (hd : s.Descent path c fuel)
    (hc : s.Treelike c) : ∃ t, s.Unfolds c t := by
  induction fuel generalizing path c with
  | zero => exact absurd hd.pos (Nat.lt_irrefl 0)
  | succ fuel ih =>
    cases hcell : s.cell c with
    | absent => exact ⟨_, .absent hcell⟩
    | atom => exact ⟨_, .atom hcell⟩
    | number => exact ⟨_, .number hcell⟩
    | str => exact ⟨_, .str hcell⟩
    | bool => exact ⟨_, .bool hcell⟩
    | function => exact ⟨_, .function hcell⟩
    | quoted i =>
      have hi := inside_of_quoted hcell
      obtain ⟨t, ht⟩ := ih (hd.next hc hi) (hc.inside hi)
      exact ⟨_, .quoted hcell ht⟩
    | list h =>
      have hitems : ∀ i ∈ s.items h, ∃ t, s.Unfolds i t := fun i hi ↦
        ih (hd.next hc (inside_of_item hcell hi)) (hc.inside (inside_of_item hcell hi))
      choose! f hf using hitems
      exact ⟨_, .list hcell hf⟩

theorem equalItems?_eq_alikeItems {equal : CellId → CellId → Option Bool} {f g : CellId → Datum}
    {xs ys : List CellId} (hlen : xs.length = ys.length)
    (hsame : ∀ x ∈ xs, x ∈ ys → (f x).alike (g x) = true)
    (hequal : ∀ x ∈ xs, ∀ y ∈ ys, equal x y = some ((f x).alike (g y))) :
    equalItems? equal xs ys = some (Datum.alikeItems (xs.map f) (ys.map g)) := by
  induction xs generalizing ys with
  | nil =>
    cases List.length_eq_zero_iff.1 hlen.symm
    rfl
  | cons x xs ih =>
    obtain ⟨y, ys, rfl⟩ := List.exists_cons_of_length_eq_add_one hlen.symm
    have hrest := ih (Nat.succ.inj hlen)
      (fun z hz hz' ↦ hsame z (List.mem_cons_of_mem x hz) (List.mem_cons_of_mem y hz'))
      (fun z hz w hw ↦ hequal z (List.mem_cons_of_mem x hz) w (List.mem_cons_of_mem y hw))
    rw [equalItems?, List.map_cons, List.map_cons, Datum.alikeItems]
    split
    case isTrue heq =>
      subst heq
      rw [hsame x List.mem_cons_self List.mem_cons_self, hrest, Bool.true_and]
    case isFalse =>
      rw [hequal x List.mem_cons_self y List.mem_cons_self]
      cases (f x).alike (g y) with
      | true => rw [hrest, Bool.true_and]
      | false => rw [Bool.false_and]

theorem equalLists?_eq_alikeItems {equal : CellId → CellId → Option Bool} {f g : CellId → Datum}
    {h k : HandleId} (hsame : ∀ x ∈ s.items h, x ∈ s.items k → (f x).alike (g x) = true)
    (hequal : ∀ x ∈ s.items h, ∀ y ∈ s.items k, equal x y = some ((f x).alike (g y))) :
    s.equalLists? equal h k =
      some (Datum.alikeItems ((s.items h).map f) ((s.items k).map g)) := by
  simp only [equalLists?]
  split
  case isTrue hhead =>
    rw [items_eq_of_head hhead] at hsame ⊢
    rw [Datum.alikeItems_map fun x hx ↦ hsame x hx hx]
  case isFalse =>
    split
    case isTrue hlen => exact equalItems?_eq_alikeItems hlen hsame hequal
    case isFalse hlen =>
      refine congrArg some (Eq.symm (Bool.eq_false_iff.2 fun halike ↦ hlen ?_))
      simpa only [List.length_map] using Datum.length_eq_of_alikeItems halike

/-- Comparing cells compares their trees, as long as there is fuel. -/
theorem equal?_eq_alike {path : List CellId} {fuel : Nat} (hd : s.Descent path a fuel)
    (hp : s.Treelike a) (ha : s.Unfolds a t) (hb : s.Unfolds b u) :
    s.equal? fuel a b = some (t.alike u) := by
  induction fuel generalizing path a b t u with
  | zero => exact absurd hd.pos (Nat.lt_irrefl 0)
  | succ fuel ih =>
    cases ha with
    | quoted ca ia =>
      have hi := inside_of_quoted ca
      cases hb with
      | quoted cb ib =>
        simp only [equal?, ca, cb, Datum.alike]
        exact ih (hd.next hp hi) (hp.inside hi) ia ib
      | _ => simp_all [equal?, Datum.alike]
    | list ca ia =>
      cases hb with
      | list cb ib =>
        simp only [equal?, ca, cb, Datum.alike]
        -- An item of both lists is not compared; its tree is alike only without not-a-number.
        refine equalLists?_eq_alikeItems (fun x hx hx' ↦ ?_) fun x hx y hy ↦ ?_
        · have hi := inside_of_item ca hx
          rw [(ib x hx').unique (ia x hx)]
          exact (hp.inside hi).alike_self (ia x hx)
        · have hi := inside_of_item ca hx
          exact ih (hd.next hp hi) (hp.inside hi) (ia x hx) (ib y hy)
      | _ => simp_all [equal?, Datum.alike]
    | _ => cases hb <;> simp_all [equal?, Datum.alike]

def Endless (s : Store) (c : CellId) : Prop :=
  ∃ x, ReflTransGen s.Inside c x ∧ TransGen s.Inside x x

theorem equalItems?_eq_none {equal : CellId → CellId → Option Bool} {xs ys : List CellId}
    (h : equalItems? equal xs ys = none) : ∃ x ∈ xs, ∃ y ∈ ys, equal x y = none := by
  induction xs generalizing ys with
  | nil => cases h
  | cons x xs ih =>
    cases ys with
    | nil => cases h
    | cons y ys =>
      have hrest (hnone : equalItems? equal xs ys = none) :
          ∃ x' ∈ x :: xs, ∃ y' ∈ y :: ys, equal x' y' = none := by
        obtain ⟨x', hx', y', hy', hequal⟩ := ih hnone
        exact ⟨x', List.mem_cons_of_mem x hx', y', List.mem_cons_of_mem y hy', hequal⟩
      rw [equalItems?] at h
      split at h
      case isTrue => exact hrest h
      case isFalse =>
        split at h
        case h_1 => exact hrest h
        case h_2 => exact ⟨x, List.mem_cons_self, y, List.mem_cons_self, h⟩

theorem equal?_eq_none {budget : Nat} (h : s.equal? (budget + 1) a b = none) :
    ∃ x y, s.Inside a x ∧ s.Inside b y ∧ s.equal? budget x y = none := by
  rw [equal?] at h
  split at h
  case h_7 x y ha hb => exact ⟨x, y, inside_of_quoted ha, inside_of_quoted hb, h⟩
  case h_8 k l ha hb =>
    rw [equalLists?] at h
    split at h
    case isTrue => cases h
    case isFalse =>
      dsimp only at h
      split at h
      case isTrue =>
        obtain ⟨x, hx, y, hy, hequal⟩ := equalItems?_eq_none h
        exact ⟨x, y, inside_of_item ha hx, inside_of_item hb hy, hequal⟩
      case isFalse => cases h
  all_goals cases h

theorem Descent.endless {path : List CellId} {fuel : Nat} (hd : s.Descent path a fuel)
    (h : s.equal? fuel a b = none) : s.Endless a := by
  induction fuel generalizing path a b with
  | zero => exact absurd hd.pos (Nat.lt_irrefl 0)
  | succ fuel ih =>
    by_cases hmet : a ∈ path
    · exact ⟨a, .refl, hd.below a hmet⟩
    · obtain ⟨x, y, hx, -, hequal⟩ := equal?_eq_none h
      obtain ⟨z, hz, hloop⟩ := ih (hd.cons hmet hx) hequal
      exact ⟨z, .head hx hz, hloop⟩

/-- Where the budget exceeds the number of cells, only endless cells are too much for it. -/
theorem endless_of_same? {budget : Nat} (hbudget : s.cells.size < budget)
    (h : s.same? budget a b = none) : s.Endless a ∧ s.Endless b := by
  rw [same?] at h
  split at h
  case isTrue => cases h
  case isFalse => exact ⟨(Descent.nil hbudget).endless h, (Descent.nil hbudget).endless
      ((equal?_comm s budget b a).trans h)⟩

theorem treelike_of_older {n : Nat} (hparts : ∀ x < n, ∀ i ∈ s.parts x, i < x)
    (hnumbers : ∀ x < n, s.cell x ≠ .number .nan) (hc : c < n) : s.Treelike c := by
  have hle {x y : Nat} (hx : x < n) (h : ReflTransGen s.Inside x y) : y ≤ x := by
    induction h with
    | refl => exact Nat.le_refl x
    | tail _ hpart ih => exact Nat.le_trans (Nat.le_of_lt (hparts _ (by omega) _ hpart)) ih
  refine ⟨fun x hx hloop ↦ ?_, fun x hx ↦ hnumbers x (Nat.lt_of_le_of_lt (hle hc hx) hc)⟩
  have hxn := Nat.lt_of_le_of_lt (hle hc hx) hc
  obtain ⟨y, hxy, hyx⟩ := TransGen.head'_iff.1 hloop
  have hyx' := hparts x hxn y hxy
  exact absurd (hle (Nat.lt_trans hyx' hxn) hyx) (Nat.not_le.2 hyx')

end Store

open Store

/-- Equality is structural. Two cells below which nothing is inside itself and no number is
not-a-number unfold to one tree each. Comparing them ends within a budget of one more than the
number of cells, with and without the test for the same cell, and says whether the trees are alike;
within a smaller budget it says the same or nothing. -/
theorem equality_is_structural (s : Store) (a b : CellId) (ha : s.Treelike a) (hb : s.Treelike b) :
    ∃ t u : Datum, (∀ d, s.Unfolds a d ↔ d = t) ∧ (∀ d, s.Unfolds b d ↔ d = u) ∧
      (∀ n, s.cells.size < n → s.equal? n a b = some (t.alike u) ∧
        ∀ trace, Machine.AnswersEq ⟨s, trace⟩ n a b (t.alike u)) ∧
      ∀ n r, (s.equal? n a b = some r → r = t.alike u) ∧
        ∀ trace, Machine.AnswersEq ⟨s, trace⟩ n a b r → r = t.alike u := by
  have hsize := Nat.lt_succ_self s.cells.size
  obtain ⟨t, ht⟩ := exists_unfolds (.nil hsize) ha
  obtain ⟨u, hu⟩ := exists_unfolds (.nil hsize) hb
  have hequal : ∀ n, s.cells.size < n → s.equal? n a b = some (t.alike u) :=
    fun n hn ↦ equal?_eq_alike (.nil hn) ha ht hu
  have hsame : ∀ n, s.cells.size < n → s.same? n a b = some (t.alike u) := by
    intro n hn
    rw [same?]
    split
    case isTrue heq =>
      subst heq
      rw [hu.unique ht, ha.alike_self ht]
    case isFalse => exact hequal n hn
  refine ⟨t, u, fun d ↦ ⟨fun h ↦ h.unique ht, fun h ↦ h ▸ ht⟩,
    fun d ↦ ⟨fun h ↦ h.unique hu, fun h ↦ h ▸ hu⟩, fun n hn ↦ ⟨hequal n hn, fun trace ↦ ?_⟩,
    fun n r ↦ ⟨fun h ↦ ?_, fun trace h ↦ ?_⟩⟩
  · exact Machine.answersEq_iff.2 (hsame n hn)
  · have hlarge := equal?_mono (Nat.le_max_left n (s.cells.size + 1)) h
    rw [hequal _ (Nat.lt_of_lt_of_le hsize (Nat.le_max_right ..))] at hlarge
    exact (Option.some.inj hlarge).symm
  · have hlarge := same?_mono (Nat.le_max_left n (s.cells.size + 1)) (Machine.answersEq_iff.1 h)
    rw [hsame _ (Nat.lt_of_lt_of_le hsize (Nat.le_max_right ..))] at hlarge
    exact (Option.some.inj hlarge).symm

/-- A list of two zeros and its rest, a list of a negative zero, a quoted list that holds the rest
twice, and a quoted list of the negative zero's list and the rest. -/
def sharedParts : Store :=
  let s := ((Store.empty.addCell (.number (.zero false))).2.addCell (.number (.zero true))).2
  let s := (((s.addList [1, 1]).2.addListFrom (some 1)).2.addList [2]).2
  let s := ((s.addList [4, 4]).2.addList [5, 4]).2
  ((s.addCell (.quoted 6)).2.addCell (.quoted 7)).2

theorem treelike_sharedParts {c : CellId} (hc : c < 10) : sharedParts.Treelike c := by
  have hall : ((List.range 10).all fun x ↦ (sharedParts.parts x).all (· < x) &&
      sharedParts.cell x != .number .nan) = true := by decide +kernel
  simp only [List.all_eq_true, Bool.and_eq_true, decide_eq_true_eq, bne_iff_ne] at hall
  exact treelike_of_older (fun x hx ↦ (hall x (List.mem_range.2 hx)).1)
    (fun x hx ↦ (hall x (List.mem_range.2 hx)).2) hc

/-- The quoted lists are equal, though one of them shares its items and the other does not, and they
hold different zeros. A list and its rest are not. -/
theorem structural_sharedParts :
    sharedParts.Treelike 8 ∧ sharedParts.Treelike 9 ∧ sharedParts.Treelike 3 ∧
      sharedParts.Treelike 4 ∧
      (∃ t u : Datum, sharedParts.Unfolds 8 t ∧ sharedParts.Unfolds 9 u ∧ t.alike u = true ∧
        sharedParts.equal? 11 8 9 = some true ∧
        Machine.AnswersEq ⟨sharedParts, #[]⟩ 11 8 9 true) ∧
      ∃ t u : Datum, sharedParts.Unfolds 3 t ∧ sharedParts.Unfolds 4 u ∧ t.alike u = false := by
  have htree : ∀ c < 10, sharedParts.Treelike c := fun c ↦ treelike_sharedParts
  have hquoted : sharedParts.equal? 4 8 9 = some true := by decide +kernel
  have hrest : sharedParts.equal? 1 3 4 = some false := by decide +kernel
  obtain ⟨t, u, ht, hu, hanswers, honly⟩ :=
    equality_is_structural sharedParts 8 9 (htree 8 (by decide)) (htree 9 (by decide))
  obtain ⟨t', u', ht', hu', -, honly'⟩ :=
    equality_is_structural sharedParts 3 4 (htree 3 (by decide)) (htree 4 (by decide))
  have halike := (honly 4 true).1 hquoted
  obtain ⟨hequal, heq⟩ := hanswers 11 (by decide)
  rw [← halike] at hequal heq
  exact ⟨htree 8 (by decide), htree 9 (by decide), htree 3 (by decide), htree 4 (by decide),
    ⟨t, u, (ht t).2 rfl, (hu u).2 rfl, halike.symm, hequal, heq #[]⟩,
    t', u', (ht' t').2 rfl, (hu' u').2 rfl, ((honly' 1 false).1 hrest).symm⟩

end LittleLisp
