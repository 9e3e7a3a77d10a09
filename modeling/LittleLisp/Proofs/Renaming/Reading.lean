import LittleLisp.Proofs.Renaming.Basic
import LittleLisp.Proofs.Store.Writing
import LittleLisp.Store.Equality

/-!
Reading from matching stores. Related lists have related items, a name has related values in
related scopes, related cells are equal to related cells or not on both sides, and related cells
unfold to the same tree, so that they are printed and described alike.
-/

namespace LittleLisp.Renaming

open Store

variable {R : Renaming} {s t : Store}

abbrev SameNodes (R : Renaming) : List NodeId → List NodeId → Prop :=
  List.Forall₂ R.node

theorem SameBindings.lookup {l l' : List (Text × CellId)} (h : R.SameBindings l l') (name : Text) :
    Option.Rel R.cell (l.lookup name) (l'.lookup name) := by
  induction h with
  | nil => exact .none
  | @cons p p' l l' hp _ ih =>
    obtain ⟨n, c⟩ := p
    obtain ⟨n', c'⟩ := p'
    obtain ⟨rfl, hc⟩ := hp
    rw [List.lookup_cons, List.lookup_cons]
    cases name == n with
    | true => exact .some hc
    | false => exact ih

theorem head?_of_forall₂ {α β : Type} {r : α → β → Prop} {l : List α} {l' : List β}
    (h : List.Forall₂ r l l') : Option.Rel r l.head? l'.head? := by
  cases h with
  | nil => exact .none
  | cons h _ => exact .some h

theorem getLast?_of_forall₂ {α β : Type} {r : α → β → Prop} {l : List α} {l' : List β}
    (h : List.Forall₂ r l l') : Option.Rel r l.getLast? l'.getLast? := by
  have hreverse := head?_of_forall₂ (List.forall₂_reverse_iff.2 h)
  rwa [List.head?_reverse, List.head?_reverse] at hreverse

namespace Matches

section

variable (hR : R.Matches s t)
include hR

theorem cell {c c' : CellId} (h : R.cell c c') :
    R.SameCell (s.cell c) (t.cell c') := by
  obtain ⟨a, b, ha, hb, hab⟩ := hR.content h
  obtain ⟨x, hx, rfl⟩ := Option.map_eq_some_iff.1 ha
  obtain ⟨y, hy, rfl⟩ := Option.map_eq_some_iff.1 hb
  cases hab with
  | cell same => rwa [cell_eq_of_getElem? hx, cell_eq_of_getElem? hy]

theorem head {l l' : HandleId} (h : R.handle l l') :
    R.SameLink (s.head l) (t.head l') := by
  obtain ⟨a, b, ha, hb, hab⟩ := hR.content h
  obtain ⟨o, ho, rfl⟩ := Option.map_eq_some_iff.1 ha
  obtain ⟨o', ho', rfl⟩ := Option.map_eq_some_iff.1 hb
  cases hab with
  | handle first => rwa [Store.head, Store.head, ho, ho', Option.join_some, Option.join_some]

theorem node {n n' : NodeId} (h : R.node n n') :
    ∃ x x', s.nodes[n]? = some x ∧ t.nodes[n']? = some x' ∧
      R.cell x.value x'.value ∧ R.SameLink x.next x'.next := by
  obtain ⟨a, b, ha, hb, hab⟩ := hR.content h
  obtain ⟨x, hx, rfl⟩ := Option.map_eq_some_iff.1 ha
  obtain ⟨x', hx', rfl⟩ := Option.map_eq_some_iff.1 hb
  cases hab with
  | node value next => exact ⟨_, _, hx, hx', value, next⟩

theorem scope {e e' : ScopeId} (h : R.scope e e') :
    ∃ x x', s.scopes[e]? = some x ∧ t.scopes[e']? = some x' ∧
      R.SameBindings x.bindings x'.bindings ∧ Option.Rel R.Captured x.outer x'.outer := by
  obtain ⟨a, b, ha, hb, hab⟩ := hR.content h
  obtain ⟨x, hx, rfl⟩ := Option.map_eq_some_iff.1 ha
  obtain ⟨x', hx', rfl⟩ := Option.map_eq_some_iff.1 hb
  cases hab with
  | scope bindings outer => exact ⟨_, _, hx, hx', bindings, outer⟩

theorem nodeValue {n n' : NodeId} (h : R.node n n') :
    R.cell (s.nodeValue n) (t.nodeValue n') := by
  obtain ⟨x, x', hx, hx', hvalue, -⟩ := hR.node h
  simpa only [Store.nodeValue, hx, hx'] using hvalue

theorem links {o o' : Option NodeId} {ns : List NodeId} (ho : R.SameLink o o')
    (h : Links s o ns) : ∃ ns', Links t o' ns' ∧ R.SameNodes ns ns' := by
  induction h generalizing o' with
  | nil =>
    cases ho
    exact ⟨[], .nil, .nil⟩
  | @cons n node ns read rest ih =>
    cases ho with
    | @some _ n' hn =>
      obtain ⟨x, x', hx, hx', -, hnext⟩ := hR.node hn
      cases hx.symm.trans read
      obtain ⟨ns', hlinks, hns⟩ := ih hnext
      exact ⟨n' :: ns', .cons hx' hlinks, .cons hn hns⟩

theorem chain {l l' : HandleId} (h : R.handle l l') :
    R.SameNodes (s.chain l) (t.chain l') := by
  obtain ⟨ns, hlinks, hns⟩ := hR.links (hR.head h) (hR.left.linked.links_chain l)
  rwa [← hlinks.unique (hR.right.linked.links_chain l')]

theorem items {l l' : HandleId} (h : R.handle l l') :
    R.SameCells (s.items l) (t.items l') := by
  rw [Store.items, Store.items, SameCells, List.forall₂_map_left_iff, List.forall₂_map_right_iff]
  exact (hR.chain h).imp fun n n' hn ↦ hR.nodeValue hn

theorem split? {l l' : HandleId} (h : R.handle l l') :
    Option.Rel (fun p p' ↦ R.rel (.cell p.1) (.cell p'.1) ∧ R.SameLink p.2 p'.2)
      (s.split? l) (t.split? l') := by
  have hchain := hR.chain h
  rw [Store.split?, Store.split?]
  generalize s.chain l = ns at hchain
  generalize t.chain l' = ns' at hchain
  cases hchain with
  | nil => exact .none
  | cons hn hns => exact .some ⟨hR.nodeValue hn, head?_of_forall₂ hns⟩

theorem lookup? {e e' : ScopeId} (h : R.Captured e e') (name : Text) :
    Option.Rel R.cell (s.lookup? e name) (t.lookup? e' name) := by
  induction e using Nat.strongRecOn generalizing e' with
  | ind e ih =>
    rcases h with h | h
    · obtain ⟨x, x', hx, hx', hbindings, houter⟩ := hR.scope h
      have hlt : ∀ o : Nat, x.outer = some o → o < e := fun o ho ↦ hR.left.outer_lt hx ho
      have hhere := SameBindings.lookup hbindings name
      rw [lookup?_eq hR.left hx, lookup?_eq hR.right hx']
      generalize x.bindings.lookup name = v, x'.bindings.lookup name = v' at hhere
      generalize x.outer = o, x'.outer = o' at houter hlt
      cases hhere with
      | some hc => exact .some hc
      | none =>
        cases houter with
        | none => exact .none
        | some hcaptured => exact ih _ (hlt _ rfl) hcaptured
    · obtain ⟨o, hread, ho⟩ := hR.hidden h
      obtain ⟨x, hx, hxo⟩ := Option.map_eq_some_iff.1 hread
      cases hxo
      rw [lookup?_eq hR.left hx]
      exact ih o (hR.left.outer_lt hx rfl) (.inl ho)

theorem cell_eq_iff {a b a' b' : CellId} (ha : R.cell a a')
    (hb : R.cell b b') : a = b ↔ a' = b' := by
  simpa using hR.inj ha hb

theorem head_eq_iff {l k l' k' : HandleId} (hl : R.handle l l')
    (hk : R.handle k k') : s.head l = s.head k ↔ t.head l' = t.head k' := by
  have h := hR.head hl
  have h' := hR.head hk
  generalize s.head l = o, t.head l' = o' at h
  generalize s.head k = p, t.head k' = p' at h'
  cases h with
  | none => cases h' <;> simp
  | some h =>
    cases h' with
    | none => simp
    | some h' => simpa using hR.inj h h'

theorem equalItems? {equal equal' : CellId → CellId → Option Bool}
    (hequal : ∀ {a b a' b' : CellId}, R.cell a a' → R.cell b b' →
      equal a b = equal' a' b')
    {xs ys xs' ys' : List CellId} (hx : R.SameCells xs xs') (hy : R.SameCells ys ys') :
    Store.equalItems? equal xs ys = Store.equalItems? equal' xs' ys' := by
  induction hx generalizing ys ys' with
  | nil => rfl
  | @cons x x' xs xs' hx _ ih =>
    cases hy with
    | nil => rfl
    | cons hy hys =>
      simp only [Store.equalItems?, hR.cell_eq_iff hx hy, hequal hx hy, ih hys]

theorem equal? (budget : Nat) {a b a' b' : CellId} (ha : R.cell a a')
    (hb : R.cell b b') : s.equal? budget a b = t.equal? budget a' b' := by
  induction budget generalizing a b a' b' with
  | zero => rfl
  | succ budget ih =>
    have hca := hR.cell ha
    have hcb := hR.cell hb
    simp only [Store.equal?]
    generalize s.cell a = x, t.cell a' = x' at hca
    generalize s.cell b = y, t.cell b' = y' at hcb
    cases hca with
    | quoted inner =>
      cases hcb with
      | quoted inner' => exact ih inner inner'
      | _ => rfl
    | function same =>
      cases hcb with
      | function same' => cases same <;> cases same' <;> rfl
      | _ => rfl
    | list items =>
      cases hcb with
      | list items' =>
        have hlength := (hR.items items).length_eq
        have hlength' := (hR.items items').length_eq
        have hitems := hR.equalItems? ih (hR.items items) (hR.items items')
        simp only [equalLists?, hR.head_eq_iff items items', hlength, hlength', hitems]
      | _ => rfl
    | _ => cases hcb <;> rfl

theorem same? (budget : Nat) {a b a' b' : CellId} (ha : R.cell a a')
    (hb : R.cell b b') : s.same? budget a b = t.same? budget a' b' := by
  simp only [Store.same?, hR.cell_eq_iff ha hb, hR.equal? budget ha hb]

end

/-- Related lists are recognised by related numbers, and different ones by different numbers. -/
structure Recognises (R : Renaming) (s t : Store) (identity : Identity) (K : Nat → Nat → Prop) :
    Prop where
  inj : ∀ {j k j' k' : Nat}, K j j' → K k k' → (j = k ↔ j' = k')
  keys : ∀ {c c' : CellId} {l l' : HandleId}, R.cell c c' →
    R.handle l l' → Option.Rel K (identity s c l) (identity t c' l')

theorem Recognises.mem_iff {identity : Identity} {K : Nat → Nat → Prop}
    (hK : Recognises R s t identity K) {path path' : List Nat} (hpath : List.Forall₂ K path path')
    {k k' : Nat} (hk : K k k') : k ∈ path ↔ k' ∈ path' := by
  induction hpath with
  | nil => simp
  | cons hj _ ih => rw [List.mem_cons, List.mem_cons, hK.inj hk hj, ih]

variable (hR : R.Matches s t)
include hR

theorem recognises_byCell : Recognises R s t byCell R.cell where
  inj := hR.cell_eq_iff
  keys hc _ := .some hc

theorem recognises_byFirstNode :
    Recognises R s t byFirstNode R.node where
  inj hj hk := by simpa using hR.inj hj hk
  keys _ hl := hR.head hl

theorem unfoldWith {identity : Identity} {K : Nat → Nat → Prop}
    (hK : Recognises R s t identity K) (fuel : Nat) {path path' : List Nat}
    (hpath : List.Forall₂ K path path') {c c' : CellId} (hc : R.cell c c') :
    s.unfoldWith identity fuel path c = t.unfoldWith identity fuel path' c' := by
  induction fuel generalizing path path' c c' with
  | zero => rfl
  | succ fuel ih =>
    have hmap : ∀ {path path' : List Nat} {cs cs' : List CellId}, List.Forall₂ K path path' →
        R.SameCells cs cs' → cs.map (s.unfoldWith identity fuel path) =
          cs'.map (t.unfoldWith identity fuel path') := by
      intro path path' cs cs' hpath hcs
      induction hcs with
      | nil => rfl
      | cons hc _ ihcs => rw [List.map_cons, List.map_cons, ih hpath hc, ihcs]
    have hcell := hR.cell hc
    simp only [Store.unfoldWith]
    generalize s.cell c = x, t.cell c' = x' at hcell
    cases hcell with
    | quoted inner => exact congrArg _ (ih hpath inner)
    | function same => cases same <;> rfl
    | @list l l' items =>
      have hkeys := hK.keys hc items
      have hitems := hR.items items
      dsimp only
      generalize identity s c l = o, identity t c' l' = o' at hkeys
      cases hkeys with
      | none => exact congrArg _ (hmap hpath hitems)
      | some hk => simp only [hK.mem_iff hpath hk, hmap (.cons hk hpath) hitems]
    | _ => rfl

/-- Both unfoldings have enough fuel, so they may as well have the same. -/
theorem unfoldWith_unfoldFuel {identity : Identity} {K : Nat → Nat → Prop} {bound bound' : Nat}
    (hK : Recognises R s t identity K) (hs : identity.Bounded s bound)
    (ht : identity.Bounded t bound') (hbound : bound ≤ s.cells.size + s.nodes.size)
    (hbound' : bound' ≤ t.cells.size + t.nodes.size) {c c' : CellId}
    (hc : R.cell c c') :
    s.unfoldWith identity s.unfoldFuel [] c = t.unfoldWith identity t.unfoldFuel [] c' :=
  calc s.unfoldWith identity s.unfoldFuel [] c
    _ = s.unfoldWith identity (s.unfoldFuel + t.unfoldFuel) [] c :=
      (unfoldWith_of_le hR.left hs hbound c (Nat.le_add_right _ _)).symm
    _ = t.unfoldWith identity (s.unfoldFuel + t.unfoldFuel) [] c' := hR.unfoldWith hK _ .nil hc
    _ = t.unfoldWith identity t.unfoldFuel [] c' :=
      unfoldWith_of_le hR.right ht hbound' c' (Nat.le_add_left _ _)

theorem snapshot {c c' : CellId} (hc : R.cell c c') :
    s.snapshot c = t.snapshot c' :=
  hR.unfoldWith_unfoldFuel hR.recognises_byCell (bounded_byCell s) (bounded_byCell t)
    (Nat.le_add_right _ _) (Nat.le_add_right _ _) hc

theorem tree {c c' : CellId} (hc : R.cell c c') : s.tree c = t.tree c' :=
  hR.unfoldWith_unfoldFuel hR.recognises_byFirstNode (bounded_byFirstNode hR.left)
    (bounded_byFirstNode hR.right) (Nat.le_add_left _ _) (Nat.le_add_left _ _) hc

theorem print {c c' : CellId} (hc : R.cell c c') : s.print c = t.print c' := by
  rw [print_eq, print_eq, hR.tree hc]

end Matches

end LittleLisp.Renaming
