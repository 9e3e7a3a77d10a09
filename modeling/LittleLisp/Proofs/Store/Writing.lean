import LittleLisp.Store.Printer

/-!
Printing writes the tree of a cell: the lists that are open when a cell is reached are those on the
path to it, so a list is left out just where the tree is cut off.
-/

namespace LittleLisp.Store

variable {s : Store} {p : Page} {path : List NodeId}

namespace Page

theorem put_put (t u : Text) (p : Page) : (p.put t).put u = p.put (t ++ u) := by
  simp only [put, List.append_assoc]

theorem put_enter (head : Option NodeId) (t : Text) (p : Page) :
    (p.enter head).put t = (p.put t).enter head :=
  rfl

theorem leave_enter {head : Option NodeId} (h : head ∉ p.opened) :
    (p.enter head).leave head = p := by
  rw [enter, leave, List.insert_of_not_mem h, List.erase_cons_head]

/-- The open lists are those on a path. -/
def On (p : Page) (path : List NodeId) : Prop := p.opened = path.map some

theorem On.mem_opened_iff (h : p.On path) {n : NodeId} : some n ∈ p.opened ↔ n ∈ path := by
  rw [h]
  simp

theorem On.enter (h : p.On path) {n : NodeId} (hn : n ∉ path) :
    (p.enter (some n)).On (n :: path) := by
  rw [On, Page.enter, List.insert_of_not_mem (mt h.mem_opened_iff.1 hn), h, List.map_cons]

theorem On.put (h : p.On path) (t : Text) : (p.put t).On path := h

def shown (d : Datum) (p : Page) : Except Fault Page :=
  if d.complete then .ok (p.put d.print) else .error .notPrintable

def shownItems (ds : List Datum) (p : Page) : Except Fault Page :=
  if Datum.allComplete ds then .ok (p.put (Datum.printItems ds)) else .error .notPrintable

theorem On.of_shown {d : Datum} {q : Page} (h : p.On path) (hq : p.shown d = .ok q) :
    q.On path := by
  unfold shown at hq
  split at hq
  · cases hq
    exact h
  · cases hq

theorem shownItems_nil (p : Page) : p.shownItems [] = .ok p := by
  simp [shownItems, Datum.allComplete, Datum.printItems, Page.put]

theorem shownItems_cons (d d' : Datum) (ds : List Datum) (p : Page) :
    p.shownItems (d :: d' :: ds) =
      p.shown d >>= fun p ↦ (p.put " ").shownItems (d' :: ds) := by
  cases hd : d.complete with
  | false => simp [shownItems, shown, Datum.allComplete, hd, Bind.bind, Except.bind]
  | true =>
    simp [shownItems, shown, Datum.allComplete, Datum.printItems, hd, Bind.bind, Except.bind,
      put_put]

theorem shown_list (ds : List Datum) (p : Page) :
    p.shown (.list ds) = (p.put "(").shownItems ds >>= fun p ↦ .ok (p.put ")") := by
  cases hds : Datum.allComplete ds with
  | false => simp [shownItems, shown, Datum.complete, hds, Bind.bind, Except.bind]
  | true =>
    simp [shownItems, shown, Datum.complete, Datum.print, hds, Bind.bind, Except.bind, put_put]

theorem leave_shownItems {head : Option NodeId} (h : head ∉ p.opened) (ds : List Datum) :
    (((p.enter head).put "(").shownItems ds >>= fun q ↦ .ok ((q.put ")").leave head)) =
      p.shown (.list ds) := by
  rw [shown_list, shownItems, shownItems]
  split
  · simp only [Bind.bind, Except.bind, put_enter]
    exact congrArg Except.ok (leave_enter h)
  · rfl

theorem shown_quoted (d : Datum) (p : Page) : p.shown (.quoted d) = (p.put "\x27").shown d := by
  rw [shown, shown, put_put]
  rfl

end Page

open Page

theorem putItems_eq {put : CellId → Page → Except Fault Page} {f : CellId → Datum}
    (h : ∀ c p, p.On path → put c p = p.shown (f c)) (cs : List CellId) (hp : p.On path) :
    putItems put cs p = p.shownItems (cs.map f) := by
  induction cs generalizing p with
  | nil => exact (shownItems_nil p).symm
  | cons c cs ih =>
    cases cs with
    | nil =>
      rw [putItems, h c p hp]
      simp [shown, shownItems, Datum.allComplete, Datum.printItems]
    | cons c' cs =>
      rw [putItems, h c p hp, List.map_cons, List.map_cons, shownItems_cons]
      · cases hc : p.shown (f c) with
        | error e => rfl
        | ok q =>
          simp only [Bind.bind, Except.bind]
          exact ih ((hp.of_shown hc).put _)
      · simp

theorem items_of_head_eq_none {h : HandleId} (hhead : s.head h = none) : s.items h = [] := by
  rw [items, chain, hhead]
  cases s.nodes.size <;> rfl

theorem putCell_eq (fuel : Nat) (c : CellId) (hp : p.On path) :
    s.putCell fuel c p = p.shown (s.unfoldWith byFirstNode fuel path c) := by
  induction fuel generalizing c p path with
  | zero => rfl
  | succ fuel ih =>
    rw [putCell, unfoldWith]
    cases hcell : s.cell c with
    | list h =>
      dsimp only [byFirstNode]
      cases hhead : s.head h with
      | none =>
        have hnone : none ∉ p.opened := by
          rw [hp]
          simp
        dsimp only
        rw [if_neg (by simp), items_of_head_eq_none hhead, putItems, ← shownItems_nil]
        exact leave_shownItems hnone []
      | some n =>
        dsimp only
        by_cases hn : n ∈ path
        · rw [if_pos ⟨by simp, hp.mem_opened_iff.2 hn⟩, if_pos hn]
          rfl
        · have hnew := mt hp.mem_opened_iff.1 hn
          rw [if_neg (by simp [hnew]), if_neg hn,
            putItems_eq (fun c _ hq ↦ ih c hq) _ ((hp.enter hn).put _)]
          exact leave_shownItems hnew _
    | quoted inner =>
      dsimp only
      rw [shown_quoted]
      exact ih inner (hp.put _)
    | _ => rfl

/-- Printing a cell gives the text of its tree. -/
theorem print_eq (s : Store) (c : CellId) :
    s.print c = if (s.tree c).complete then .ok (s.tree c).print else .error .notPrintable := by
  have hempty : Page.On {} [] := rfl
  rw [print, putCell_eq _ c hempty, shown, ← tree]
  split <;> rfl

end LittleLisp.Store
