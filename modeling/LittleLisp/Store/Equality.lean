import LittleLisp.Store.Chain

/-!
Equality of cells. Two lists with the same first node are equal; otherwise their lengths are
compared, and then their items in order, where a cell equals itself. Comparing lists that contain
themselves need not end, so a comparison has a budget of nested steps.
-/

namespace LittleLisp.Store

/-- Compares items pairwise up to the first difference; an item is never compared with itself. -/
def equalItems? (equal : CellId → CellId → Option Bool) :
    List CellId → List CellId → Option Bool
  | x :: xs, y :: ys =>
    if x = y then equalItems? equal xs ys
    else
      match equal x y with
      | some true => equalItems? equal xs ys
      | r => r
  | _, _ => some true

def equalLists? (s : Store) (equal : CellId → CellId → Option Bool) (h k : HandleId) :
    Option Bool :=
  if s.head h = s.head k then some true
  else
    let xs := s.items h
    let ys := s.items k
    if xs.length = ys.length then equalItems? equal xs ys else some false

/-- Whether two cells are equal; `none` if the budget does not suffice. -/
def equal? (s : Store) : Nat → CellId → CellId → Option Bool
  | 0, _, _ => none
  | budget + 1, a, b =>
    match s.cell a, s.cell b with
    | .absent, .absent => some true
    | .atom m, .atom n => some (m == n)
    | .number x, .number y => some (x.equal y)
    | .str t, .str u => some (t == u)
    | .bool p, .bool q => some (p == q)
    | .function f, .function g => some (f.name == g.name)
    | .quoted x, .quoted y => equal? s budget x y
    | .list h, .list k => s.equalLists? (equal? s budget) h k
    | _, _ => some false

/-- Equality that takes a cell to equal itself, whatever it holds. -/
def same? (s : Store) (budget : Nat) (a b : CellId) : Option Bool :=
  if a = b then some true else s.equal? budget a b

end LittleLisp.Store
