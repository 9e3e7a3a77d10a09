import LittleLisp.Store.Unfold

namespace LittleLisp.Store

/-- What is printed so far, and the first nodes of the lists that are open. -/
structure Page where
  text : Text := []
  opened : List (Option NodeId) := []

namespace Page

def put (t : Text) (p : Page) : Page := { p with text := p.text ++ t }

def enter (head : Option NodeId) (p : Page) : Page := { p with opened := p.opened.insert head }

def leave (head : Option NodeId) (p : Page) : Page := { p with opened := p.opened.erase head }

end Page

def putItems (putCell : CellId → Page → Except Fault Page) : List CellId → Page → Except Fault Page
  | [], p => .ok p
  | [c], p => putCell c p
  | c :: cs, p => do putItems putCell cs ((← putCell c p).put " ")

/-- Endless nesting enters an open list again, which is not written out. -/
def putCell (s : Store) : Nat → CellId → Page → Except Fault Page
  | 0, _, p => .ok (p.put "(...)")
  | fuel + 1, c, p =>
    match s.cell c with
    | .absent => .error .notPrintable
    | .atom name => .ok (p.put name)
    | .number value => .ok (p.put (.ofChars value.print))
    | .str text => .ok (p.put (Datum.stringLiteral text))
    | .bool flag => .ok (p.put (if flag then "#t" else "#f"))
    | .function fn => .ok (p.put ("#" ++ fn.name))
    | .quoted inner => putCell s fuel inner (p.put "\x27")
    | .list h =>
      let head := s.head h
      if head ≠ none ∧ head ∈ p.opened then .ok (p.put "(...)")
      else do
        let p ← putItems (putCell s fuel) (s.items h) ((p.enter head).put "(")
        return (p.put ")").leave head

def print (s : Store) (c : CellId) : Except Fault Text := do
  return (← s.putCell s.unfoldFuel c {}).text

end LittleLisp.Store
