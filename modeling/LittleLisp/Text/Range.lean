namespace LittleLisp.Text

/-- Membership in a union of inclusive ranges that are listed in increasing order: only the first
range that does not lie below the code point can hold it. -/
def inRanges (ranges : List (Nat × Nat)) (c : Char) : Bool :=
  match ranges.find? (c.toNat ≤ ·.2) with
  | some r => r.1 ≤ c.toNat
  | none => false

end LittleLisp.Text
