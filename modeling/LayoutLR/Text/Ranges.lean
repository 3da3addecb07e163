/-
  Layout-aware LR toolkit — sets of code points written as ranges.
-/

namespace LayoutLR.Text

/-- A set of code points, written as increasing ranges with both ends included. -/
abbrev Ranges := List (Nat × Nat)

/-- Whether the code point of `c` lies in one of the ranges. -/
def Ranges.holds (r : Ranges) (c : Char) : Bool :=
  r.any fun p => decide (p.1 ≤ c.toNat) && decide (c.toNat ≤ p.2)

end LayoutLR.Text
