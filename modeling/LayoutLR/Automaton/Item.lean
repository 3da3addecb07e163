/-
  Layout-aware LR toolkit — productions with a dot.

  An item is a production of which the part before the dot has been met.  Items
  are ordered by production, and those of one production from the last dot
  position to the first.

  * `Item.next?`, `Item.isComplete`, `Item.advance`: the dot;
  * `Item.describe?`: an item and its parts as text, for a production that
    exists;
  * `ItemMap`: a value for each of some items, in item order.
-/
import LayoutLR.Grammar.Basic
import LayoutLR.Sorted.Map

namespace LayoutLR

/-- A production and a position in its body. -/
structure Item where
  prod : Nat
  dot : Nat
deriving DecidableEq, Repr, Inhabited

namespace Item

/-! ## Order -/

/-- By production, then from the last dot position to the first. -/
instance : Ord Item :=
  ⟨fun a b => (compare a.prod b.prod).then (compare b.dot a.dot)⟩

theorem compare_def (a b : Item) :
    compare a b = (compare a.prod b.prod).then (compare b.dot a.dot) :=
  rfl

theorem isLE_iff (a b : Item) :
    (compare a b).isLE ↔ a.prod < b.prod ∨ a.prod = b.prod ∧ b.dot ≤ a.dot := by
  rw [compare_def]
  rcases Nat.lt_trichotomy a.prod b.prod with h | h | h
  · simp [Nat.compare_eq_lt.2 h, h]
  · simp [h, Nat.isLE_compare]
  · simp only [Nat.compare_eq_gt.2 h, Ordering.gt_then, Ordering.isLE_gt, Bool.false_eq_true,
      false_iff]
    omega

instance : Std.TransOrd Item where
  eq_swap {a b} := by
    rw [compare_def, compare_def, Ordering.swap_then]
    rw [Nat.compare_swap, Nat.compare_swap]
  isLE_trans {a b c} h₁ h₂ := by
    rw [isLE_iff] at *
    omega

instance : Std.LawfulEqOrd Item where
  compare_self {a} := by simp
  eq_of_compare {a b} h := by
    rw [compare_def, Ordering.then_eq_eq] at h
    cases a
    cases b
    simp_all

/-! ## The dot -/

/-- The symbol after the dot. -/
def next? (g : Grammar) (i : Item) : Option Nat :=
  (g.body i.prod)[i.dot]?

/-- The symbols after the one that follows the dot. -/
def rest (g : Grammar) (i : Item) : List Nat :=
  (g.body i.prod).drop (i.dot + 1)

/-- Whether the dot stands at the end. -/
def isComplete (g : Grammar) (i : Item) : Bool :=
  i.dot == (g.body i.prod).length

/-- The item with the dot one symbol further. -/
def advance (i : Item) : Item :=
  ⟨i.prod, i.dot + 1⟩

/-- The item as text. -/
def text (g : Grammar) (i : Item) : String :=
  g.productionText i.prod (some i.dot)

end Item

/-- A value for each of some items, in item order. -/
abbrev ItemMap (ν : Type) := SortedMap Item ν

/-! ## Descriptions -/

/-- An item in words. -/
structure ItemDescription where
  item : Item
  text : String
  /-- The name of the symbol after the dot. -/
  next : Option String
  complete : Bool
  /-- The item with the dot one symbol further. -/
  advanced : String
  /-- The production without a dot. -/
  undotted : String

/-- The description of an item, if its production exists. -/
def Item.describe? (g : Grammar) (i : Item) : Option ItemDescription :=
  if i.prod < g.productions.size then
    some ⟨i, i.text g, (i.next? g).map g.name, i.isComplete g, i.advance.text g,
      g.productionText i.prod none⟩
  else none

/-- The descriptions of some items in item order, if all their productions exist. -/
def describeItems? (g : Grammar) (items : List Item) : Option (List ItemDescription) :=
  (items.mergeSort fun a b => (compare a b).isLE).mapM (Item.describe? g)

end LayoutLR
