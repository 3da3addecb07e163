/-
  Layout-aware LR toolkit — numbered symbol sets with an index.

  A registry numbers symbol sets in the order in which they first appear.  Its
  index leads from a set to its handle, so that a set that is there is found
  without a look at the others.

  * `Registry.intern`: the handle of a set, which is added if it is new;
  * `Registry.get?`: the set of a handle.
-/
import Std.Data.HashMap
import LayoutLR.Sorted.Columns
import LayoutLR.Sorted.Pool

namespace LayoutLR

/-- Numbered sets, and the number of each of them. -/
structure Registry where
  sets : Array (Columns Nat Unit)
  index : Std.HashMap (Columns Nat Unit) Handle

namespace Registry

/-- The set of a handle. -/
def get? (r : Registry) (h : Handle) : Option (Columns Nat Unit) :=
  r.sets[h]?

/-- The number of sets. -/
def size (r : Registry) : Nat :=
  r.sets.size

/-- Whether there is no set. -/
def isEmpty (r : Registry) : Bool :=
  r.sets.isEmpty

/-- The handle of a set, and the registry that has it. -/
def intern (r : Registry) (s : Columns Nat Unit) : Handle × Registry :=
  match r.index[s]? with
  | some h => (h, r)
  | none => (r.sets.size, ⟨r.sets.push s, r.index.insert s r.sets.size⟩)

/-- The registry with the empty set alone. -/
def new : Registry :=
  (intern ⟨#[], ∅⟩ .new).2

end Registry

end LayoutLR
