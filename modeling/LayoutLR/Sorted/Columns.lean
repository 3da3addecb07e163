/-
  Layout-aware LR toolkit — sorted maps in two columns.

  The entries of a sorted map can be kept as two arrays: the keys in order, and
  their values at the same places.  Halving finds the place of a key or, if the
  key is not there, the place where it belongs.  An insertion and a removal
  change both columns at that place and tell whether they changed anything.

  * `Slot`, `locate`: a place that is taken or free, and how it is found;
  * `Columns.search`, `get?`, `contains`, `entries`: the views;
  * `Columns.insert`, `add`, `remove`, `union`: the operations, each with its
    answer;
  * `Columns.ofKeys`: the set of some keys.
-/

namespace LayoutLR

universe u v

variable {κ : Type u} {ν : Type v}

/-! ## Search -/

/-- Where a search ends: at the place of a key, or where the key belongs. -/
inductive Slot where
  | taken (place : Nat)
  | free (place : Nat)
deriving DecidableEq, Repr

/-- Halving between `lo` and `hi`: `probe` tells how the key of a place compares
    with the key that is looked for. -/
def locate (probe : Nat → Ordering) (lo hi : Nat) : Slot :=
  if _h : lo < hi then
    let mid := lo + (hi - lo) / 2
    match probe mid with
    | .eq => .taken mid
    | .lt => locate probe (mid + 1) hi
    | .gt => locate probe lo mid
  else .free lo
termination_by hi - lo
decreasing_by all_goals omega

/-- The keys of a map and, at the same places, their values. -/
structure Columns (κ : Type u) (ν : Type v) where
  keys : Array κ
  values : Array ν
deriving DecidableEq, Hashable, Inhabited

namespace Columns

/-! ## Views -/

/-- Columns without entries. -/
def new : Columns κ ν :=
  ⟨#[], #[]⟩

/-- The number of keys. -/
def size (t : Columns κ ν) : Nat :=
  t.keys.size

/-- Whether there is no key. -/
def isEmpty (t : Columns κ ν) : Bool :=
  t.keys.isEmpty

/-- The keys with their values, in order. -/
def entries (t : Columns κ ν) : List (κ × ν) :=
  t.keys.toList.zip t.values.toList

/-- Changes every value. -/
def mapValues (f : ν → ν) (t : Columns κ ν) : Columns κ ν :=
  { t with values := t.values.map f }

variable [Ord κ]

/-- The place of a key, or where it belongs. -/
def search (t : Columns κ ν) (k : κ) : Slot :=
  locate (fun i => t.keys[i]?.elim .gt fun k' => compare k' k) 0 t.keys.size

/-- The value of a key. -/
def get? (t : Columns κ ν) (k : κ) : Option ν :=
  match t.search k with
  | .taken i => t.values[i]?
  | .free _ => none

/-- Whether a key is there. -/
def contains (t : Columns κ ν) (k : κ) : Bool :=
  match t.search k with
  | .taken _ => true
  | .free _ => false

/-! ## Operations -/

/-- Adds a key with its value and tells whether the key is new; one that is
    there keeps its value. -/
def insert (t : Columns κ ν) (k : κ) (v : ν) : Bool × Columns κ ν :=
  match t.search k with
  | .taken _ => (false, t)
  | .free i => (true, ⟨t.keys.insertIdxIfInBounds i k, t.values.insertIdxIfInBounds i v⟩)

/-- Takes a key away and tells whether it was there. -/
def remove (t : Columns κ ν) (k : κ) : Bool × Columns κ ν :=
  match t.search k with
  | .taken i => (true, ⟨t.keys.eraseIdxIfInBounds i, t.values.eraseIdxIfInBounds i⟩)
  | .free _ => (false, t)

/-- Adds a key to a set and tells whether it is new. -/
def add (t : Columns κ Unit) (k : κ) : Bool × Columns κ Unit :=
  t.insert k ()

/-- Adds keys one after the other and tells whether any of them is new. -/
def addAll (t : Columns κ Unit) (ks : List κ) : Bool × Columns κ Unit :=
  ks.foldl (fun r k => (r.1 || (r.2.add k).1, (r.2.add k).2)) (false, t)

/-- Adds the keys of another set and tells whether any of them is new. -/
def union (t other : Columns κ Unit) : Bool × Columns κ Unit :=
  t.addAll other.keys.toList

/-! ## Sets of keys -/

/-- Leaves out each key that is equal to the one before it, of which `k` is the
    first. -/
def dropRepeats (k : κ) : List κ → List κ
  | [] => [k]
  | k' :: ks => if compare k k' = .eq then dropRepeats k ks else k :: dropRepeats k' ks

/-- The given keys in order, each of them once. -/
def sortKeys (ks : List κ) : List κ :=
  match ks.mergeSort fun a b => (compare a b).isLE with
  | [] => []
  | k :: ks => dropRepeats k ks

/-- The set of the given keys. -/
def ofKeys (ks : List κ) : Columns κ Unit :=
  ⟨(sortKeys ks).toArray, ((sortKeys ks).map fun _ => ()).toArray⟩

end Columns

end LayoutLR
