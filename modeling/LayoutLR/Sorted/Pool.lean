/-
  Layout-aware LR toolkit — symbol sets kept once each.

  A pool gives every distinct symbol set a handle, in the order of first
  appearance, so that equal sets have equal handles.

  * `Pool.intern`: the handle of a set, which is added if it is new;
  * `Pool.get`: the set of a handle;
  * `get_intern`: a handle leads back to its set.
-/
import LayoutLR.Sorted.Map

namespace LayoutLR

/-- The position of a set in its pool. -/
abbrev Handle := Nat

/-- Distinct symbol sets, the empty one first. -/
structure Pool where
  sets : Array SymSet
  /-- No set is there twice. -/
  nodup : sets.toList.Nodup
  /-- The empty set comes first. -/
  first : sets[0]? = some ∅

namespace Pool

/-- The handle of the empty set. -/
def emptyHandle : Handle := 0

/-- The pool with the empty set alone. -/
def new : Pool :=
  ⟨#[∅], by simp, rfl⟩

instance : Inhabited Pool := ⟨new⟩

/-- The set of a handle. -/
def get (p : Pool) (h : Handle) : SymSet :=
  p.sets[h]?.getD ∅

/-- The number of sets. -/
def size (p : Pool) : Nat :=
  p.sets.size

/-- The handle of a set, if it is there. -/
def handle? (p : Pool) (s : SymSet) : Option Handle :=
  p.sets.findIdx? fun t => decide (t = s)

/-- Adds a set that is not there. -/
def push (p : Pool) (s : SymSet) (h : p.handle? s = none) : Pool where
  sets := p.sets.push s
  nodup := by
    have hs : s ∉ p.sets.toList := by
      intro hs
      have := Array.findIdx?_eq_none_iff.1 h s (by simpa using hs)
      simp at this
    rw [Array.toList_push]
    refine List.nodup_append.2 ⟨p.nodup, by simp, ?_⟩
    intro a ha b hb
    rw [List.mem_singleton.1 hb]
    rintro rfl
    exact hs ha
  first := by
    have h0 : 0 < p.sets.size := by
      have := p.first
      rw [Array.getElem?_eq_some_iff] at this
      exact this.1
    rw [Array.getElem?_push_lt h0]
    have := p.first
    rw [Array.getElem?_eq_some_iff] at this
    rw [this.2]

/-- The handle of a set, and the pool that has it. -/
def intern (p : Pool) (s : SymSet) : Handle × Pool :=
  match h : p.handle? s with
  | some i => (i, p)
  | none => (p.sets.size, p.push s h)

/-- A handle leads back to its set. -/
theorem get_intern (p : Pool) (s : SymSet) : (p.intern s).2.get (p.intern s).1 = s := by
  unfold intern
  split
  · rename_i i h
    have := Array.findIdx?_eq_some_iff_getElem.1 h
    obtain ⟨hi, hs, _⟩ := this
    simp only [get, Array.getElem?_eq_getElem hi, Option.getD_some]
    exact of_decide_eq_true hs
  · simp [get, push]

end Pool

end LayoutLR
