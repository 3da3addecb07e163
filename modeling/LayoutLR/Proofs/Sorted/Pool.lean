/-
  Layout-aware LR toolkit — laws of pools.

  A pool only grows: a handle that leads to a set leads to it for ever, and
  different handles lead to different sets.

  * `Pool.Extends`: a pool that was made from another one by adding sets;
  * `Pool.intern_extends`, `Pool.intern_lt`: interning a set;
  * `Pool.get_inj`: handles and sets correspond;
  * `Pool.intern_get`, `Pool.intern_of_new`: a set that is there, and one that is
    not.
-/
import Mathlib.Data.List.Nodup
import LayoutLR.Sorted.Pool

namespace LayoutLR

namespace Pool

variable {p p' p'' : Pool}

/-- Sets were added to a pool. -/
structure Extends (p p' : Pool) : Prop where
  size_le : p.size ≤ p'.size
  get_eq : ∀ h, h < p.size → p'.get h = p.get h

theorem Extends.refl (p : Pool) : p.Extends p :=
  ⟨Nat.le_refl _, fun _ _ => rfl⟩

theorem Extends.trans (h : p.Extends p') (h' : p'.Extends p'') : p.Extends p'' where
  size_le := Nat.le_trans h.size_le h'.size_le
  get_eq i hi := by rw [h'.get_eq i (Nat.lt_of_lt_of_le hi h.size_le), h.get_eq i hi]

theorem Extends.lt (h : p.Extends p') {i : Handle} (hi : i < p.size) : i < p'.size :=
  Nat.lt_of_lt_of_le hi h.size_le

theorem size_pos (p : Pool) : 0 < p.size :=
  (Array.getElem?_eq_some_iff.1 p.first).1

@[simp]
theorem get_emptyHandle (p : Pool) : p.get emptyHandle = ∅ := by
  simp [get, emptyHandle, p.first]

theorem emptyHandle_lt (p : Pool) : emptyHandle < p.size :=
  p.size_pos

/-- The handle of an interned set is one of the new pool. -/
theorem intern_lt (p : Pool) (s : SymSet) : (p.intern s).1 < (p.intern s).2.size := by
  unfold intern
  split
  · rename_i i h
    exact (Array.findIdx?_eq_some_iff_getElem.1 h).1
  · simp [size, push]

theorem intern_extends (p : Pool) (s : SymSet) : p.Extends (p.intern s).2 := by
  unfold intern
  split
  · exact Extends.refl p
  · refine ⟨by simp [size, push], fun h hh => ?_⟩
    have hh' : h < p.sets.size := hh
    simp [get, push, Array.getElem?_push_lt hh', hh']

/-- Different handles lead to different sets. -/
theorem get_inj {h h' : Handle} (hh : h < p.size) (hh' : h' < p.size) (heq : p.get h = p.get h') :
    h = h' := by
  have hh₁ : h < p.sets.toList.length := Nat.lt_of_lt_of_eq hh Array.length_toList.symm
  have hh₂ : h' < p.sets.toList.length := Nat.lt_of_lt_of_eq hh' Array.length_toList.symm
  have e (i : Nat) (hi : i < p.sets.toList.length) : p.get i = p.sets.toList[i] := by
    have hi' : i < p.sets.size := by simpa using hi
    simp [get, hi']
  rw [e h hh₁, e h' hh₂] at heq
  exact (p.nodup.getElem_inj_iff).1 heq

/-- A handle that is found for a set is one of the pool and leads to the set. -/
theorem get_of_handle? {s : SymSet} {h : Handle} (hs : p.handle? s = some h) :
    h < p.size ∧ p.get h = s := by
  obtain ⟨hlt, hset, -⟩ := Array.findIdx?_eq_some_iff_getElem.1 hs
  refine ⟨hlt, ?_⟩
  rw [← of_decide_eq_true hset]
  simp [get, hlt]

/-- A set that is there keeps its handle. -/
theorem intern_get {h : Handle} (hh : h < p.size) : p.intern (p.get h) = (h, p) := by
  unfold intern
  split
  · rename_i i hi
    obtain ⟨hlt, hget⟩ := get_of_handle? hi
    rw [get_inj hlt hh hget]
  · rename_i hnone
    have hmem : p.get h ∈ p.sets := by
      have hh' : h < p.sets.size := hh
      simp [get, hh']
    simpa using Array.findIdx?_eq_none_iff.1 hnone _ hmem

/-- A set that is not there gets the next handle. -/
theorem intern_of_new {s : SymSet} (hs : ∀ h < p.size, p.get h ≠ s) :
    (p.intern s).1 = p.size ∧ (p.intern s).2.size = p.size + 1 := by
  unfold intern
  split
  · rename_i i hi
    obtain ⟨hlt, hget⟩ := get_of_handle? hi
    exact absurd hget (hs i hlt)
  · exact ⟨rfl, by simp [size, push]⟩

end Pool

end LayoutLR
