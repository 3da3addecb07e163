/-
  Layout-aware LR toolkit — registries keep what pools keep.

  A registry keeps the sets of a pool if at every handle its columns hold the
  set of the pool and its index leads to all of them.  Interning a set then gives
  the handle that the pool gives, and leaves a registry that keeps the sets of
  the pool that is left.

  * `Registry.Keeps`: a registry with the sets of a pool;
  * `Keeps.get?_intern`, `get?_intern_of_get?`: an interned set and the earlier
    ones;
  * `Keeps.handle_eq_iff`: equal handles and equal sets;
  * `keeps_new`, `Keeps.intern`: the empty registry and one more set.
-/
import Std.Data.HashMap.Lemmas
import LayoutLR.Proofs.Sorted.Columns
import LayoutLR.Proofs.Sorted.Pool
import LayoutLR.Sorted.Registry

namespace LayoutLR

namespace Registry

/-- The registry has the sets of a pool, and its index leads to all of them. -/
structure Keeps (r : Registry) (p : Pool) : Prop where
  size_eq : r.size = p.size
  holds : ∀ {h s}, r.get? h = some s → s.Holds (p.get h)
  index_iff : ∀ {h s}, r.index[s]? = some h ↔ r.get? h = some s

variable {r : Registry} {p : Pool} {s s' : Columns Nat Unit} {m : SymSet} {h h' : Handle}

theorem lt_of_get? (hs : r.get? h = some s) : h < r.size :=
  (Array.getElem?_eq_some_iff.1 hs).1

theorem exists_get? (hh : h < r.size) : ∃ s, r.get? h = some s :=
  ⟨_, Array.getElem?_eq_getElem hh⟩

theorem intern_known (hs : r.index[s]? = some h) : r.intern s = (h, r) := by
  rw [intern, hs]

theorem intern_unknown (hs : r.index[s]? = none) :
    r.intern s = (r.size, ⟨r.sets.push s, r.index.insert s r.size⟩) := by
  rw [intern, hs]
  rfl

/-- One more set at the end. -/
theorem get?_push {index : Std.HashMap (Columns Nat Unit) Handle} :
    (⟨r.sets.push s, index⟩ : Registry).get? h = some s' ↔
      r.get? h = some s' ∨ (h = r.size ∧ s = s') := by
  rw [get?, get?, Array.getElem?_push]
  split
  · rename_i hh
    simp [hh, size]
  · rename_i hh
    simp [hh, size]

/-- An earlier handle keeps its set. -/
theorem get?_intern_of_get? (hs : r.get? h = some s) (s' : Columns Nat Unit) :
    (r.intern s').2.get? h = some s := by
  cases hi : r.index[s']? with
  | some i => rwa [intern_known hi]
  | none =>
    rw [intern_unknown hi, get?_push]
    exact Or.inl hs

/-- A handle leads back to its set. -/
theorem Keeps.get?_intern (hr : r.Keeps p) (s : Columns Nat Unit) :
    (r.intern s).2.get? (r.intern s).1 = some s := by
  cases hi : r.index[s]? with
  | some i =>
    rw [intern_known hi]
    exact hr.index_iff.1 hi
  | none =>
    rw [intern_unknown hi, get?_push]
    exact Or.inr ⟨rfl, rfl⟩

theorem Keeps.lt (hr : r.Keeps p) (hs : r.get? h = some s) : h < p.size :=
  hr.size_eq ▸ lt_of_get? hs

/-- Two handles are equal if and only if their sets have the same elements. -/
theorem Keeps.handle_eq_iff (hr : r.Keeps p) (hs : r.get? h = some s) (hs' : r.get? h' = some s') :
    h = h' ↔ ∀ k, s.contains k = s'.contains k := by
  constructor
  · rintro rfl k
    rw [hs] at hs'
    rw [Option.some.inj hs']
  · intro hmem
    refine Pool.get_inj (hr.lt hs) (hr.lt hs') (SymSet.ext fun k => ?_)
    rw [← SortedMap.contains_iff, ← SortedMap.contains_iff, ← (hr.holds hs).contains_eq,
      ← (hr.holds hs').contains_eq, hmem k]

/-- The index after one more set that was not there. -/
theorem index_push {index : Std.HashMap (Columns Nat Unit) Handle} (hs : index[s]? = none)
    {n : Nat} : (index.insert s n)[s']? = some h ↔ index[s']? = some h ∨ (h = n ∧ s = s') := by
  rw [Std.HashMap.getElem?_insert]
  by_cases heq : s = s'
  · subst heq
    simp [hs, eq_comm]
  · simp [heq]

theorem new_eq : new = ⟨(#[] : Array (Columns Nat Unit)).push .new,
    (∅ : Std.HashMap (Columns Nat Unit) Handle).insert .new 0⟩ :=
  congrArg Prod.snd (intern_unknown (r := ⟨#[], ∅⟩) Std.HashMap.getElem?_empty)

/-- At first there is the empty set alone. -/
theorem get?_new : new.get? h = some s ↔ h = Pool.emptyHandle ∧ .new = s := by
  rw [new_eq]
  exact (get?_push (r := ⟨#[], ∅⟩)).trans (by simp [get?, size, Pool.emptyHandle])

/-- The registry with the empty set alone keeps what the pool with it keeps. -/
theorem keeps_new : new.Keeps .new := by
  refine ⟨by rw [new_eq]; rfl, fun hs => ?_, ?_⟩
  · obtain ⟨rfl, rfl⟩ := get?_new.1 hs
    exact Pool.get_emptyHandle _ ▸ Columns.holds_new
  · intro h s
    rw [get?_new, new_eq, index_push Std.HashMap.getElem?_empty]
    simp [Pool.emptyHandle]

/-- A registry and a pool give a set the same handle, and what is left of them
    keeps the same sets. -/
theorem Keeps.intern (hr : r.Keeps p) (hs : s.Holds m) :
    (r.intern s).1 = (p.intern m).1 ∧ (r.intern s).2.Keeps (p.intern m).2 := by
  cases hi : r.index[s]? with
  | some i =>
    have hget := hr.index_iff.1 hi
    obtain rfl : m = p.get i := hs.map_unique (hr.holds hget)
    rw [intern_known hi, Pool.intern_get (hr.lt hget)]
    exact ⟨rfl, hr⟩
  | none =>
    -- a pool that had the set would have it at a handle of which the registry knows
    have hnew (i : Handle) (hlt : i < p.size) : p.get i ≠ m := by
      rintro rfl
      obtain ⟨s', hget⟩ := exists_get? (hr.size_eq ▸ hlt)
      obtain rfl : s' = s := (hr.holds hget).unique hs
      rw [hr.index_iff.2 hget] at hi
      cases hi
    obtain ⟨hfst, hsize⟩ := Pool.intern_of_new hnew
    rw [intern_unknown hi]
    refine ⟨hr.size_eq.trans hfst.symm, ?_, fun {h s'} hget => ?_, ?_⟩
    · rw [hsize, ← hr.size_eq, size, size, Array.size_push]
    · rcases get?_push.1 hget with hget | ⟨rfl, rfl⟩
      · rw [(p.intern_extends m).get_eq h (hr.lt hget)]
        exact hr.holds hget
      · rw [hr.size_eq, ← hfst, p.get_intern m]
        exact hs
    · intro h s'
      rw [index_push hi, get?_push, hr.index_iff]

end Registry

end LayoutLR
