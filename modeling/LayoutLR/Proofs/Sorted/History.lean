/-
  Layout-aware LR toolkit — sets by their history, and their handles.

  A set is made by collecting keys, by additions, removals and unions; a map by
  insertions.  Whatever the history, the columns are in order and show the
  mathematical set or map, and the answer of an operation tells whether the set
  changed.  A registry of such sets gives equal handles to equal sets only, and
  the same handles as a pool.

  * `find?_insert`, `mem_entries_first`: the first value of a key stays;
  * `Columns.Shows`: columns in order that show a relation;
  * `History.holds`, `History.mem_set`: the set of a history;
  * `Registry.keeps_internAll`, `Registry.handleAfter_eq_iff`: interning many sets;
  * `sorted_sets_faithful`: all of this together.
-/
import Mathlib.Data.List.Induction
import Mathlib.Data.Set.Lattice
import Mathlib.Order.CompletePartialOrder
import LayoutLR.Proofs.Sorted.Columns
import LayoutLR.Proofs.Sorted.Registry

namespace LayoutLR

universe u v

variable {κ : Type u} {ν : Type v}

/-! ## The first value of a key -/

/-- The first pair with the key `k` has the value `v`. -/
def FirstOf (es : List (κ × ν)) (k : κ) (v : ν) : Prop :=
  ∃ before after, es = before ++ (k, v) :: after ∧ k ∉ before.map Prod.fst

namespace SortedMap

variable [Ord κ] [Std.TransOrd κ] [Std.LawfulEqOrd κ]

/-- An insertion leaves the value of a key that is there. -/
theorem find?_insert (m : SortedMap κ ν) (k k' : κ) (v : ν) :
    (m.insert k v).find? k' =
      (m.find? k').or (if compare k' k == .eq then some v else none) := by
  ext w
  rw [find?_eq_some_iff, mem_entries_insert, Option.or_eq_some_iff, find?_eq_some_iff,
    find?_eq_none_iff]
  refine or_congr_right ?_
  by_cases hk : k' = k
  · subst hk
    simp [and_comm, eq_comm]
  · have hne : (compare k' k == .eq) = false := by
      rwa [beq_eq_false_iff_ne, ne_eq, Std.compare_eq_iff_eq]
    simp [hk, hne]

theorem find?_ofList (es : List (κ × ν)) (k : κ) :
    (ofList es).find? k = (es.find? fun e => compare k e.1 == .eq).map Prod.snd := by
  induction es using List.reverseRecOn with
  | nil => rfl
  | append_singleton es e ih =>
    have hlast : ofList (es ++ [e]) = (ofList es).insert e.1 e.2 := by simp [ofList]
    rw [hlast, find?_insert, ih, List.find?_append, Option.map_or]
    congr 1
    rw [List.find?_singleton]
    split <;> rfl

/-- Of the pairs with one key that are inserted, the first stays. -/
theorem mem_entries_first (es : List (κ × ν)) (k : κ) (v : ν) :
    (k, v) ∈ (ofList es).entries ↔ FirstOf es k v := by
  have hbefore (before : List (κ × ν)) :
      (∀ e ∈ before, (!(compare k e.1 == .eq)) = true) ↔ k ∉ before.map Prod.fst := by
    simp only [List.mem_map, Bool.not_eq_true', beq_eq_false_iff_ne, ne_eq,
      Std.compare_eq_iff_eq, not_exists, not_and, eq_comm (a := k)]
  rw [← find?_eq_some_iff, find?_ofList, Option.map_eq_some_iff]
  simp only [List.find?_eq_some_iff_append, hbefore]
  constructor
  · rintro ⟨⟨k', v'⟩, ⟨hk, before, after, he, hnot⟩, rfl⟩
    obtain rfl : k = k' := Std.compare_eq_iff_eq.1 (beq_iff_eq.1 hk)
    exact ⟨before, after, he, hnot⟩
  · rintro ⟨before, after, he, hnot⟩
    exact ⟨(k, v), ⟨by simp, before, after, he, hnot⟩, rfl⟩

end SortedMap

namespace Columns

/-! ## Columns in order -/

/-- The columns are in order and show the pairs of a relation. -/
structure Shows [Ord κ] (t : Columns κ ν) (P : κ → ν → Prop) : Prop where
  increasing : Increasing t.keys.toList
  parallel : t.values.size = t.keys.size
  mem_entries_iff : ∀ k v, (k, v) ∈ t.entries ↔ P k v
  get?_iff : ∀ k v, t.get? k = some v ↔ P k v
  contains_iff : ∀ k, t.contains k = true ↔ ∃ v, P k v
  /-- No operation reaches beyond a column. -/
  fits : ∀ k, (t.search k).Fits t.keys.size ∧ (t.search k).Fits t.values.size

/-- The map of the pairs that are inserted one after the other. -/
def ofEntries [Ord κ] (es : List (κ × ν)) : Columns κ ν :=
  es.foldl (fun t e => (t.insert e.1 e.2).2) new

variable [Ord κ] [Std.TransOrd κ] [Std.LawfulEqOrd κ] {t : Columns κ ν} {m : SortedMap κ ν}

theorem Holds.shows (h : t.Holds m) {P : κ → ν → Prop} (hP : ∀ k v, (k, v) ∈ m.entries ↔ P k v) :
    t.Shows P where
  increasing := h.keys_eq ▸ m.increasing
  parallel := h.parallel
  mem_entries_iff k v := by rw [h.entries_eq, hP]
  get?_iff k v := by rw [h.get?_eq, SortedMap.find?_eq_some_iff, hP]
  contains_iff k := by
    rw [h.contains_eq, SortedMap.contains_iff, SortedMap.mem_keys_iff]
    exact exists_congr (hP k)
  fits := h.search_fits

theorem Holds.foldl_insert (h : t.Holds m) (es : List (κ × ν)) :
    (es.foldl (fun t e => (t.insert e.1 e.2).2) t).Holds
      (es.foldl (fun m e => m.insert e.1 e.2) m) := by
  induction es generalizing t m with
  | nil => exact h
  | cons e es ih => exact ih (h.insert e.1 e.2)

theorem holds_ofEntries (es : List (κ × ν)) : (ofEntries es).Holds (.ofList es) :=
  holds_new.foldl_insert es

end Columns

/-! ## Histories -/

/-- How a set is made.  To add a key is to insert it with the only value there is. -/
inductive History (κ : Type u) where
  | new
  | collect (keys : List κ)
  | add (before : History κ) (k : κ)
  | remove (before : History κ) (k : κ)
  | union (before other : History κ)

namespace History

/-- The columns that the operations leave. -/
def columns [Ord κ] : History κ → Columns κ Unit
  | new => .new
  | collect ks => .ofKeys ks
  | add h k => (h.columns.add k).2
  | remove h k => (h.columns.remove k).2
  | union h other => (h.columns.union other.columns).2

/-- The sorted map on which the same operations are done. -/
def set [Ord κ] [Std.TransOrd κ] : History κ → SortedMap κ Unit
  | new => ∅
  | collect ks => .ofList (ks.map fun k => (k, ()))
  | add h k => h.set.insert k ()
  | remove h k => h.set.erase k
  | union h other => h.set.union other.set

/-- The keys that the set must have. -/
def members : History κ → Set κ
  | new => ∅
  | collect ks => {k | k ∈ ks}
  | add h k => insert k h.members
  | remove h k => h.members \ {k}
  | union h other => h.members ∪ other.members

variable [Ord κ] [Std.TransOrd κ] [Std.LawfulEqOrd κ]

theorem holds (h : History κ) : h.columns.Holds h.set := by
  induction h with
  | new => exact Columns.holds_new
  | collect ks => exact Columns.holds_ofKeys ks
  | add h k ih => exact ih.insert k ()
  | remove h k ih => exact ih.remove k
  | union h other ih ihother => exact ih.union ihother

theorem mem_set (h : History κ) (k : κ) : k ∈ h.set.keys ↔ k ∈ h.members := by
  induction h with
  | new => simp [set, members]
  | collect ks => simp [set, members, SortedMap.mem_keys_ofList]
  | add h a ih => simp [set, members, ih]
  | remove h a ih => simp [set, members, SortedMap.mem_keys_erase, ih]
  | union h other ih ihother => simp [set, members, ih, ihother]

theorem shows (h : History κ) : h.columns.Shows fun k _ => k ∈ h.members := by
  refine h.holds.shows fun k v => ?_
  rw [← h.mem_set, SortedMap.mem_keys_iff]
  exact ⟨fun hv => ⟨v, hv⟩, fun ⟨_, hv⟩ => hv⟩

theorem add_iff (h : History κ) (k : κ) : (h.columns.add k).1 = true ↔ k ∉ h.members := by
  rw [← h.mem_set]
  exact h.holds.insert_iff k ()

theorem remove_iff (h : History κ) (k : κ) : (h.columns.remove k).1 = true ↔ k ∈ h.members := by
  rw [← h.mem_set]
  exact h.holds.remove_iff k

/-- A union tells whether the set grew. -/
theorem union_iff (h other : History κ) :
    (h.columns.union other.columns).1 = true ↔ h.members ⊂ (h.union other).members := by
  rw [h.holds.union_iff other.holds, members, Set.ssubset_iff_exists,
    and_iff_right Set.subset_union_left]
  simp only [mem_set, Set.mem_union]
  constructor
  · rintro ⟨k, hk, hnew⟩
    exact ⟨k, Or.inr hk, hnew⟩
  · rintro ⟨k, hk, hnew⟩
    exact ⟨k, hk.resolve_left hnew, hnew⟩

/-- A set grew if it has more keys than before. -/
theorem union_iff_size (h other : History κ) :
    (h.columns.union other.columns).1 = true ↔ h.columns.size < (h.union other).columns.size := by
  have hle := SortedMap.size_le_size_union h.set other.set
  rw [h.holds.union_iff other.holds, h.holds.size_eq, (h.union other).holds.size_eq, set,
    Nat.lt_iff_le_and_ne, and_iff_right hle, ne_comm, ne_eq, SortedMap.size_union_eq_iff]
  simp

/-- Two sets have the same members if the same keys are found in them. -/
theorem members_eq_iff (x y : History κ) :
    x.members = y.members ↔ ∀ k, x.columns.contains k = y.columns.contains k := by
  have hmem (h : History κ) (k : κ) : h.columns.contains k = true ↔ k ∈ h.members :=
    (h.shows.contains_iff k).trans ⟨fun ⟨_, hk⟩ => hk, fun hk => ⟨(), hk⟩⟩
  simp only [Set.ext_iff, Bool.eq_iff_iff, hmem]

end History

/-! ## Handles -/

/-- A pool after the sets of some histories were interned. -/
def Pool.internAll (p : Pool) (hs : List (History Nat)) : Pool :=
  hs.foldl (fun p x => (p.intern x.set).2) p

namespace Registry

/-- A registry after the sets of some histories were interned. -/
def internAll (r : Registry) (hs : List (History Nat)) : Registry :=
  hs.foldl (fun r x => (r.intern x.columns).2) r

/-- The handle that a set gets after others were interned. -/
def handleAfter (hs : List (History Nat)) (x : History Nat) : Handle :=
  ((new.internAll hs).intern x.columns).1

theorem internAll_concat (r : Registry) (hs : List (History Nat)) (x : History Nat) :
    r.internAll (hs ++ [x]) = ((r.internAll hs).intern x.columns).2 := by
  simp [internAll]

theorem internAll_append (r : Registry) (hs more : List (History Nat)) :
    r.internAll (hs ++ more) = (r.internAll hs).internAll more :=
  List.foldl_append

/-- Whatever is interned later, a handle keeps its set. -/
theorem get?_internAll {r : Registry} {h : Handle} {s : Columns Nat Unit} (hs : r.get? h = some s)
    (more : List (History Nat)) : (r.internAll more).get? h = some s := by
  induction more generalizing r with
  | nil => exact hs
  | cons x more ih => exact ih (get?_intern_of_get? hs x.columns)

theorem Keeps.internAll {r : Registry} {p : Pool} (hr : r.Keeps p) (hs : List (History Nat)) :
    (r.internAll hs).Keeps (p.internAll hs) := by
  induction hs generalizing r p with
  | nil => exact hr
  | cons x hs ih => exact ih (hr.intern x.holds).2

theorem keeps_internAll (hs : List (History Nat)) :
    (new.internAll hs).Keeps (Pool.new.internAll hs) :=
  keeps_new.internAll hs

/-- The handle of a set leads to it from then on. -/
theorem get?_handleAfter (hs more : List (History Nat)) (x : History Nat) :
    (new.internAll (hs ++ x :: more)).get? (handleAfter hs x) = some x.columns := by
  have hx : (new.internAll (hs ++ [x])).get? (handleAfter hs x) = some x.columns := by
    rw [internAll_concat]
    exact (keeps_internAll hs).get?_intern x.columns
  rw [List.append_cons, internAll_append]
  exact get?_internAll hx more

theorem get?_emptyHandle (hs : List (History Nat)) :
    (new.internAll hs).get? Pool.emptyHandle = some History.new.columns :=
  get?_internAll (get?_new.2 ⟨rfl, rfl⟩) hs

/-- A set gets the handle of another one if and only if they have the same
    members. -/
theorem handleAfter_eq_iff {hs : List (History Nat)} {h : Handle} {x : History Nat}
    (hget : (new.internAll hs).get? h = some x.columns) (y : History Nat) :
    handleAfter hs y = h ↔ y.members = x.members := by
  have hy := (keeps_internAll hs).get?_intern y.columns
  have hx := get?_intern_of_get? hget y.columns
  rw [History.members_eq_iff]
  exact ((keeps_internAll hs).intern y.holds).2.handle_eq_iff hy hx

end Registry

/-! ## All together -/

/-- Columns show the map of their insertions, in which the first value of a key
    stays, and the set of their history, and an answer tells whether the set
    changed; a handle leads to its set for ever, equal handles are those of equal
    sets, and sorted maps and pools say the same. -/
theorem sorted_sets_faithful [Ord κ] [Std.TransOrd κ] [Std.LawfulEqOrd κ] :
    (∀ es : List (κ × ν),
      (Columns.ofEntries es).Shows (FirstOf es) ∧
      (Columns.ofEntries es).Holds (.ofList es) ∧
      ∀ k v, ((Columns.ofEntries es).insert k v).1 = true ↔ k ∉ es.map Prod.fst) ∧
    (∀ h : History κ,
      h.columns.Shows (fun k _ => k ∈ h.members) ∧
      h.columns.Holds h.set ∧
      (∀ k, (h.columns.add k).1 = true ↔ k ∉ h.members) ∧
      (∀ k, (h.columns.remove k).1 = true ↔ k ∈ h.members) ∧
      ∀ other : History κ,
        ((h.columns.union other.columns).1 = true ↔ h.members ⊂ (h.union other).members) ∧
        ((h.columns.union other.columns).1 = true ↔
          h.columns.size < (h.union other).columns.size)) ∧
    ∀ (hs : List (History Nat)) (x : History Nat),
      Registry.handleAfter hs x = ((Pool.new.internAll hs).intern x.set).1 ∧
      (Registry.new.internAll hs).get? Pool.emptyHandle = some .new ∧
      (Registry.handleAfter hs x = Pool.emptyHandle ↔ x.members = ∅) ∧
      ∀ more : List (History Nat),
        (Registry.new.internAll (hs ++ x :: more)).get? (Registry.handleAfter hs x) =
          some x.columns ∧
        ∀ y : History Nat,
          Registry.handleAfter (hs ++ x :: more) y = Registry.handleAfter hs x ↔
            y.members = x.members := by
  refine ⟨fun es => ?_, fun h => ?_, fun hs x => ?_⟩
  · have hholds : (Columns.ofEntries es).Holds (.ofList es) := Columns.holds_ofEntries es
    refine ⟨hholds.shows (SortedMap.mem_entries_first es), hholds, fun k v => ?_⟩
    rw [hholds.insert_iff, SortedMap.mem_keys_ofList]
  · exact ⟨h.shows, h.holds, h.add_iff, h.remove_iff,
      fun other => ⟨h.union_iff other, h.union_iff_size other⟩⟩
  · have hempty := Registry.get?_emptyHandle hs
    refine ⟨((Registry.keeps_internAll hs).intern x.holds).1, hempty,
      Registry.handleAfter_eq_iff hempty x, fun more => ?_⟩
    have hget := Registry.get?_handleAfter hs more x
    exact ⟨hget, Registry.handleAfter_eq_iff hget⟩

/-- Five is inserted twice, `{1, 3}` grows by `{2, 3}` once, and a set is interned
    after another one with the same two members. -/
theorem sorted_sets_faithful_smallSets :
    (Std.TransOrd Nat ∧ Std.LawfulEqOrd Nat) ∧
      (Columns.ofEntries [(5, "five"), (1, "one"), (5, "again")]).get? 5 = some "five" ∧
      ((History.collect [3, 1]).columns.union (History.collect [2, 3]).columns).1 = true ∧
      (((History.collect [3, 1]).union (.collect [2, 3])).columns.union
        (History.collect [2, 3]).columns).1 = false ∧
      Registry.handleAfter [.collect [4, 2]] (.collect [2, 4, 4]) =
        Registry.handleAfter [] (.collect [4, 2]) := by
  obtain ⟨hmaps, hsets, hhandles⟩ := @sorted_sets_faithful Nat String _ _ _
  obtain ⟨-, -, -, -, hunion⟩ := hsets (.collect [3, 1])
  obtain ⟨-, -, -, -, hagain⟩ := hsets ((History.collect [3, 1]).union (.collect [2, 3]))
  obtain ⟨-, -, -, hlater⟩ := hhandles [] (.collect [4, 2])
  refine ⟨⟨inferInstance, inferInstance⟩, ?_, ?_, ?_, ?_⟩
  · exact ((hmaps _).1.get?_iff 5 "five").2 ⟨[], [(1, "one"), (5, "again")], rfl, by simp⟩
  · refine (hunion (.collect [2, 3])).1.2 (Set.ssubset_iff_exists.2 ⟨fun k hk => Or.inl hk, 2, ?_⟩)
    simp [History.members]
  · rw [Bool.eq_false_iff, ne_eq, (hagain (.collect [2, 3])).1, Set.ssubset_iff_exists]
    rintro ⟨-, k, hk | hk, hnew⟩
    · exact hnew hk
    · exact hnew (Or.inr hk)
  · refine ((hlater []).2 (.collect [2, 4, 4])).2 (Set.ext fun k => ?_)
    simp [History.members, or_comm]

end LayoutLR
