/-
  Layout-aware LR toolkit — laws of maps and sets with their keys in order.

  A sorted map is determined by the entries that it has, and `find?` is
  membership.  A union has the size of its first part only if it adds nothing,
  which is how growth is noticed.

  * `find?_eq_some_iff`, `mem_keys_iff`: the views agree;
  * `mem_entries_insert`, `mem_entries_ofList`, `find?_replace`: the entries
    after an operation;
  * `keys_ext`, `entries_ext`: maps with the same keys, and with the same entries;
  * `size_union_eq_iff`, `SymSet.union_eq_self`: a union that adds nothing.
-/
import Mathlib.Data.List.Nodup
import Mathlib.Data.List.Perm.Subperm
import LayoutLR.Sorted.Map

namespace LayoutLR

universe u v

variable {κ : Type u} {ν : Type v}

namespace SortedMap

section
variable [Ord κ]

theorem mem_keys_iff {m : SortedMap κ ν} {k : κ} : k ∈ m.keys ↔ ∃ v, (k, v) ∈ m.entries := by
  simp [keys]

theorem mem_keys_of_mem {m : SortedMap κ ν} {k : κ} {v : ν} (h : (k, v) ∈ m.entries) :
    k ∈ m.keys :=
  mem_keys_iff.2 ⟨v, h⟩

theorem size_eq_length_keys (m : SortedMap κ ν) : m.size = m.keys.length := by
  simp [size, keys]

@[simp]
theorem keys_empty : (∅ : SortedMap κ ν).keys = [] :=
  rfl

@[simp]
theorem entries_empty : (∅ : SortedMap κ ν).entries = [] :=
  rfl

@[simp]
theorem find?_empty (k : κ) : (∅ : SortedMap κ ν).find? k = none :=
  rfl

@[simp]
theorem size_empty : (∅ : SortedMap κ ν).size = 0 :=
  rfl

/-- Replacing a value leaves the keys as they are. -/
@[simp]
theorem keys_replace (m : SortedMap κ ν) (k : κ) (v : ν) : (m.replace k v).keys = m.keys := by
  simp [replace, mapValues, keys]

end

section
variable [Ord κ] [Std.LawfulEqOrd κ]

/-! ## Views -/

theorem keys_nodup (m : SortedMap κ ν) : m.keys.Nodup := by
  refine List.Pairwise.imp ?_ m.increasing
  rintro a b h rfl
  rw [Std.ReflOrd.compare_self] at h
  cases h

/-- A key has one value only. -/
theorem entry_unique {m : SortedMap κ ν} {k : κ} {v w : ν} (hv : (k, v) ∈ m.entries)
    (hw : (k, w) ∈ m.entries) : v = w :=
  congrArg Prod.snd (List.inj_on_of_nodup_map m.keys_nodup hv hw rfl)

/-- Looking a key up finds the entry that has it. -/
theorem find?_eq_some_iff {m : SortedMap κ ν} {k : κ} {v : ν} :
    m.find? k = some v ↔ (k, v) ∈ m.entries := by
  have key {e : κ × ν} (h : m.entries.find? (fun e => compare k e.1 == .eq) = some e) :
      k = e.1 := by
    have := List.find?_some h
    exact Std.LawfulEqCmp.eq_of_compare (beq_iff_eq.1 this)
  constructor
  · intro h
    obtain ⟨⟨k', v'⟩, he, rfl⟩ := Option.map_eq_some_iff.1 h
    obtain rfl : k = k' := key he
    exact List.mem_of_find?_eq_some he
  · intro h
    unfold find?
    cases he : m.entries.find? fun e => compare k e.1 == .eq with
    | none =>
      have := List.find?_eq_none.1 he _ h
      simp at this
    | some e =>
      obtain ⟨k', v'⟩ := e
      obtain rfl : k = k' := key he
      rw [Option.map_some, entry_unique (List.mem_of_find?_eq_some he) h]

theorem find?_isSome_iff {m : SortedMap κ ν} {k : κ} : (m.find? k).isSome ↔ k ∈ m.keys := by
  simp only [Option.isSome_iff_exists, find?_eq_some_iff, mem_keys_iff]

theorem find?_eq_none_iff {m : SortedMap κ ν} {k : κ} : m.find? k = none ↔ k ∉ m.keys := by
  rw [← find?_isSome_iff, Option.not_isSome_iff_eq_none]

theorem mem_keys_of_find? {m : SortedMap κ ν} {k : κ} {v : ν} (h : m.find? k = some v) :
    k ∈ m.keys :=
  mem_keys_of_mem (find?_eq_some_iff.1 h)

theorem exists_find?_of_mem_keys {m : SortedMap κ ν} {k : κ} (h : k ∈ m.keys) :
    ∃ v, m.find? k = some v :=
  Option.isSome_iff_exists.1 (find?_isSome_iff.2 h)

theorem contains_iff {m : SortedMap κ ν} {k : κ} : m.contains k = true ↔ k ∈ m.keys := by
  simp only [contains, List.any_eq_true, keys, List.mem_map, beq_iff_eq]
  constructor
  · rintro ⟨e, he, h⟩
    exact ⟨e, he, (Std.LawfulEqCmp.eq_of_compare h).symm⟩
  · rintro ⟨e, he, rfl⟩
    exact ⟨e, he, Std.ReflCmp.compare_self⟩

/-- Erasing takes one key away. -/
theorem mem_keys_erase {m : SortedMap κ ν} {k k' : κ} :
    k' ∈ (m.erase k).keys ↔ k' ∈ m.keys ∧ k' ≠ k := by
  simp only [mem_keys_iff, erase, List.mem_filter, bne_iff_ne, ne_eq]
  constructor
  · rintro ⟨v, h, hne⟩
    exact ⟨⟨v, h⟩, fun h => hne (h ▸ Std.ReflCmp.compare_self)⟩
  · rintro ⟨⟨v, h⟩, hne⟩
    exact ⟨v, h, fun h => hne (Std.LawfulEqCmp.eq_of_compare h).symm⟩

/-- Replacing changes the value of one key. -/
theorem find?_replace [DecidableEq κ] (m : SortedMap κ ν) (k k' : κ) (v : ν) :
    (m.replace k v).find? k' = if k' = k then (m.find? k).map fun _ => v else m.find? k' := by
  have hc {a b : κ} : compare a b = .eq ↔ a = b :=
    ⟨Std.LawfulEqCmp.eq_of_compare, fun h => h ▸ Std.ReflCmp.compare_self⟩
  have hmem (w : ν) : (k', w) ∈ (m.replace k v).entries ↔
      ∃ w', (k', w') ∈ m.entries ∧ (if k' = k then v else w') = w := by
    simp only [replace, mapValues, List.mem_map, Prod.mk.injEq, Prod.exists, hc]
    constructor
    · rintro ⟨_, w', h, rfl, hw⟩
      exact ⟨w', h, by simpa only [eq_comm] using hw⟩
    · rintro ⟨w', h, hw⟩
      exact ⟨k', w', h, rfl, by simpa only [eq_comm] using hw⟩
  ext w
  rw [find?_eq_some_iff, hmem]
  split
  · rename_i h
    subst h
    simp only [Option.map_eq_some_iff, find?_eq_some_iff]
  · simp only [find?_eq_some_iff, exists_eq_right]

theorem size_le_of_keys_subset {m m' : SortedMap κ ν} (h : ∀ k ∈ m.keys, k ∈ m'.keys) :
    m.size ≤ m'.size := by
  rw [size_eq_length_keys, size_eq_length_keys]
  exact (m.keys_nodup.subperm h).length_le

theorem mem_keys_of_size_eq {m m' : SortedMap κ ν} (h : ∀ k ∈ m.keys, k ∈ m'.keys)
    (hs : m'.size = m.size) {k : κ} (hk : k ∈ m'.keys) : k ∈ m.keys := by
  rw [size_eq_length_keys, size_eq_length_keys] at hs
  exact ((m.keys_nodup.subperm h).perm_of_length_le (Nat.le_of_eq hs)).mem_iff.2 hk

end

variable [Ord κ] [Std.TransOrd κ] [Std.LawfulEqOrd κ]

/-! ## Entries after an operation -/

theorem mem_insertEntry_iff {k k' : κ} {v w : ν} {es : List (κ × ν)}
    (hs : Increasing (es.map Prod.fst)) :
    (k', w) ∈ insertEntry k v es ↔
      (k', w) ∈ es ∨ (k' = k ∧ w = v ∧ k ∉ es.map Prod.fst) := by
  induction es with
  | nil => simp [insertEntry]
  | cons e es ih =>
    simp only [Increasing, List.map_cons, List.pairwise_cons] at hs
    have hk {c : Ordering} (hc : compare k e.1 = c) (hne : c ≠ .eq) : k ≠ e.1 := by
      rintro rfl
      rw [Std.ReflOrd.compare_self] at hc
      exact hne hc.symm
    unfold insertEntry
    split
    · rename_i hlt
      -- a key below the first one is below all of them
      have hnot : k ∉ es.map Prod.fst := by
        intro hmem
        have h := Std.TransCmp.lt_trans hlt (hs.1 k hmem)
        rw [Std.ReflOrd.compare_self] at h
        cases h
      simp only [List.mem_cons, Prod.mk.injEq, List.map_cons, not_or]
      constructor
      · rintro (⟨rfl, rfl⟩ | h | h)
        · exact Or.inr ⟨rfl, rfl, hk hlt (by simp), hnot⟩
        · exact Or.inl (Or.inl h)
        · exact Or.inl (Or.inr h)
      · rintro ((h | h) | ⟨rfl, rfl, -⟩)
        · exact Or.inr (Or.inl h)
        · exact Or.inr (Or.inr h)
        · exact Or.inl ⟨rfl, rfl⟩
    · rename_i heq
      rw [Std.LawfulEqCmp.eq_of_compare heq]
      simp
    · rename_i hgt
      simp only [List.mem_cons, ih hs.2, List.map_cons, not_or]
      have hne := hk hgt (by simp)
      constructor
      · rintro (h | h | ⟨rfl, rfl, h⟩)
        · exact Or.inl (Or.inl h)
        · exact Or.inl (Or.inr h)
        · exact Or.inr ⟨rfl, rfl, hne, h⟩
      · rintro ((h | h) | ⟨rfl, rfl, -, h⟩)
        · exact Or.inl h
        · exact Or.inr (Or.inl h)
        · exact Or.inr (Or.inr ⟨rfl, rfl, h⟩)

/-- An insertion keeps all entries and adds one if its key is new. -/
theorem mem_entries_insert {m : SortedMap κ ν} {k k' : κ} {v w : ν} :
    (k', w) ∈ (m.insert k v).entries ↔
      (k', w) ∈ m.entries ∨ (k' = k ∧ w = v ∧ k ∉ m.keys) :=
  mem_insertEntry_iff m.increasing

/-- Inserting entries whose keys are distinct and new adds all of them. -/
theorem mem_entries_foldl_insert {es : List (κ × ν)} (hs : (es.map Prod.fst).Nodup)
    {m : SortedMap κ ν} (hm : ∀ e ∈ es, e.1 ∉ m.keys) {k : κ} {v : ν} :
    (k, v) ∈ (es.foldl (fun m e => m.insert e.1 e.2) m).entries ↔
      (k, v) ∈ m.entries ∨ (k, v) ∈ es := by
  induction es generalizing m with
  | nil => simp
  | cons e es ih =>
    simp only [List.map_cons, List.nodup_cons] at hs
    rw [List.foldl_cons, ih hs.2, mem_entries_insert, List.mem_cons]
    · have he := hm e (by simp)
      constructor
      · rintro ((h | ⟨rfl, rfl, -⟩) | h)
        · exact Or.inl h
        · exact Or.inr (Or.inl rfl)
        · exact Or.inr (Or.inr h)
      · rintro (h | rfl | h)
        · exact Or.inl (Or.inl h)
        · exact Or.inl (Or.inr ⟨rfl, rfl, he⟩)
        · exact Or.inr h
    · intro e' he'
      rw [mem_keys_insert, not_or]
      refine ⟨?_, hm e' (by simp [he'])⟩
      intro h
      exact hs.1 (h ▸ List.mem_map_of_mem he')

theorem mem_entries_ofList {es : List (κ × ν)} (hs : (es.map Prod.fst).Nodup) {k : κ} {v : ν} :
    (k, v) ∈ (ofList es).entries ↔ (k, v) ∈ es := by
  rw [ofList, mem_entries_foldl_insert hs (fun _ _ => List.not_mem_nil)]
  simp [empty]

theorem mem_keys_foldl_insert {es : List (κ × ν)} {m : SortedMap κ ν} {k : κ} :
    k ∈ (es.foldl (fun m e => m.insert e.1 e.2) m).keys ↔ k ∈ m.keys ∨ k ∈ es.map Prod.fst := by
  induction es generalizing m with
  | nil => simp
  | cons e es ih =>
    rw [List.foldl_cons, ih, mem_keys_insert, List.map_cons, List.mem_cons]
    tauto

theorem mem_keys_ofList {es : List (κ × ν)} {k : κ} :
    k ∈ (ofList es).keys ↔ k ∈ es.map Prod.fst := by
  rw [ofList, mem_keys_foldl_insert]
  simp [empty, keys]

/-! ## Extensionality -/

omit [Std.LawfulEqOrd κ] in
theorem compare_asymm {k k' : κ} (h : compare k k' = .lt) (h' : compare k' k = .lt) : k = k' := by
  rw [Std.OrientedOrd.eq_swap, h'] at h
  cases h

/-- The keys of a map are determined by which they are. -/
theorem keys_ext {ν' : Type v} {m : SortedMap κ ν} {m' : SortedMap κ ν'}
    (h : ∀ k, k ∈ m.keys ↔ k ∈ m'.keys) : m.keys = m'.keys := by
  have hperm := (List.perm_ext_iff_of_nodup m.keys_nodup m'.keys_nodup).2 h
  exact hperm.eq_of_pairwise (fun k k' _ _ => compare_asymm) m.increasing m'.increasing

/-- The entries of a map are determined by what is found in it. -/
theorem entries_ext {m m' : SortedMap κ ν} (h : ∀ k v, m.find? k = some v ↔ m'.find? k = some v) :
    m.entries = m'.entries := by
  have hperm : m.entries.Perm m'.entries := by
    refine (List.perm_ext_iff_of_nodup (List.Nodup.of_map _ m.keys_nodup)
      (List.Nodup.of_map _ m'.keys_nodup)).2 fun e => ?_
    rw [← find?_eq_some_iff, ← find?_eq_some_iff]
    exact h e.1 e.2
  refine hperm.eq_of_pairwise (fun e e' he he' hlt hlt' => ?_) (List.pairwise_map.1 m.increasing)
    (List.pairwise_map.1 m'.increasing)
  have hk : e.1 = e'.1 := compare_asymm hlt hlt'
  have he'' : (e.1, e'.2) ∈ m.entries := by
    rw [hk]
    exact hperm.mem_iff.2 he'
  exact Prod.ext hk (entry_unique he he'')

/-- A map is determined by what is found in it. -/
theorem ext_find? {m m' : SortedMap κ ν} (h : ∀ k, m.find? k = m'.find? k) : m = m' := by
  have he : m.entries = m'.entries := by
    refine entries_ext ?_
    intro k v
    rw [h k]
  cases m
  cases m'
  cases he
  rfl

/-! ## Unions -/

theorem size_le_size_union (m other : SortedMap κ ν) : m.size ≤ (m.union other).size :=
  size_le_of_keys_subset fun k hk => (mem_keys_union m other k).2 (Or.inl hk)

/-- A union is larger than its first part unless it adds nothing. -/
theorem size_union_eq_iff {m other : SortedMap κ ν} :
    (m.union other).size = m.size ↔ ∀ k ∈ other.keys, k ∈ m.keys := by
  constructor
  · intro h k hk
    have hsub (k : κ) (hk : k ∈ m.keys) := (mem_keys_union m other k).2 (Or.inl hk)
    exact mem_keys_of_size_eq hsub h ((mem_keys_union m other k).2 (Or.inr hk))
  · intro h
    refine Nat.le_antisymm (size_le_of_keys_subset fun k hk => ?_) (size_le_size_union m other)
    rcases (mem_keys_union m other k).1 hk with hk | hk
    · exact hk
    · exact h k hk

end SortedMap

/-! ## Symbol sets -/

namespace SymSet

/-- Sets with the same members are equal. -/
theorem ext {a b : SymSet} (h : ∀ k, k ∈ a.keys ↔ k ∈ b.keys) : a = b := by
  have hkeys : a.keys = b.keys := SortedMap.keys_ext h
  have hentries (s : SymSet) : s.keys.map (fun k => (k, ())) = s.entries := by
    simp [SortedMap.keys, Function.comp_def]
  have he : a.entries = b.entries := by
    rw [← hentries a, ← hentries b, hkeys]
  obtain ⟨ea, ha⟩ := a
  obtain ⟨eb, hb⟩ := b
  subst he
  rfl

theorem union_eq_self {a b : SymSet} (h : ∀ k ∈ b.keys, k ∈ a.keys) : a.union b = a := by
  refine ext fun k => ?_
  rw [SortedMap.mem_keys_union]
  exact ⟨fun hk => hk.elim id (h k), Or.inl⟩

@[simp]
theorem mem_keys_add {s : SymSet} {k k' : Nat} : k' ∈ (s.add k).keys ↔ k' = k ∨ k' ∈ s.keys :=
  SortedMap.mem_keys_insert s k k' ()

@[simp]
theorem mem_keys_ofKeys {ks : List Nat} {k : Nat} : k ∈ (ofKeys ks).keys ↔ k ∈ ks := by
  rw [ofKeys, SortedMap.mem_keys_ofList]
  simp

theorem size_le_of_forall_lt {s : SymSet} {n : Nat} (h : ∀ k ∈ s.keys, k < n) : s.size ≤ n := by
  rw [SortedMap.size_eq_length_keys, ← List.length_range (n := n)]
  exact (s.keys_nodup.subperm fun k hk => List.mem_range.2 (h k hk)).length_le

end SymSet

end LayoutLR
