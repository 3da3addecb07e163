/-
  Layout-aware LR toolkit — columns hold sorted maps.

  Two columns hold a sorted map if they are its keys and its values.  A search
  then splits the entries at its place, so that every operation on the columns
  does what the operation on the map does, and its answer tells whether the map
  changed.  All laws of sorted maps are laws of columns in this way.

  * `locate_taken`, `locate_free`: where halving ends;
  * `Columns.Holds`: columns that hold a map;
  * `Holds.get?_eq`, `Holds.contains_eq`: the same views;
  * `Holds.insert`, `Holds.remove`, `Holds.union`, `holds_ofKeys`: the same
    operations;
  * `Holds.insert_iff`, `Holds.remove_iff`, `Holds.union_iff`: the answers.
-/
import LayoutLR.Proofs.Sorted.Map
import LayoutLR.Proofs.Text.Order
import LayoutLR.Sorted.Columns

namespace LayoutLR

universe u v

variable {κ : Type u} {ν : Type v}

/-! ## Halving -/

/-- The place of the key, if it is there. -/
def Slot.place? : Slot → Option Nat
  | .taken i => some i
  | .free _ => none

/-- Sorted tables of texts are searched in the same way. -/
theorem place?_locate (probe : Nat → Ordering) (lo hi : Nat) :
    (locate probe lo hi).place? = Text.bisect probe lo hi := by
  fun_induction locate probe lo hi with
  | case1 lo hi hlt mid hmid =>
    rw [Text.bisect]
    simp [hlt, hmid, mid, Slot.place?]
  | case2 lo hi hlt mid hmid ih =>
    rw [Text.bisect, ih]
    simp [hlt, hmid, mid]
  | case3 lo hi hlt mid hmid ih =>
    rw [Text.bisect, ih]
    simp [hlt, hmid, mid]
  | case4 lo hi hlt =>
    rw [Text.bisect]
    simp [hlt, Slot.place?]

/-- A search that ends at a key has met it. -/
theorem locate_taken {probe : Nat → Ordering} {lo hi i : Nat}
    (h : locate probe lo hi = .taken i) : i < hi ∧ probe i = .eq := by
  have hplace := place?_locate probe lo hi
  rw [h] at hplace
  exact Text.bisect_hits hplace.symm

/-- If the probe never turns back, a search that meets no key ends between the
    smaller keys and the larger ones. -/
theorem locate_free {probe : Nat → Ordering} {lo hi i : Nat} (hle : lo ≤ hi)
    (hbelow : ∀ i j, i < j → j < hi → probe j ≠ .gt → probe i = .lt)
    (habove : ∀ i j, i < j → j < hi → probe i ≠ .lt → probe j = .gt)
    (h : locate probe lo hi = .free i) :
    i ≤ hi ∧ (∀ j, lo ≤ j → j < i → probe j = .lt) ∧
      ∀ j, i ≤ j → j < hi → probe j = .gt := by
  fun_induction locate probe lo hi with
  | case1 => cases h
  | case2 lo hi hlt mid hmid ih =>
    obtain ⟨hhi, hlow, hhigh⟩ := ih (by omega) hbelow habove h
    refine ⟨hhi, fun j hj hji => ?_, hhigh⟩
    rcases Nat.lt_trichotomy j mid with hjm | rfl | hjm
    · exact hbelow j mid hjm (by omega) (by simp [hmid])
    · exact hmid
    · exact hlow j hjm hji
  | case3 lo hi hlt mid hmid ih =>
    obtain ⟨hhi, hlow, hhigh⟩ := ih (by omega) (fun i j hij hj => hbelow i j hij (by omega))
      (fun i j hij hj => habove i j hij (by omega)) h
    refine ⟨by omega, hlow, fun j hj hjhi => ?_⟩
    rcases Nat.lt_trichotomy j mid with hjm | rfl | hjm
    · exact hhigh j hj hjm
    · exact hmid
    · exact habove mid j hjm hjhi (by simp [hmid])
  | case4 lo hi hlt =>
    cases h
    exact ⟨hle, fun j hj hji => absurd hji (by omega), fun j hj hjhi => absurd hjhi (by omega)⟩

/-! ## Insertion into a list -/

theorem insertIdx_before {α : Type u} (before after : List α) (x : α) :
    (before ++ after).insertIdx before.length x = before ++ x :: after := by
  induction before with
  | nil => rfl
  | cons a before ih => simp [ih]

theorem toList_insertIdxIfInBounds {α : Type u} (xs : Array α) (i : Nat) (x : α) :
    (xs.insertIdxIfInBounds i x).toList = xs.toList.insertIdx i x := by
  obtain ⟨l⟩ := xs
  simp [List.insertIdxIfInBounds_toArray]

/-- Whether a column of `n` places has the place, or room for a new one there. -/
def Slot.Fits (n : Nat) : Slot → Prop
  | .taken i => i < n
  | .free i => i ≤ n

namespace SortedMap

variable [Ord κ]

/-- An insertion between the smaller keys and the larger ones. -/
theorem insertEntry_between {k : κ} {v : ν} {before after : List (κ × ν)} [Std.TransOrd κ]
    (hbefore : ∀ e ∈ before, compare e.1 k = .lt) (hafter : ∀ e ∈ after, compare k e.1 = .lt) :
    insertEntry k v (before ++ after) = before ++ (k, v) :: after := by
  induction before with
  | nil =>
    cases after with
    | nil => rfl
    | cons e after => simp [insertEntry, hafter e (by simp)]
  | cons e before ih =>
    have hgt : compare k e.1 = .gt := Std.OrientedCmp.gt_iff_lt.2 (hbefore e (by simp))
    simp [insertEntry, hgt, ih fun e' he' => hbefore e' (by simp [he'])]

variable [Std.TransOrd κ] [Std.LawfulEqOrd κ]

theorem insert_of_mem {m : SortedMap κ ν} {k : κ} {v : ν} (h : k ∈ m.keys) : m.insert k v = m := by
  refine ext_find? fun k' => Option.ext fun w => ?_
  rw [find?_eq_some_iff, find?_eq_some_iff, mem_entries_insert]
  exact ⟨fun hw => hw.elim id fun hk => absurd h hk.2.2, Or.inl⟩

omit [Std.TransOrd κ] in
theorem erase_of_notMem {m : SortedMap κ ν} {k : κ} (h : k ∉ m.keys) :
    (m.erase k).entries = m.entries := by
  refine List.filter_eq_self.2 fun e he => ?_
  rw [bne_iff_ne, ne_eq, Std.compare_eq_iff_eq]
  rintro rfl
  exact h (List.mem_map_of_mem he)

omit [Std.TransOrd κ] in
/-- Erasing the key of one entry leaves those before it and those after it. -/
theorem erase_between {m : SortedMap κ ν} {k : κ} {v : ν} {before after : List (κ × ν)}
    (h : m.entries = before ++ (k, v) :: after) : (m.erase k).entries = before ++ after := by
  have hnodup := m.keys_nodup
  rw [keys, h] at hnodup
  simp only [List.map_append, List.map_cons, List.nodup_middle, List.nodup_cons] at hnodup
  have hother (e : κ × ν) (he : e ∈ before ++ after) : (compare k e.1 != .eq) = true := by
    rw [bne_iff_ne, ne_eq, Std.compare_eq_iff_eq]
    rintro rfl
    rw [← List.map_append] at hnodup
    exact hnodup.1 (List.mem_map_of_mem he)
  change (m.entries.filter fun e => compare k e.1 != .eq) = _
  rw [h, List.filter_append, List.filter_cons_of_neg (by simp),
    List.filter_eq_self.2 fun e he => hother e (List.mem_append_left _ he),
    List.filter_eq_self.2 fun e he => hother e (List.mem_append_right _ he)]

/-! ## The place of a key -/

omit [Std.TransOrd κ] [Std.LawfulEqOrd κ] in
theorem compare_entries {m : SortedMap κ ν} {i j : Nat} (hij : i < j) (hj : j < m.entries.length) :
    compare m.entries[i].1 m.entries[j].1 = .lt :=
  List.pairwise_iff_getElem.1 (List.pairwise_map.1 m.increasing) i j (Nat.lt_trans hij hj) hj hij

/-- How the key at a place compares with a key. -/
def probe (m : SortedMap κ ν) (k : κ) (i : Nat) : Ordering :=
  m.entries[i]?.elim .gt fun e => compare e.1 k

omit [Std.TransOrd κ] [Std.LawfulEqOrd κ] in
theorem probe_eq {m : SortedMap κ ν} {k : κ} {i : Nat} (hi : i < m.entries.length) :
    m.probe k i = compare m.entries[i].1 k := by
  simp [probe, hi]

omit [Std.LawfulEqOrd κ] in
/-- Below a key that is not larger, the keys are smaller. -/
theorem probe_below {m : SortedMap κ ν} {k : κ} {i j : Nat} (hij : i < j)
    (hj : j < m.entries.length) (h : m.probe k j ≠ .gt) : m.probe k i = .lt := by
  rw [probe_eq hj] at h
  rw [probe_eq (Nat.lt_trans hij hj)]
  exact Std.TransCmp.lt_of_lt_of_isLE (compare_entries hij hj) (Ordering.isLE_iff_ne_gt.2 h)

omit [Std.LawfulEqOrd κ] in
/-- Above a key that is not smaller, the keys are larger. -/
theorem probe_above {m : SortedMap κ ν} {k : κ} {i j : Nat} (hij : i < j)
    (hj : j < m.entries.length) (h : m.probe k i ≠ .lt) : m.probe k j = .gt := by
  rw [probe_eq (Nat.lt_trans hij hj)] at h
  rw [probe_eq hj, Std.OrientedCmp.gt_iff_lt]
  have hle : (compare k m.entries[i].1).isLE :=
    Std.OrientedCmp.isGE_iff_isLE.1 (Ordering.isGE_iff_ne_lt.2 h)
  exact Std.TransCmp.lt_of_isLE_of_lt hle (compare_entries hij hj)

end SortedMap

namespace Columns

/-! ## Columns that hold a map -/

/-- The columns are the keys and the values of a map. -/
structure Holds [Ord κ] (t : Columns κ ν) (m : SortedMap κ ν) : Prop where
  keys_eq : t.keys.toList = m.keys
  values_eq : t.values.toList = m.values

section
variable [Ord κ] {t t' : Columns κ ν} {m m' : SortedMap κ ν}

theorem holds_new : (new : Columns κ ν).Holds ∅ :=
  ⟨rfl, rfl⟩

theorem Holds.size_eq (h : t.Holds m) : t.size = m.size := by
  rw [size, ← Array.length_toList, h.keys_eq, SortedMap.size_eq_length_keys]

theorem Holds.parallel (h : t.Holds m) : t.values.size = t.keys.size := by
  rw [← Array.length_toList, ← Array.length_toList, h.keys_eq, h.values_eq, SortedMap.keys,
    SortedMap.values, List.length_map, List.length_map]

theorem Holds.entries_eq (h : t.Holds m) : t.entries = m.entries := by
  rw [entries, h.keys_eq, h.values_eq, SortedMap.keys, SortedMap.values, List.zip_map']
  simp

theorem Holds.of_entries (h : t.Holds m) (he : m.entries = m'.entries) : t.Holds m' :=
  ⟨by rw [h.keys_eq, SortedMap.keys, he]; rfl, by rw [h.values_eq, SortedMap.values, he]; rfl⟩

/-- Columns that hold a map are the only ones. -/
theorem Holds.unique (h : t.Holds m) (h' : t'.Holds m) : t = t' := by
  obtain ⟨⟨ks⟩, ⟨vs⟩⟩ := t
  obtain ⟨⟨ks'⟩, ⟨vs'⟩⟩ := t'
  have hkeys : ks = ks' := h.keys_eq.trans h'.keys_eq.symm
  have hvalues : vs = vs' := h.values_eq.trans h'.values_eq.symm
  rw [hkeys, hvalues]

/-- The map that columns hold is the only one. -/
theorem Holds.map_unique (h : t.Holds m) (h' : t.Holds m') : m = m' := by
  have he : m.entries = m'.entries := h.entries_eq.symm.trans h'.entries_eq
  cases m
  cases m'
  cases he
  rfl

variable [Std.TransOrd κ] [Std.LawfulEqOrd κ]

/-! ## Search -/

omit [Std.TransOrd κ] [Std.LawfulEqOrd κ] in
theorem Holds.search_eq (h : t.Holds m) (k : κ) :
    t.search k = locate (m.probe k) 0 m.entries.length := by
  have hprobe (i : Nat) : (t.keys[i]?.elim Ordering.gt fun k' => compare k' k) = m.probe k i := by
    rw [← Array.getElem?_toList, h.keys_eq, SortedMap.keys, List.getElem?_map, Option.elim_map]
    rfl
  have hsize : t.keys.size = m.entries.length := h.size_eq
  rw [search, funext hprobe, hsize]

omit [Std.TransOrd κ] in
/-- A search that ends at a key splits the entries there. -/
theorem Holds.search_taken (h : t.Holds m) {k : κ} {i : Nat} (hi : t.search k = .taken i) :
    ∃ before v after, m.entries = before ++ (k, v) :: after ∧ before.length = i := by
  rw [h.search_eq] at hi
  obtain ⟨hlt, heq⟩ := locate_taken hi
  rw [SortedMap.probe_eq hlt] at heq
  have hk : m.entries[i].1 = k := Std.LawfulEqCmp.eq_of_compare heq
  refine ⟨m.entries.take i, m.entries[i].2, m.entries.drop (i + 1), ?_,
    List.length_take_of_le (Nat.le_of_lt hlt)⟩
  rw [← hk, List.getElem_cons_drop, List.take_append_drop]

omit [Std.LawfulEqOrd κ] in
/-- A search that meets no key splits the entries where it belongs. -/
theorem Holds.search_free (h : t.Holds m) {k : κ} {i : Nat} (hi : t.search k = .free i) :
    ∃ before after, m.entries = before ++ after ∧ before.length = i ∧
      (∀ e ∈ before, compare e.1 k = .lt) ∧ ∀ e ∈ after, compare k e.1 = .lt := by
  rw [h.search_eq] at hi
  obtain ⟨hle, hlow, hhigh⟩ := locate_free (Nat.zero_le _)
    (fun i j hij hj => SortedMap.probe_below hij hj)
    (fun i j hij hj => SortedMap.probe_above hij hj) hi
  refine ⟨m.entries.take i, m.entries.drop i, (List.take_append_drop ..).symm,
    List.length_take_of_le hle, fun e he => ?_, fun e he => ?_⟩
  · obtain ⟨j, hj, rfl⟩ := List.mem_take_iff_getElem.1 he
    rw [← SortedMap.probe_eq (by omega)]
    exact hlow j (Nat.zero_le _) (by omega)
  · obtain ⟨j, hj, rfl⟩ := List.mem_drop_iff_getElem.1 he
    rw [← Std.OrientedCmp.gt_iff_lt, ← SortedMap.probe_eq (by omega)]
    exact hhigh _ (Nat.le_add_right ..) (by omega)

theorem Holds.notMem_of_free (h : t.Holds m) {k : κ} {i : Nat} (hi : t.search k = .free i) :
    k ∉ m.keys := by
  obtain ⟨before, after, he, -, hlow, hhigh⟩ := h.search_free hi
  intro hk
  obtain ⟨v, hv⟩ := SortedMap.mem_keys_iff.1 hk
  rw [he, List.mem_append] at hv
  rcases hv with hv | hv
  · have := hlow _ hv
    simp at this
  · have := hhigh _ hv
    simp at this

omit [Std.TransOrd κ] in
theorem Holds.mem_of_taken (h : t.Holds m) {k : κ} {i : Nat} (hi : t.search k = .taken i) :
    k ∈ m.keys := by
  obtain ⟨before, v, after, he, -⟩ := h.search_taken hi
  exact SortedMap.mem_keys_of_mem (v := v) (by simp [he])

/-- Both columns have the place at which a search ends. -/
theorem Holds.search_fits (h : t.Holds m) (k : κ) :
    (t.search k).Fits t.keys.size ∧ (t.search k).Fits t.values.size := by
  have hsize : t.keys.size = m.entries.length := h.size_eq
  rw [h.parallel, and_self, hsize]
  cases hi : t.search k with
  | taken i =>
    obtain ⟨before, v, after, he, rfl⟩ := h.search_taken hi
    simp [Slot.Fits, he]
  | free i =>
    obtain ⟨before, after, he, rfl, -⟩ := h.search_free hi
    simp [Slot.Fits, he]

/-! ## Views -/

theorem Holds.contains_eq (h : t.Holds m) (k : κ) : t.contains k = m.contains k := by
  rw [Bool.eq_iff_iff, SortedMap.contains_iff, contains]
  cases hi : t.search k with
  | taken i => simp [h.mem_of_taken hi]
  | free i => simp [h.notMem_of_free hi]

theorem Holds.get?_eq (h : t.Holds m) (k : κ) : t.get? k = m.find? k := by
  rw [get?]
  cases hi : t.search k with
  | taken i =>
    obtain ⟨before, v, after, he, rfl⟩ := h.search_taken hi
    have hv : m.find? k = some v := SortedMap.find?_eq_some_iff.2 (by simp [he])
    simp only [hv]
    rw [← Array.getElem?_toList, h.values_eq, SortedMap.values, he]
    simp
  | free i => simp [SortedMap.find?_eq_none_iff.2 (h.notMem_of_free hi)]

/-! ## Operations -/

omit [Std.TransOrd κ] [Std.LawfulEqOrd κ] in
/-- An insertion tells whether the key was missing. -/
theorem insert_fst (t : Columns κ ν) (k : κ) (v : ν) : (t.insert k v).1 = !t.contains k := by
  rw [insert, contains]
  cases t.search k <;> rfl

omit [Std.TransOrd κ] [Std.LawfulEqOrd κ] in
/-- A removal tells whether the key was there. -/
theorem remove_fst (t : Columns κ ν) (k : κ) : (t.remove k).1 = t.contains k := by
  rw [remove, contains]
  cases t.search k <;> rfl

theorem Holds.insert (h : t.Holds m) (k : κ) (v : ν) : (t.insert k v).2.Holds (m.insert k v) := by
  rw [Columns.insert]
  cases hi : t.search k with
  | taken i =>
    rw [SortedMap.insert_of_mem (h.mem_of_taken hi)]
    exact h
  | free i =>
    obtain ⟨before, after, he, rfl, hlow, hhigh⟩ := h.search_free hi
    have hentries : (m.insert k v).entries = before ++ (k, v) :: after := by
      rw [← SortedMap.insertEntry_between hlow hhigh, ← he]
      rfl
    constructor
    · rw [toList_insertIdxIfInBounds, h.keys_eq, SortedMap.keys, SortedMap.keys, hentries, he]
      simpa using insertIdx_before (before.map Prod.fst) (after.map Prod.fst) k
    · rw [toList_insertIdxIfInBounds, h.values_eq, SortedMap.values, SortedMap.values, hentries, he]
      simpa using insertIdx_before (before.map Prod.snd) (after.map Prod.snd) v

theorem Holds.insert_iff (h : t.Holds m) (k : κ) (v : ν) :
    (t.insert k v).1 = true ↔ k ∉ m.keys := by
  rw [insert_fst, h.contains_eq, ← SortedMap.contains_iff, Bool.not_eq_true', Bool.not_eq_true]

theorem Holds.remove (h : t.Holds m) (k : κ) : (t.remove k).2.Holds (m.erase k) := by
  rw [Columns.remove]
  cases hi : t.search k with
  | taken i =>
    obtain ⟨before, v, after, he, rfl⟩ := h.search_taken hi
    have hentries := SortedMap.erase_between he
    constructor
    · rw [Array.toList_eraseIdxIfInBounds, h.keys_eq, SortedMap.keys, SortedMap.keys, hentries, he]
      simp [List.eraseIdx_append_of_length_le]
    · rw [Array.toList_eraseIdxIfInBounds, h.values_eq, SortedMap.values, SortedMap.values,
        hentries, he]
      simp [List.eraseIdx_append_of_length_le]
  | free i => exact h.of_entries (SortedMap.erase_of_notMem (h.notMem_of_free hi)).symm

theorem Holds.remove_iff (h : t.Holds m) (k : κ) : (t.remove k).1 = true ↔ k ∈ m.keys := by
  rw [remove_fst, h.contains_eq, SortedMap.contains_iff]

end

section
variable [Ord κ] [Std.TransOrd κ] [Std.LawfulEqOrd κ] {s s' : Columns κ Unit}
  {m m' : SortedMap κ Unit}

/-- Adding keys one after the other: the set that comes out, and whether one of
    them is new. -/
theorem Holds.foldl_add (h : s.Holds m) (ks : List κ) (b : Bool) :
    let r := ks.foldl (fun r k => (r.1 || (r.2.add k).1, (r.2.add k).2)) (b, s)
    r.2.Holds (ks.foldl (fun m k => m.insert k ()) m) ∧
      (r.1 = true ↔ b = true ∨ ∃ k ∈ ks, k ∉ m.keys) := by
  induction ks generalizing s m b with
  | nil => exact ⟨h, by simp⟩
  | cons k ks ih =>
    obtain ⟨hholds, hiff⟩ := ih (h.insert k ()) (b || (s.add k).1)
    refine ⟨hholds, hiff.trans ?_⟩
    have hk : (s.add k).1 = true ↔ k ∉ m.keys := h.insert_iff k ()
    simp only [Bool.or_eq_true, hk, SortedMap.mem_keys_insert, not_or, List.mem_cons,
      exists_eq_or_imp, or_assoc]
    refine or_congr_right ⟨Or.imp_right fun ⟨k', hks, hnew⟩ => ⟨k', hks, hnew.2⟩, ?_⟩
    rintro (hnew | ⟨k', hks, hnew⟩)
    · exact Or.inl hnew
    · by_cases hkk : k' = k
      · exact Or.inl (hkk ▸ hnew)
      · exact Or.inr ⟨k', hks, hkk, hnew⟩

theorem Holds.union (h : s.Holds m) (h' : s'.Holds m') : (s.union s').2.Holds (m.union m') := by
  have hunion : m'.keys.foldl (fun m k => m.insert k ()) m = m.union m' := by
    rw [SortedMap.keys, List.foldl_map, SortedMap.union]
  rw [← hunion, ← h'.keys_eq]
  exact (h.foldl_add s'.keys.toList false).1

theorem Holds.union_iff (h : s.Holds m) (h' : s'.Holds m') :
    (s.union s').1 = true ↔ ∃ k ∈ m'.keys, k ∉ m.keys := by
  rw [← h'.keys_eq]
  exact (h.foldl_add s'.keys.toList false).2.trans (by simp)

/-! ## Sets of keys -/

omit [Std.TransOrd κ] in
theorem mem_dropRepeats {k k' : κ} {ks : List κ} : k' ∈ dropRepeats k ks ↔ k' = k ∨ k' ∈ ks := by
  induction ks generalizing k with
  | nil => simp [dropRepeats]
  | cons a ks ih =>
    unfold dropRepeats
    split
    · rename_i heq
      rw [ih, ← Std.LawfulEqCmp.eq_of_compare heq, List.mem_cons, ← or_assoc, or_self]
    · rw [List.mem_cons, ih, List.mem_cons]

theorem increasing_dropRepeats {k : κ} {ks : List κ}
    (h : (k :: ks).Pairwise fun a b => (compare a b).isLE) : Increasing (dropRepeats k ks) := by
  induction ks generalizing k with
  | nil => exact List.pairwise_singleton ..
  | cons a ks ih =>
    obtain ⟨hk, hks⟩ := List.pairwise_cons.1 h
    unfold dropRepeats
    split
    · exact ih (List.pairwise_cons.2 ⟨fun b hb => hk b (List.mem_cons_of_mem _ hb),
        (List.pairwise_cons.1 hks).2⟩)
    · rename_i hne
      have hlt : compare k a = .lt :=
        (Ordering.isLE_iff_eq_lt_or_eq_eq.1 (hk a (by simp))).resolve_right hne
      refine List.pairwise_cons.2 ⟨fun b hb => ?_, ih hks⟩
      rcases mem_dropRepeats.1 hb with rfl | hb
      · exact hlt
      · exact Std.TransCmp.lt_of_lt_of_isLE hlt ((List.pairwise_cons.1 hks).1 b hb)

omit [Std.TransOrd κ] in
theorem mem_sortKeys {k : κ} {ks : List κ} : k ∈ sortKeys ks ↔ k ∈ ks := by
  have hmem : k ∈ ks.mergeSort (fun a b => (compare a b).isLE) ↔ k ∈ ks := List.mem_mergeSort
  rw [← hmem]
  unfold sortKeys
  split
  · rename_i hnil
    simp [hnil]
  · rename_i hcons
    rw [hcons, mem_dropRepeats, List.mem_cons]

theorem increasing_sortKeys (ks : List κ) : Increasing (sortKeys ks) := by
  have htotal (a b : κ) : ((compare a b).isLE || (compare b a).isLE) = true := by
    rw [Bool.or_eq_true, ← Std.OrientedCmp.isGE_iff_isLE (a := a)]
    cases compare a b <;> simp
  have hsorted : (ks.mergeSort fun a b => (compare a b).isLE).Pairwise
      fun a b => (compare a b).isLE :=
    List.pairwise_mergeSort (fun a b c => Std.TransCmp.isLE_trans) htotal ks
  unfold sortKeys
  split
  · exact List.Pairwise.nil
  · rename_i hcons
    exact increasing_dropRepeats (hcons ▸ hsorted)

/-- The set of some keys, whatever their order and however often they are given. -/
theorem holds_ofKeys (ks : List κ) :
    (ofKeys ks).Holds (SortedMap.ofList (ks.map fun k => (k, ()))) := by
  have hkeys : sortKeys ks = (SortedMap.ofList (ks.map fun k => (k, ()))).keys := by
    have hmap : ((sortKeys ks).map fun k => (k, ())).map Prod.fst = sortKeys ks := by
      rw [List.map_map]
      exact List.map_id _
    let m : SortedMap κ Unit := ⟨(sortKeys ks).map fun k => (k, ()), by
      rw [hmap]
      exact increasing_sortKeys ks⟩
    have hm : m.keys = sortKeys ks := hmap
    rw [← hm]
    refine SortedMap.keys_ext fun k => ?_
    rw [hm, mem_sortKeys, SortedMap.mem_keys_ofList]
    simp
  refine ⟨hkeys, ?_⟩
  change (sortKeys ks).map (fun _ => ()) = _
  rw [hkeys, SortedMap.keys, SortedMap.values, List.map_map]

end

end Columns

end LayoutLR
