/-
  Layout-aware LR toolkit — maps and sets with their keys in order.

  A sorted map is a list of entries whose keys strictly increase.  Insertion
  keeps what is there: the first value of a key stays.  A symbol set is a map
  without values.

  * `insert`, `erase`, `replace`, `union`: the operations;
  * `find?`, `contains`, `keys`, `values`: the views;
  * `mem_keys_insert`, `mem_keys_union`: the keys after an operation.
-/

namespace LayoutLR

universe u v

variable {κ : Type u} {ν : Type v}

/-- Whether keys strictly increase. -/
def Increasing [Ord κ] (keys : List κ) : Prop :=
  keys.Pairwise fun a b => compare a b = .lt

/-- Entries with strictly increasing keys. -/
structure SortedMap (κ : Type u) (ν : Type v) [Ord κ] where
  entries : List (κ × ν)
  increasing : Increasing (entries.map Prod.fst)

namespace SortedMap

variable [Ord κ]

instance [DecidableEq κ] [DecidableEq ν] : DecidableEq (SortedMap κ ν) := fun a b =>
  decidable_of_iff (a.entries = b.entries)
    ⟨fun h => by cases a; cases b; simp_all, fun h => by rw [h]⟩

/-! ## Views -/

/-- The keys in order. -/
def keys (m : SortedMap κ ν) : List κ :=
  m.entries.map Prod.fst

/-- The values in the order of their keys. -/
def values (m : SortedMap κ ν) : List ν :=
  m.entries.map Prod.snd

/-- The number of keys. -/
def size (m : SortedMap κ ν) : Nat :=
  m.entries.length

/-- Whether there is no key. -/
def isEmpty (m : SortedMap κ ν) : Bool :=
  m.entries.isEmpty

/-- The value of a key. -/
def find? (m : SortedMap κ ν) (k : κ) : Option ν :=
  (m.entries.find? fun e => compare k e.1 == .eq).map Prod.snd

/-- Whether a key is there. -/
def contains (m : SortedMap κ ν) (k : κ) : Bool :=
  m.entries.any fun e => compare k e.1 == .eq

/-! ## Operations -/

/-- The map without keys. -/
def empty : SortedMap κ ν :=
  ⟨[], .nil⟩

instance : EmptyCollection (SortedMap κ ν) := ⟨empty⟩

instance : Inhabited (SortedMap κ ν) := ⟨empty⟩

/-- Puts an entry in its place, unless its key is there. -/
def insertEntry (k : κ) (v : ν) : List (κ × ν) → List (κ × ν)
  | [] => [(k, v)]
  | e :: es =>
    match compare k e.1 with
    | .lt => (k, v) :: e :: es
    | .eq => e :: es
    | .gt => e :: insertEntry k v es

theorem mem_insertEntry {k : κ} {v : ν} {es : List (κ × ν)} {x : κ × ν}
    (h : x ∈ insertEntry k v es) : x = (k, v) ∨ x ∈ es := by
  induction es with
  | nil => simpa [insertEntry] using h
  | cons e es ih =>
    unfold insertEntry at h
    split at h
    · simpa using h
    · exact .inr h
    · rcases List.mem_cons.1 h with h | h
      · exact .inr (h ▸ List.mem_cons_self ..)
      · exact (ih h).imp id (List.mem_cons_of_mem _)

theorem increasing_insertEntry [Std.TransOrd κ] (k : κ) (v : ν) {es : List (κ × ν)}
    (h : Increasing (es.map Prod.fst)) : Increasing ((insertEntry k v es).map Prod.fst) := by
  induction es with
  | nil => simp [insertEntry, Increasing]
  | cons e es ih =>
    simp only [Increasing, List.map_cons, List.pairwise_cons] at h
    unfold insertEntry
    split
    · rename_i hk
      simp only [Increasing, List.map_cons, List.pairwise_cons, List.mem_cons]
      refine ⟨?_, h⟩
      rintro b (rfl | hb)
      · exact hk
      · exact Std.TransCmp.lt_trans hk (h.1 b hb)
    · exact List.pairwise_cons.2 h
    · rename_i hk
      simp only [Increasing, List.map_cons, List.pairwise_cons]
      refine ⟨?_, ih h.2⟩
      intro b hb
      obtain ⟨x, hx, rfl⟩ := List.mem_map.1 hb
      rcases mem_insertEntry hx with rfl | hx
      · exact Std.OrientedCmp.gt_iff_lt.1 hk
      · exact h.1 _ (List.mem_map_of_mem hx)

/-- Adds a key with its value, unless the key is there. -/
def insert [Std.TransOrd κ] (m : SortedMap κ ν) (k : κ) (v : ν) : SortedMap κ ν :=
  ⟨insertEntry k v m.entries, increasing_insertEntry k v m.increasing⟩

/-- Takes a key away. -/
def erase (m : SortedMap κ ν) (k : κ) : SortedMap κ ν where
  entries := m.entries.filter fun e => compare k e.1 != .eq
  increasing := m.increasing.sublist (List.filter_sublist.map _)

/-- Changes every value. -/
def mapValues {ν' : Type v} (f : κ → ν → ν') (m : SortedMap κ ν) : SortedMap κ ν' where
  entries := m.entries.map fun e => (e.1, f e.1 e.2)
  increasing := by
    have h : (m.entries.map fun e => (e.1, f e.1 e.2)).map Prod.fst = m.entries.map Prod.fst := by
      simp
    rw [h]
    exact m.increasing

/-- Changes the value of a key that is there. -/
def replace (m : SortedMap κ ν) (k : κ) (v : ν) : SortedMap κ ν :=
  m.mapValues fun k' v' => if compare k k' = .eq then v else v'

/-- The map of a list of entries; of two entries with one key the first stays. -/
def ofList [Std.TransOrd κ] (es : List (κ × ν)) : SortedMap κ ν :=
  es.foldl (fun m e => m.insert e.1 e.2) empty

/-- Adds the entries of another map whose keys are not there. -/
def union [Std.TransOrd κ] (m other : SortedMap κ ν) : SortedMap κ ν :=
  other.entries.foldl (fun m e => m.insert e.1 e.2) m

/-! ## Keys -/

theorem mem_keys_insertEntry [Std.LawfulEqOrd κ] (k k' : κ) (v : ν) (es : List (κ × ν)) :
    k' ∈ (insertEntry k v es).map Prod.fst ↔ k' = k ∨ k' ∈ es.map Prod.fst := by
  induction es with
  | nil => simp [insertEntry]
  | cons e es ih =>
    unfold insertEntry
    split
    · simp
    · rename_i h
      rw [Std.LawfulEqCmp.eq_of_compare h]
      simp
    · simp only [List.map_cons, List.mem_cons, ih]
      exact or_left_comm

/-- The keys after an insertion. -/
@[simp]
theorem mem_keys_insert [Std.TransOrd κ] [Std.LawfulEqOrd κ] (m : SortedMap κ ν) (k k' : κ)
    (v : ν) : k' ∈ (m.insert k v).keys ↔ k' = k ∨ k' ∈ m.keys :=
  mem_keys_insertEntry k k' v m.entries

/-- The keys after a union. -/
@[simp]
theorem mem_keys_union [Std.TransOrd κ] [Std.LawfulEqOrd κ] (m other : SortedMap κ ν) (k : κ) :
    k ∈ (m.union other).keys ↔ k ∈ m.keys ∨ k ∈ other.keys := by
  have h (es : List (κ × ν)) (m : SortedMap κ ν) :
      k ∈ (es.foldl (fun m e => m.insert e.1 e.2) m).keys ↔ k ∈ m.keys ∨ k ∈ es.map Prod.fst := by
    induction es generalizing m with
    | nil => simp
    | cons e es ih =>
      simp only [List.foldl_cons, ih, mem_keys_insert, List.map_cons, List.mem_cons]
      exact ⟨fun h => by rcases h with (h | h) | h <;> simp [h],
        fun h => by rcases h with h | h | h <;> simp [h]⟩
  exact h other.entries m

end SortedMap

/-! ## Symbol sets -/

/-- A set of symbol numbers. -/
abbrev SymSet := SortedMap Nat Unit

namespace SymSet

/-- Adds a symbol. -/
def add (s : SymSet) (k : Nat) : SymSet :=
  s.insert k ()

/-- The set of the given symbols. -/
def ofKeys (ks : List Nat) : SymSet :=
  SortedMap.ofList (ks.map fun k => (k, ()))

/-- The set of all symbols below `n` that satisfy `p`. -/
def filterRange (n : Nat) (p : Nat → Bool) : SymSet :=
  ofKeys ((List.range n).filter p)

end SymSet

end LayoutLR
