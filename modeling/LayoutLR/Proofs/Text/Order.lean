/-
  Layout-aware LR toolkit — the order of texts and the search in sorted tables.

  Texts are ordered by their code points, which is the order of their bytes in
  UTF-8: of two characters the one with the smaller code point has the smaller
  byte at the first place where their bytes differ.  In a table that is sorted by
  this order, halving finds the entry that is looked for, and nothing else.

  * `order_eq_compare`: a total order, so that `Std` knows about it;
  * `order_eq_bytes`: the order of the bytes;
  * `search_eq_some_iff`: the search in a table that strictly increases is exact;
  * `search_isSome_iff`: in a sorted table, it finds what is there.
-/
import Mathlib.Data.List.Basic
import LayoutLR.Text.Measure

namespace LayoutLR.Text

/-! ## A total order -/

theorem order_eq_compare (as bs : List Char) :
    order as bs = compare (as.map Char.toNat) (bs.map Char.toNat) := by
  induction as generalizing bs with
  | nil => cases bs <;> rfl
  | cons a as ih =>
    cases bs with
    | nil => rfl
    | cons b bs => rw [order, ih, List.map_cons, List.map_cons, List.compare_cons_cons]

instance : Std.TransCmp order where
  eq_swap {a b} := by
    rw [order_eq_compare, order_eq_compare]
    exact Std.OrientedCmp.eq_swap
  isLE_trans {a b c} h h' := by
    rw [order_eq_compare] at *
    exact Std.TransCmp.isLE_trans h h'

instance : Std.LawfulEqCmp order where
  compare_self {a} := by
    rw [order_eq_compare]
    exact Std.ReflCmp.compare_self
  eq_of_compare {a b} h := by
    rw [order_eq_compare] at h
    have hinj : Function.Injective Char.toNat := fun c d h => Char.toNat_inj.1 h
    exact hinj.list_map (Std.LawfulEqCmp.eq_of_compare h)

/-! ## Bytes -/

/-- The bytes of a text in UTF-8. -/
def bytes (cs : List Char) : List UInt8 :=
  cs.flatMap String.utf8EncodeChar

theorem compare_cons_eq_lt {a b : UInt8} {as bs : List UInt8} :
    compare (a :: as) (b :: bs) = .lt ↔
      a.toNat < b.toNat ∨ a.toNat = b.toNat ∧ compare as bs = .lt := by
  rw [List.compare_cons_cons, Ordering.then_eq_lt, Std.compare_eq_lt, Std.compare_eq_iff_eq,
    UInt8.lt_iff_toNat_lt, UInt8.toNat_inj]

/-- The bytes of a smaller character come first, whatever follows. -/
theorem compare_encode {c d : Char} (h : c.toNat < d.toNat) (xs ys : List UInt8) :
    compare (String.utf8EncodeChar c ++ xs) (String.utf8EncodeChar d ++ ys) = .lt := by
  have hlt (c : Char) : c.toNat < 0x110000 := by
    have := c.valid
    simp only [UInt32.isValidChar, Nat.isValidChar] at this
    simp only [Char.toNat]
    omega
  have hc := hlt c
  have hd := hlt d
  have hv (c : Char) : c.val.toNat = c.toNat := rfl
  -- each byte holds the next six bits
  have hdiv (n : Nat) : n / 64 / 64 = n / 4096 ∧ n / 4096 / 64 = n / 262144 := by omega
  simp only [String.utf8EncodeChar, hv]
  generalize c.toNat = m at *
  generalize d.toNat = n at *
  have hm := hdiv m
  have hn := hdiv n
  split_ifs <;> simp (disch := omega) only [List.cons_append, List.nil_append, compare_cons_eq_lt,
    UInt8.toNat_ofNat', Nat.mod_eq_of_lt] <;> omega

theorem compare_append_left (xs as bs : List UInt8) :
    compare (xs ++ as) (xs ++ bs) = compare as bs := by
  induction xs with
  | nil => rfl
  | cons x xs ih =>
    have hself : compare x x = .eq := Std.ReflCmp.compare_self
    rw [List.cons_append, List.cons_append, List.compare_cons_cons, hself, ih]
    rfl

/-- The order of texts is the order of their bytes. -/
theorem order_eq_bytes (as bs : List Char) : order as bs = compare (bytes as) (bytes bs) := by
  induction as generalizing bs with
  | nil =>
    cases bs with
    | nil => rfl
    | cons b bs =>
      obtain ⟨x, xs, hx⟩ := List.exists_cons_of_ne_nil (String.utf8EncodeChar_ne_nil (c := b))
      simp [order, bytes, hx]
  | cons a as ih =>
    cases bs with
    | nil =>
      obtain ⟨x, xs, hx⟩ := List.exists_cons_of_ne_nil (String.utf8EncodeChar_ne_nil (c := a))
      simp [order, bytes, hx]
    | cons b bs =>
      simp only [order, bytes, List.flatMap_cons]
      rcases Nat.lt_trichotomy a.toNat b.toNat with h | h | h
      · rw [compare_encode h, Nat.compare_eq_lt.2 h]
        rfl
      · rw [Char.toNat_inj.1 h, compare_append_left, Nat.compare_eq_eq.2 rfl, ih]
        rfl
      · rw [Std.OrientedCmp.gt_of_lt (compare_encode h _ _), Nat.compare_eq_gt.2 h]
        rfl

/-! ## Search -/

/-- Halving finds the only place at which the probe hits. -/
theorem bisect_eq_some_iff {probe : Nat → Ordering} {lo hi i : Nat}
    (hbelow : ∀ i j, i < j → j < hi → probe j ≠ .gt → probe i = .lt)
    (habove : ∀ i j, i < j → j < hi → probe i ≠ .lt → probe j = .gt) :
    bisect probe lo hi = some i ↔ lo ≤ i ∧ i < hi ∧ probe i = .eq := by
  fun_induction bisect probe lo hi with
  | case1 lo hi hlt mid hp =>
    have hmid : lo ≤ mid ∧ mid < hi := by omega
    constructor
    · intro h
      rw [← Option.some.inj h]
      exact ⟨hmid.1, hmid.2, hp⟩
    · rintro ⟨hlo, hhi, hi'⟩
      rcases Nat.lt_trichotomy i mid with h | h | h
      · have := hbelow i mid h hmid.2 (by simp [hp])
        simp [hi'] at this
      · rw [h]
      · have := habove mid i h hhi (by simp [hp])
        simp [hi'] at this
  | case2 lo hi hlt mid hp ih =>
    have hmid : lo ≤ mid ∧ mid < hi := by omega
    rw [ih hbelow habove]
    refine ⟨fun h => ⟨by omega, h.2⟩, fun ⟨hlo, hhi, hi'⟩ => ⟨?_, hhi, hi'⟩⟩
    by_contra hle
    rcases Nat.lt_or_eq_of_le (show i ≤ mid by omega) with h | h
    · have := hbelow i mid h hmid.2 (by simp [hp])
      simp [hi'] at this
    · simp [← h, hi'] at hp
  | case3 lo hi hlt mid hp ih =>
    have hmid : lo ≤ mid ∧ mid < hi := by omega
    rw [ih (fun i j hij hj => hbelow i j hij (by omega)) fun i j hij hj => habove i j hij (by omega)]
    refine ⟨fun h => ⟨h.1, by omega, h.2.2⟩, fun ⟨hlo, hhi, hi'⟩ => ⟨hlo, ?_, hi'⟩⟩
    by_contra hle
    rcases Nat.lt_or_eq_of_le (show mid ≤ i by omega) with h | h
    · have := habove mid i h hhi (by simp [hp])
      simp [hi'] at this
    · simp [h, hi'] at hp
  | case4 lo hi hlt =>
    simp only [reduceCtorEq, false_iff]
    omega

/-- A table whose entries strictly increase. -/
def Ascending (table : Array (List Char)) : Prop :=
  table.toList.Pairwise fun a b => order a b = .lt

/-- **Searching a sorted table is exact.** -/
theorem search_eq_some_iff {table : Array (List Char)} (h : Ascending table) {text : List Char}
    {i : Nat} : search table text = some i ↔ table[i]? = some text := by
  have hlt (i j : Nat) (hij : i < j) (hj : j < table.size) :
      order (table[i]?.getD []) (table[j]?.getD []) = .lt := by
    have := List.pairwise_iff_getElem.1 h i j (by simpa using Nat.lt_trans hij hj) (by simpa using hj)
      hij
    simpa [hj, Nat.lt_trans hij hj] using this
  rw [search, bisect_eq_some_iff]
  · constructor
    · rintro ⟨-, hi, heq⟩
      have := Std.LawfulEqCmp.eq_of_compare heq
      simpa [hi] using this
    · intro hi
      obtain ⟨hlt, rfl⟩ := Array.getElem?_eq_some_iff.1 hi
      refine ⟨Nat.zero_le _, hlt, ?_⟩
      rw [hi]
      exact Std.ReflCmp.compare_self
  · intro i j hij hj hne
    have := hlt i j hij hj
    exact Std.TransCmp.lt_of_lt_of_isLE this (Ordering.isLE_iff_ne_gt.2 hne)
  · intro i j hij hj hne
    have := hlt i j hij hj
    refine Std.OrientedCmp.gt_of_lt (Std.TransCmp.lt_of_isLE_of_lt ?_ this)
    exact Std.OrientedCmp.isLE_of_isGE (Ordering.ne_lt_iff_isGE.1 hne)

/-- Halving finds a place at which the probe hits. -/
theorem bisect_hits {probe : Nat → Ordering} {lo hi i : Nat} (h : bisect probe lo hi = some i) :
    i < hi ∧ probe i = .eq := by
  fun_induction bisect probe lo hi with
  | case1 lo hi hlt mid hp =>
    obtain rfl := Option.some.inj h
    exact ⟨by omega, hp⟩
  | case2 lo hi hlt mid hp ih => exact ih h
  | case3 lo hi hlt mid hp ih =>
    obtain ⟨hi', heq⟩ := ih h
    exact ⟨by omega, heq⟩
  | case4 lo hi hlt => cases h

/-- Halving finds a place at which the probe hits, if there is one. -/
theorem bisect_isSome {probe : Nat → Ordering} {lo hi i : Nat}
    (hbelow : ∀ i j, i ≤ j → j < hi → probe j = .lt → probe i = .lt)
    (habove : ∀ i j, i ≤ j → j < hi → probe i = .gt → probe j = .gt)
    (hlo : lo ≤ i) (hhi : i < hi) (h : probe i = .eq) : (bisect probe lo hi).isSome := by
  fun_induction bisect probe lo hi with
  | case1 lo hi hlt mid hp => rfl
  | case2 lo hi hlt mid hp ih =>
    refine ih hbelow habove ?_ hhi
    by_contra hle
    have := hbelow i mid (by omega) (by omega) hp
    simp [h] at this
  | case3 lo hi hlt mid hp ih =>
    refine ih (fun i j hij hj => hbelow i j hij (by omega))
      (fun i j hij hj => habove i j hij (by omega)) hlo ?_
    by_contra hle
    have := habove mid i (by omega) hhi hp
    simp [h] at this
  | case4 lo hi hlt => omega

/-- A table whose entries never decrease. -/
def Sorted (table : Array (List Char)) : Prop :=
  table.toList.Pairwise fun a b => (order a b).isLE = true

/-- What is found is an entry. -/
theorem search_spec {table : Array (List Char)} {text : List Char} {i : Nat}
    (h : search table text = some i) : table[i]? = some text := by
  obtain ⟨hi, heq⟩ := bisect_hits h
  have hentry := Std.LawfulEqCmp.eq_of_compare heq
  rw [Array.getElem?_eq_getElem hi, Option.getD_some] at hentry
  rw [Array.getElem?_eq_getElem hi, hentry]

/-- In a sorted table, an entry is found. -/
theorem search_isSome_iff {table : Array (List Char)} (h : Sorted table) {text : List Char} :
    (search table text).isSome ↔ text ∈ table := by
  have hle (i j : Nat) (hij : i ≤ j) (hj : j < table.size) :
      (order (table[i]?.getD []) (table[j]?.getD [])).isLE = true := by
    rcases Nat.eq_or_lt_of_le hij with rfl | hij
    · rw [show order (table[i]?.getD []) (table[i]?.getD []) = .eq from Std.ReflCmp.compare_self]
      rfl
    · have := List.pairwise_iff_getElem.1 h i j (by simpa using Nat.lt_trans hij hj)
        (by simpa using hj) hij
      simpa [hj, Nat.lt_trans hij hj] using this
  constructor
  · intro hsome
    obtain ⟨i, hi⟩ := Option.isSome_iff_exists.1 hsome
    exact Array.mem_of_getElem? (search_spec hi)
  · intro hmem
    obtain ⟨i, hi, rfl⟩ := Array.mem_iff_getElem.1 hmem
    refine bisect_isSome (i := i) (fun i j hij hj hlt => ?_) (fun i j hij hj hgt => ?_)
      (Nat.zero_le i) hi ?_
    · exact Std.TransCmp.lt_of_isLE_of_lt (hle i j hij hj) hlt
    · exact Std.TransCmp.gt_of_isGE_of_gt (Std.OrientedCmp.isGE_of_isLE (hle i j hij hj)) hgt
    · rw [Array.getElem?_eq_getElem hi]
      exact Std.ReflCmp.compare_self

end LayoutLR.Text
