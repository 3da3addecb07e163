/-
  Layout-aware LR toolkit — what a closure is.

  The closure of some items holds them, and beyond them only items that some
  member waits for.  Sets only grow while it is made, and an item whose set grew
  is looked at again; so when the queue is empty, every member is closed.  The
  queue does become empty: each time an item is queued the sets have grown, and
  there is room for `closureSteps` symbols only.

  * `Item.Predicted`: an item that others wait for;
  * `Item.ComesWith`, `Basis.Announces`: the items that come with a kernel, and what may come
    after them;
  * `Closing.Grows`: a closure in the making, later on;
  * `Basis.ClosedAt`: everything that an item waits for is there;
  * `Basis.Proper`: what closures rely on;
  * `Basis.Worked`: the items are looked at one after the other, in any order;
  * `Basis.Worked.bounded`, `Basis.Worked.isClosure`: that ends, and with the closure;
  * `Basis.IsClosure`, `Basis.closure_isClosure`: the closure as a whole;
  * `Basis.IsClosure.mem_iff`, `Basis.IsClosure.mem_set_iff`: it has nothing more than it has
    to.
-/
import Mathlib.Data.List.Nodup
import LayoutLR.Automaton.Closure
import LayoutLR.Proofs.Grammar.Analysis

namespace LayoutLR

/-- An item at the start of a production whose head some of the given items wait for. -/
structure Item.Predicted (g : Grammar) (items : List Item) (i : Item) : Prop where
  dot : i.dot = 0
  prod_lt : i.prod < g.productions.size
  nonterminal : g.isNonterminal (g.head i.prod) = true
  awaited : ∃ j ∈ items, j.next? g = some (g.head i.prod)

theorem Item.Predicted.mono {g : Grammar} {items items' : List Item} {i : Item}
    (h : i.Predicted g items) (hsub : ∀ j ∈ items, j ∈ items') : i.Predicted g items' := by
  obtain ⟨j, hj, hn⟩ := h.awaited
  exact ⟨h.dot, h.prod_lt, h.nonterminal, j, hsub j hj, hn⟩

/-- The items that come with a kernel: its own, and the starts of the productions that one of
    them waits for. -/
inductive Item.ComesWith (g : Grammar) (kernel : List Item) : Item → Prop
  | kernel {i : Item} (hi : i ∈ kernel) : ComesWith g kernel i
  | predicted {i : Item} {p : Nat} (hi : ComesWith g kernel i) (hp : p < g.productions.size)
      (hnext : i.next? g = some (g.head p)) (hnt : g.isNonterminal (g.head p) = true) :
      ComesWith g kernel ⟨p, 0⟩

namespace Closing

variable {c c' c'' : Closing} {i j : Item} {set : SymSet}

/-- The items of a closure in the making. -/
def keys (c : Closing) : List Item :=
  c.items.map Prod.fst

/-! ## Adding an item -/

theorem find?_isSome_iff : (c.find? i).isSome ↔ i ∈ c.keys := by
  simp [find?, keys]

theorem find?_eq_none_iff : c.find? i = none ↔ i ∉ c.keys := by
  rw [← find?_isSome_iff, Option.not_isSome_iff_eq_none]

theorem mem_keys_of_find? {s : SymSet} (h : c.find? i = some s) : i ∈ c.keys :=
  find?_isSome_iff.1 (h ▸ rfl)

theorem mem_items_of_find? {s : SymSet} (h : c.find? i = some s) : (i, s) ∈ c.items := by
  obtain ⟨⟨j, s'⟩, he, rfl⟩ := Option.map_eq_some_iff.1 h
  have hj : j = i := by simpa using List.find?_some he
  exact hj ▸ List.mem_of_find?_eq_some he

theorem find?_of_mem_items (hn : c.keys.Nodup) {s : SymSet} (h : (i, s) ∈ c.items) :
    c.find? i = some s := by
  have hk : i ∈ c.keys := List.mem_map_of_mem (f := Prod.fst) h
  obtain ⟨s', hs'⟩ := Option.isSome_iff_exists.1 (find?_isSome_iff.2 hk)
  obtain ⟨-, rfl⟩ := Prod.mk.inj (List.inj_on_of_nodup_map hn (mem_items_of_find? hs') h rfl)
  exact hs'

/-- The entries after the set of `i` became `new`. -/
def setItem (c : Closing) (i : Item) (new : SymSet) : List (Item × SymSet) :=
  c.items.map fun e => if e.1 = i then (i, new) else e

/-- What adding an item does: the item is new, or its set has everything, or it grows. -/
theorem add_cases (c : Closing) (i : Item) (set : SymSet) :
    (c.find? i = none ∧ c.add i set = ⟨c.items ++ [(i, set)], c.queue ++ [i]⟩) ∨
    (∃ old, c.find? i = some old ∧ (∀ t ∈ set.keys, t ∈ old.keys) ∧ c.add i set = c) ∨
    (∃ old, c.find? i = some old ∧ old.size < (old.union set).size ∧
      c.add i set = ⟨c.setItem i (old.union set), c.queue ++ [i]⟩) := by
  cases h : c.find? i with
  | none => exact Or.inl ⟨rfl, by simp [add, h]⟩
  | some old =>
    by_cases hsize : (old.union set).size = old.size
    · exact Or.inr (Or.inl ⟨old, rfl, SortedMap.size_union_eq_iff.1 hsize, by simp [add, h, hsize]⟩)
    · have hle := SortedMap.size_le_size_union old set
      exact Or.inr (Or.inr ⟨old, rfl, by omega, by simp [add, h, hsize, setItem]⟩)

/-- The set of the item that is added grows, the others stay. -/
theorem find?_add : (c.add i set).find? j =
    if j = i then some (((c.find? i).getD ∅).union set) else c.find? j := by
  rcases add_cases c i set with ⟨h, ha⟩ | ⟨old, h, hsub, ha⟩ | ⟨old, h, -, ha⟩
  · have hempty : (∅ : SymSet).union set = set := SymSet.ext fun k => by simp
    rw [ha, h, Option.getD_none, hempty]
    by_cases hji : j = i
    · subst hji
      have hnone : c.items.find? (fun e => e.1 == j) = none := by
        simpa [find?] using h
      simp [find?, List.find?_append, hnone]
    · have hij : (i == j) = false := by simpa using Ne.symm hji
      simp [find?, List.find?_append, hij, hji]
  · rw [ha, h, Option.getD_some, SymSet.union_eq_self hsub]
    by_cases hji : j = i
    · rw [if_pos hji, hji, h]
    · rw [if_neg hji]
  · -- the entry of `i` is changed where it stands, so the search finds the same place
    have hsame : (fun e : Item × SymSet => e.1 == j) ∘
        (fun e => if e.1 = i then (i, old.union set) else e) = fun e => e.1 == j := by
      funext e
      by_cases he : e.1 = i <;> simp [he]
    rw [ha, h, Option.getD_some]
    simp only [find?, setItem, List.find?_map, hsame, Option.map_map]
    cases he : c.items.find? (fun e => e.1 == j) with
    | none =>
      have hji : j ≠ i := by
        rintro rfl
        simp [find?, he] at h
      simp [hji]
    | some e =>
      have hej : e.1 = j := by simpa using List.find?_some he
      by_cases hji : j = i <;> simp [hej, hji]

theorem mem_keys_add : j ∈ (c.add i set).keys ↔ j ∈ c.keys ∨ j = i := by
  rw [← find?_isSome_iff, ← find?_isSome_iff, find?_add]
  by_cases h : j = i <;> simp [h]

theorem keys_nodup_add (i : Item) (set : SymSet) (hn : c.keys.Nodup) : (c.add i set).keys.Nodup := by
  rcases add_cases c i set with ⟨h, ha⟩ | ⟨old, h, hsub, ha⟩ | ⟨old, h, -, ha⟩
  · rw [ha, keys, List.map_append]
    refine List.Nodup.append hn (by simp) ?_
    intro k hk hk'
    obtain rfl : k = i := by simpa using hk'
    exact find?_eq_none_iff.1 h hk
  · rw [ha]
    exact hn
  · have hk : (c.setItem i (old.union set)).map Prod.fst = c.keys := by
      rw [setItem, keys, List.map_map]
      refine List.map_congr_left fun e _ => ?_
      by_cases he : e.1 = i <;> simp [he]
    rw [ha, keys, hk]
    exact hn

/-! ## Growth -/

/-- A closure in the making, later on: sets have grown, and items whose set is another one
    are queued. -/
structure Grows (c c' : Closing) : Prop where
  queue : ∀ i ∈ c.queue, i ∈ c'.queue
  find : ∀ i s, c.find? i = some s → ∃ s', c'.find? i = some s' ∧ ∀ t ∈ s.keys, t ∈ s'.keys
  same : ∀ i, i ∉ c'.queue → c'.find? i = c.find? i

theorem Grows.refl (c : Closing) : c.Grows c :=
  ⟨fun _ h => h, fun _ s h => ⟨s, h, fun _ ht => ht⟩, fun _ _ => rfl⟩

theorem Grows.trans (h : c.Grows c') (h' : c'.Grows c'') : c.Grows c'' := by
  refine ⟨fun i hi => h'.queue i (h.queue i hi), fun i s hs => ?_, fun i hi => ?_⟩
  · obtain ⟨s', hs', hsub⟩ := h.find i s hs
    obtain ⟨s'', hs'', hsub'⟩ := h'.find i s' hs'
    exact ⟨s'', hs'', fun t ht => hsub' t (hsub t ht)⟩
  · rw [h'.same i hi, h.same i fun hq => hi (h'.queue i hq)]

theorem Grows.mem_keys (h : c.Grows c') (hi : i ∈ c.keys) : i ∈ c'.keys := by
  obtain ⟨s, hs⟩ := Option.isSome_iff_exists.1 (find?_isSome_iff.2 hi)
  obtain ⟨s', hs', -⟩ := h.find i s hs
  exact mem_keys_of_find? hs'

theorem add_grows (c : Closing) (i : Item) (set : SymSet) : c.Grows (c.add i set) := by
  have hfind (j : Item) (s : SymSet) (hs : c.find? j = some s) :
      ∃ s', (c.add i set).find? j = some s' ∧ ∀ t ∈ s.keys, t ∈ s'.keys := by
    rw [find?_add]
    by_cases hji : j = i
    · subst hji
      refine ⟨_, if_pos rfl, fun t ht => ?_⟩
      rw [SortedMap.mem_keys_union, hs]
      exact Or.inl ht
    · exact ⟨s, by rw [if_neg hji, hs], fun t ht => ht⟩
  have hqueue (h : (c.add i set).queue = c.queue ++ [i]) : c.Grows (c.add i set) := by
    refine ⟨fun j hj => by simp [h, hj], hfind, fun j hj => ?_⟩
    rw [find?_add, if_neg fun hji => hj (by simp [h, hji])]
  rcases add_cases c i set with ⟨-, ha⟩ | ⟨old, -, -, ha⟩ | ⟨old, -, -, ha⟩
  · exact hqueue (by rw [ha])
  · rw [ha]
    exact Grows.refl c
  · exact hqueue (by rw [ha])

/-- What was added is there. -/
theorem find?_add_self (c : Closing) (i : Item) (set : SymSet) :
    ∃ s, (c.add i set).find? i = some s ∧ ∀ t ∈ set.keys, t ∈ s.keys := by
  refine ⟨_, by rw [find?_add, if_pos rfl], fun t ht => ?_⟩
  rw [SortedMap.mem_keys_union]
  exact Or.inr ht

/-- The number of items and of the symbols in their sets. -/
def weight (c : Closing) : Nat :=
  total (c.items.map fun e => e.2.size + 1)

/-- An item is queued only if the closure got heavier. -/
theorem add_weight (hn : c.keys.Nodup) (i : Item) (set : SymSet) :
    (c.add i set).queue.length + c.weight ≤ c.queue.length + (c.add i set).weight := by
  rcases add_cases c i set with ⟨-, ha⟩ | ⟨old, -, -, ha⟩ | ⟨old, h, hlt, ha⟩
  · simp only [ha, weight, List.length_append, List.length_singleton, List.map_append,
      List.map_singleton, total_append, total_cons, total_nil]
    omega
  · exact Nat.le_of_eq (by rw [ha])
  · have hmem := mem_items_of_find? h
    have hw : c.weight < (⟨c.setItem i (old.union set), c.queue ++ [i]⟩ : Closing).weight := by
      simp only [weight, setItem, List.map_map]
      refine total_map_lt (fun e he => ?_) hmem (by simpa using hlt)
      by_cases hei : e.1 = i
      · obtain rfl : e = (i, old) := List.inj_on_of_nodup_map hn he hmem hei
        simpa using Nat.le_of_lt hlt
      · simp [hei]
    rw [ha, List.length_append, List.length_singleton]
    omega

/-! ## Adding productions -/

/-- Adds the starts of some productions. -/
def addAll (c : Closing) (set : SymSet) (ps : List Nat) : Closing :=
  ps.foldl (fun c p => c.add ⟨p, 0⟩ set) c

theorem addAll_grows (set : SymSet) (ps : List Nat) (c : Closing) : c.Grows (c.addAll set ps) := by
  induction ps generalizing c with
  | nil => exact Grows.refl c
  | cons p ps ih => exact (add_grows c ⟨p, 0⟩ set).trans (ih _)

theorem mem_keys_addAll {ps : List Nat} :
    j ∈ (c.addAll set ps).keys ↔ j ∈ c.keys ∨ ∃ p ∈ ps, j = ⟨p, 0⟩ := by
  induction ps generalizing c with
  | nil => simp [addAll]
  | cons p ps ih =>
    rw [addAll, List.foldl_cons]
    refine (ih (c := c.add ⟨p, 0⟩ set)).trans ?_
    rw [mem_keys_add, List.exists_mem_cons_iff, or_assoc]

theorem mem_queue_addAll {ps : List Nat} (hj : j ∈ (c.addAll set ps).queue) :
    j ∈ c.queue ∨ ∃ p ∈ ps, j = ⟨p, 0⟩ := by
  induction ps generalizing c with
  | nil => exact Or.inl hj
  | cons p ps ih =>
    rcases ih (c := c.add ⟨p, 0⟩ set) hj with h | ⟨q, hq, rfl⟩
    · have hsub : j ∈ c.queue ++ [⟨p, 0⟩] := by
        rcases add_cases c ⟨p, 0⟩ set with ⟨-, ha⟩ | ⟨old, -, -, ha⟩ | ⟨old, -, -, ha⟩ <;>
          rw [ha] at h
        · exact h
        · exact List.mem_append_left _ h
        · exact h
      rcases List.mem_append.1 hsub with h | h
      · exact Or.inl h
      · exact Or.inr ⟨p, by simp, by simpa using h⟩
    · exact Or.inr ⟨q, by simp [hq], rfl⟩

theorem keys_nodup_addAll (ps : List Nat) (hn : c.keys.Nodup) : (c.addAll set ps).keys.Nodup := by
  induction ps generalizing c with
  | nil => exact hn
  | cons p ps ih => exact ih (keys_nodup_add _ _ hn)

theorem addAll_weight (set : SymSet) (ps : List Nat) (hn : c.keys.Nodup) :
    (c.addAll set ps).queue.length + c.weight ≤ c.queue.length + (c.addAll set ps).weight := by
  induction ps generalizing c with
  | nil => exact Nat.le_refl _
  | cons p ps ih =>
    have h₁ := add_weight hn ⟨p, 0⟩ set
    have h₂ := ih (keys_nodup_add ⟨p, 0⟩ set hn)
    simp only [addAll, List.foldl_cons] at h₂ ⊢
    omega

theorem find?_addAll {ps : List Nat} {p : Nat} (hp : p ∈ ps) (c : Closing) (set : SymSet) :
    ∃ s, (c.addAll set ps).find? ⟨p, 0⟩ = some s ∧ ∀ t ∈ set.keys, t ∈ s.keys := by
  induction ps generalizing c with
  | nil => simp at hp
  | cons q ps ih =>
    rcases List.mem_cons.1 hp with rfl | hp
    · obtain ⟨s, hs, hsub⟩ := find?_add_self c ⟨p, 0⟩ set
      obtain ⟨s', hs', hsub'⟩ := (addAll_grows set ps (c.add ⟨p, 0⟩ set)).find _ s hs
      exact ⟨s', hs', fun t ht => hsub' t (hsub t ht)⟩
    · exact ih hp _

/-- All symbols in the sets of a closure are such as `Q` allows for their items. -/
def Within (Q : Item → Nat → Prop) (c : Closing) : Prop :=
  ∀ i s, c.find? i = some s → ∀ t ∈ s.keys, Q i t

section
variable {Q : Item → Nat → Prop}

theorem Within.getD (h : c.Within Q) {t : Nat} (ht : t ∈ ((c.find? i).getD ∅).keys) : Q i t := by
  cases hi : c.find? i with
  | none => simp [hi] at ht
  | some old => exact h i old hi t (by simpa [hi] using ht)

theorem Within.add (h : c.Within Q) (hset : ∀ t ∈ set.keys, Q i t) : (c.add i set).Within Q := by
  intro j s hs t ht
  rw [find?_add] at hs
  by_cases hji : j = i
  · subst hji
    rw [if_pos rfl, Option.some.injEq] at hs
    rw [← hs, SortedMap.mem_keys_union] at ht
    rcases ht with ht | ht
    · exact h.getD ht
    · exact hset t ht
  · rw [if_neg hji] at hs
    exact h j s hs t ht

theorem Within.addAll {ps : List Nat} (h : c.Within Q)
    (hset : ∀ p ∈ ps, ∀ t ∈ set.keys, Q ⟨p, 0⟩ t) : (c.addAll set ps).Within Q := by
  induction ps generalizing c with
  | nil => exact h
  | cons p ps ih =>
    exact ih (h.add (hset p (by simp))) fun q hq => hset q (by simp [hq])

end

end Closing

namespace Basis

variable {b : Basis} {c : Closing} {i : Item}

/-! ## Looking at an item -/

/-- Looking at an item adds the productions of the nonterminal that it waits for. -/
theorem visit_cases (b : Basis) (c : Closing) (i : Item) :
    (b.visit c i = c ∧ ∀ sym, i.next? b.grammar = some sym → b.grammar.isNonterminal sym = false) ∨
    (∃ sym, i.next? b.grammar = some sym ∧ b.grammar.isNonterminal sym = true ∧
      b.visit c i =
        c.addAll (b.lookahead i sym ((c.find? i).getD ∅)) (b.grammar.productionsOf sym)) := by
  unfold visit
  cases h : i.next? b.grammar with
  | none => exact Or.inl ⟨rfl, by simp⟩
  | some sym =>
    cases hn : b.grammar.isNonterminal sym with
    | false => exact Or.inl ⟨by simp [hn], by simpa using hn⟩
    | true => exact Or.inr ⟨sym, rfl, hn, by simp [hn, Closing.addAll]⟩

theorem visit_grows (b : Basis) (c : Closing) (i : Item) : c.Grows (b.visit c i) := by
  rcases visit_cases b c i with ⟨h, -⟩ | ⟨sym, -, -, h⟩ <;> rw [h]
  · exact Closing.Grows.refl c
  · exact Closing.addAll_grows _ _ c

theorem visit_weight (b : Basis) (hn : c.keys.Nodup) (i : Item) :
    (b.visit c i).queue.length + c.weight ≤ c.queue.length + (b.visit c i).weight := by
  rcases visit_cases b c i with ⟨h, -⟩ | ⟨sym, -, -, h⟩
  · exact Nat.le_of_eq (by rw [h])
  · rw [h]
    exact Closing.addAll_weight _ _ hn

/-- What closures rely on: productions are listed under their heads, and only symbols of the
    grammar begin something. -/
structure Proper (b : Basis) : Prop where
  indexed : b.grammar.Indexed
  first_lt : ∀ s, ∀ t ∈ (b.first.of s).keys, t < b.grammar.symbols.size

/-- A closure in the making that has no item without a reason. -/
structure Justified (b : Basis) (kernel : List Item) (c : Closing) : Prop where
  nodup : c.keys.Nodup
  kernel_sub : ∀ i ∈ kernel, i ∈ c.keys
  reason : ∀ i ∈ c.keys, i ∈ kernel ∨ i.Predicted b.grammar c.keys
  comes : ∀ i ∈ c.keys, i.ComesWith b.grammar kernel
  queue_sub : ∀ i ∈ c.queue, i ∈ c.keys

theorem Justified.visit {kernel : List Item} (h : b.Justified kernel c) (hb : b.Proper)
    (hi : i ∈ c.keys) : b.Justified kernel (b.visit c i) := by
  have hg := visit_grows b c i
  rcases visit_cases b c i with ⟨hv, -⟩ | ⟨sym, hnext, hnt, hv⟩
  · rw [hv]
    exact h
  rw [hv] at hg ⊢
  refine ⟨Closing.keys_nodup_addAll _ h.nodup, fun j hj => hg.mem_keys (h.kernel_sub j hj),
    fun j hj => ?_, fun j hj => ?_, fun j hj => ?_⟩
  · rcases Closing.mem_keys_addAll.1 hj with hj | ⟨p, hp, rfl⟩
    · exact (h.reason j hj).imp id fun hp => hp.mono fun k hk => hg.mem_keys hk
    · obtain ⟨hlt, hhead⟩ := hb.indexed.mem_productionsOf.1 hp
      exact Or.inr ⟨rfl, hlt, hhead ▸ hnt, i, hg.mem_keys hi, hhead ▸ hnext⟩
  · rcases Closing.mem_keys_addAll.1 hj with hj | ⟨p, hp, rfl⟩
    · exact h.comes j hj
    · obtain ⟨hlt, hhead⟩ := hb.indexed.mem_productionsOf.1 hp
      exact .predicted (h.comes i hi) hlt (hhead ▸ hnext) (hhead ▸ hnt)
  · rcases Closing.mem_queue_addAll hj with hj | hj
    · exact hg.mem_keys (h.queue_sub j hj)
    · exact Closing.mem_keys_addAll.2 (Or.inr hj)

/-- Everything that an item waits for is there, with what may come after it. -/
def ClosedAt (b : Basis) (c : Closing) (i : Item) : Prop :=
  ∀ sym p, i.next? b.grammar = some sym → b.grammar.isNonterminal sym = true →
    p ∈ b.grammar.productionsOf sym →
    ∃ s, c.find? ⟨p, 0⟩ = some s ∧
      ∀ t ∈ (b.lookahead i sym ((c.find? i).getD ∅)).keys, t ∈ s.keys

theorem ClosedAt.grows {c' : Closing} (h : b.ClosedAt c i) (hg : c.Grows c') (hi : i ∉ c'.queue) :
    b.ClosedAt c' i := by
  intro sym p hnext hnt hp
  obtain ⟨s, hs, hsub⟩ := h sym p hnext hnt hp
  obtain ⟨s', hs', hsub'⟩ := hg.find _ s hs
  rw [hg.same i hi]
  exact ⟨s', hs', fun t ht => hsub' t (hsub t ht)⟩

/-- An item that was looked at is closed, unless its own set grew meanwhile. -/
theorem closedAt_visit (b : Basis) (c : Closing) (hi : i ∉ (b.visit c i).queue) :
    b.ClosedAt (b.visit c i) i := by
  intro sym p hnext hnt hp
  rw [(visit_grows b c i).same i hi]
  rcases visit_cases b c i with ⟨-, h⟩ | ⟨sym', hnext', -, hv⟩
  · rw [h sym hnext] at hnt
    cases hnt
  · obtain rfl := Option.some.inj (hnext.symm.trans hnext')
    rw [hv]
    exact Closing.find?_addAll hp c _

/-! ## Working the queue off -/

/-- What some turns make of a closure, where any queued item may be looked at next. -/
inductive Worked (b : Basis) (c₀ : Closing) : Nat → Closing → Prop
  | start : Worked b c₀ 0 c₀
  | turn {n : Nat} {c : Closing} {i : Item} {before after : List Item} (h : Worked b c₀ n c)
      (hq : c.queue = before ++ i :: after) :
      Worked b c₀ (n + 1) (b.visit { c with queue := before ++ after } i)

/-- Looking at the first item each time, until the queue is empty or the turns are used up. -/
theorem Worked.closeAll {c₀ : Closing} (n : Nat) {m : Nat} (h : b.Worked c₀ m c) :
    ∃ k, b.Worked c₀ k (b.closeAll n c) ∧ ((b.closeAll n c).queue = [] ∨ k = m + n) := by
  induction n generalizing m c with
  | zero => exact ⟨m, h, Or.inr rfl⟩
  | succ n ih =>
    rw [Basis.closeAll]
    split
    · rename_i hq
      exact ⟨m, h, Or.inl hq⟩
    · rename_i i queue hq
      have hfirst : c.queue = [] ++ i :: queue := hq
      obtain ⟨k, hk, hend⟩ := ih (h.turn hfirst)
      exact ⟨k, hk, hend.imp_right fun heq => by omega⟩

section

variable {c₀ : Closing} {kernel before after : List Item} {n : Nat}

theorem Justified.turn (h : b.Justified kernel c) (hb : b.Proper) (hq : c.queue = before ++ i :: after) :
    b.Justified kernel (b.visit { c with queue := before ++ after } i) := by
  have hrest : b.Justified kernel { c with queue := before ++ after } := by
    refine ⟨h.nodup, h.kernel_sub, h.reason, h.comes, fun j hj => h.queue_sub j ?_⟩
    rw [hq]
    rcases List.mem_append.1 hj with hj | hj
    · exact List.mem_append_left _ hj
    · exact List.mem_append_right _ (List.mem_cons_of_mem _ hj)
  exact hrest.visit hb (h.queue_sub i (by simp [hq]))

theorem Justified.worked (h : b.Worked c₀ n c) (hb : b.Proper) (hj : b.Justified kernel c₀) :
    b.Justified kernel c := by
  induction h with
  | start => exact hj
  | turn _ hq ih => exact ih.turn hb hq

/-- Every item is closed or queued. -/
def Pending (b : Basis) (c : Closing) : Prop :=
  ∀ i ∈ c.keys, i ∈ c.queue ∨ b.ClosedAt c i

theorem Pending.turn (h : b.Pending c) (hq : c.queue = before ++ i :: after) :
    b.Pending (b.visit { c with queue := before ++ after } i) := by
  intro j hj
  by_cases hjq : j ∈ (b.visit { c with queue := before ++ after } i).queue
  · exact Or.inl hjq
  refine Or.inr ?_
  by_cases hji : j = i
  · subst hji
    exact closedAt_visit b _ hjq
  · -- `j` was closed before, since the only item that left the queue is `i`
    have hg := visit_grows b { c with queue := before ++ after } i
    have hjc : j ∈ c.keys := by
      rw [← Closing.find?_isSome_iff, hg.same j hjq] at hj
      exact Closing.find?_isSome_iff.1 hj
    rcases h j hjc with hq' | hc
    · rw [hq, List.mem_append, List.mem_cons] at hq'
      refine absurd (hg.queue j (List.mem_append.2 ?_)) hjq
      exact hq'.imp_right fun h' => h'.resolve_left hji
    · exact ClosedAt.grows (c := { c with queue := before ++ after }) hc hg hjq

theorem Pending.worked (h : b.Worked c₀ n c) (hp : b.Pending c₀) : b.Pending c := by
  induction h with
  | start => exact hp
  | turn _ hq ih => exact ih.turn hq

theorem Worked.grows (h : b.Worked c₀ n c) (j : Item) (s : SymSet) (hs : c₀.find? j = some s) :
    ∃ s', c.find? j = some s' ∧ ∀ t ∈ s.keys, t ∈ s'.keys := by
  induction h with
  | start => exact ⟨s, hs, fun t ht => ht⟩
  | @turn n c i before after _ hq ih =>
    obtain ⟨s', hs', hsub⟩ := ih
    obtain ⟨s'', hs'', hsub'⟩ :=
      (visit_grows b { c with queue := before ++ after } i).find j s' hs'
    exact ⟨s'', hs'', fun t ht => hsub' t (hsub t ht)⟩

/-- Turns are paid for: whenever an item is queued the closure gets heavier. -/
theorem Worked.weight (h : b.Worked c₀ n c) (hb : b.Proper) (hj : b.Justified kernel c₀) :
    n + c.queue.length + c₀.weight ≤ c₀.queue.length + c.weight := by
  induction h with
  | start => omega
  | @turn n c i before after h hq ih =>
    have hw := visit_weight (c := { c with queue := before ++ after }) b (hj.worked h hb).nodup i
    have hweight : ({ c with queue := before ++ after } : Closing).weight = c.weight := rfl
    have hlen := congrArg List.length hq
    rw [hweight] at hw
    simp only [List.length_append, List.length_cons] at hw hlen
    omega

end

/-- What may come after a nonterminal is the beginning of the rest, and what may come after
    the item where the rest derives the empty text; a line break is left to what is
    line-like. -/
theorem mem_lookahead {t sym : Nat} {set : SymSet} : t ∈ (b.lookahead i sym set).keys ↔
    b.strength.usesLookahead = true ∧
      (t ∈ (b.grammar.firstOfSeq b.first (i.rest b.grammar)).1.keys ∨
        (b.grammar.firstOfSeq b.first (i.rest b.grammar)).2 = true ∧ t ∈ set.keys) ∧
      ¬ (b.grammar.isLineLike sym = true ∧ t = Kind.newline.num) := by
  unfold lookahead
  by_cases hu : b.strength.usesLookahead = true <;>
    by_cases hl : b.grammar.isLineLike sym = true <;>
    by_cases he : (b.grammar.firstOfSeq b.first (i.rest b.grammar)).2 = true <;>
    simp [hu, hl, he, SortedMap.mem_keys_erase, and_comm]

/-- Whether a symbol may begin what comes after the symbol that an item waits for. -/
def Opens (b : Basis) (i : Item) (sym t : Nat) : Prop :=
  t ∈ (b.lookahead i sym ∅).keys

/-- Whether a symbol that may come after an item may come after the symbol that the item waits
    for. -/
def Passes (b : Basis) (i : Item) (sym t : Nat) : Prop :=
  t ∈ (b.lookahead i sym (SymSet.ofKeys [t])).keys

/-- What may come after a nonterminal begins there, or is passed on. -/
theorem mem_lookahead_iff {t sym : Nat} {set : SymSet} : t ∈ (b.lookahead i sym set).keys ↔
    b.Opens i sym t ∨ b.Passes i sym t ∧ t ∈ set.keys := by
  simp only [Opens, Passes, mem_lookahead, SortedMap.keys_empty, List.not_mem_nil,
    SymSet.mem_keys_ofKeys, List.mem_singleton]
  tauto

/-- What may come after the items that come with a kernel: the sets of the kernel, what begins
    behind an item that waits, and what is passed on from there. -/
inductive Announces (b : Basis) (kernel : List (Item × SymSet)) : Item → Nat → Prop
  | kernel {i : Item} {set : SymSet} {t : Nat} (he : (i, set) ∈ kernel) (ht : t ∈ set.keys) :
      Announces b kernel i t
  | opens {i : Item} {p t : Nat} (hi : i.ComesWith b.grammar (kernel.map Prod.fst))
      (hp : p < b.grammar.productions.size) (hnext : i.next? b.grammar = some (b.grammar.head p))
      (hnt : b.grammar.isNonterminal (b.grammar.head p) = true)
      (ht : b.Opens i (b.grammar.head p) t) : Announces b kernel ⟨p, 0⟩ t
  | passes {i : Item} {p t : Nat} (hi : Announces b kernel i t)
      (hp : p < b.grammar.productions.size) (hnext : i.next? b.grammar = some (b.grammar.head p))
      (hnt : b.grammar.isNonterminal (b.grammar.head p) = true)
      (ht : b.Passes i (b.grammar.head p) t) : Announces b kernel ⟨p, 0⟩ t

theorem Announces.comesWith {kernel : List (Item × SymSet)} {t : Nat} (h : b.Announces kernel i t) :
    i.ComesWith b.grammar (kernel.map Prod.fst) := by
  induction h with
  | kernel he _ => exact .kernel (List.mem_map_of_mem he)
  | opens hi hp hnext hnt _ => exact .predicted hi hp hnext hnt
  | passes _ hp hnext hnt _ ih => exact .predicted ih hp hnext hnt

/-- Without lookahead there is nothing but the sets of the kernel. -/
theorem Announces.plain {kernel : List (Item × SymSet)} {t : Nat} (h : b.Announces kernel i t) :
    b.strength.usesLookahead = true ∨ ∃ set, (i, set) ∈ kernel ∧ t ∈ set.keys := by
  cases h with
  | kernel he ht => exact Or.inr ⟨_, he, ht⟩
  | opens _ _ _ _ ht => exact Or.inl (mem_lookahead.1 ht).1
  | passes _ _ _ _ ht => exact Or.inl (mem_lookahead.1 ht).1

/-- Looking at an item adds to the sets of the productions that it waits for. -/
theorem within_visit {Q : Item → Nat → Prop} (hb : b.Proper) (h : c.Within Q)
    (hQ : ∀ p < b.grammar.productions.size, i.next? b.grammar = some (b.grammar.head p) →
      b.grammar.isNonterminal (b.grammar.head p) = true →
      ∀ t ∈ (b.lookahead i (b.grammar.head p) ((c.find? i).getD ∅)).keys, Q ⟨p, 0⟩ t) :
    (b.visit c i).Within Q := by
  rcases visit_cases b c i with ⟨hv, -⟩ | ⟨sym, hnext, hnt, hv⟩ <;> rw [hv]
  · exact h
  · refine h.addAll ?_
    intro p hp t ht
    obtain ⟨hlt, rfl⟩ := hb.indexed.mem_productionsOf.1 hp
    exact hQ p hlt hnext hnt t ht

/-- The sets stay among the symbols of the grammar. -/
theorem lt_visit (hb : b.Proper) (h : c.Within fun _ t => t < b.grammar.symbols.size) (i : Item) :
    (b.visit c i).Within fun _ t => t < b.grammar.symbols.size := by
  refine within_visit hb h ?_
  intro p _ _ _ t ht
  obtain ⟨-, ht | ⟨-, ht⟩, -⟩ := mem_lookahead.1 ht
  · obtain ⟨s, -, hs⟩ := Grammar.mem_firstOfSeq_sub ht
    exact hb.first_lt s t hs
  · exact h.getD ht

/-- The sets have nothing without a reason. -/
theorem announces_visit {kernel : List (Item × SymSet)} (hb : b.Proper)
    (h : c.Within (b.Announces kernel))
    (hi : i.ComesWith b.grammar (kernel.map Prod.fst)) :
    (b.visit c i).Within (b.Announces kernel) := by
  refine within_visit hb h ?_
  intro p hp hnext hnt t ht
  rcases mem_lookahead_iff.1 ht with ht | ⟨ht, hset⟩
  · exact .opens hi hp hnext hnt ht
  · exact .passes (h.getD hset) hp hnext hnt ht

/-- There is room for so many items and symbols only. -/
theorem Justified.weight_le {kernel : List Item} (h : b.Justified kernel c)
    (hw : c.Within fun _ t => t < b.grammar.symbols.size) :
    c.weight ≤ (kernel.length + b.grammar.productions.size) * (b.grammar.symbols.size + 1) := by
  have hsub : ∀ i ∈ c.keys,
      i ∈ kernel ++ (List.range b.grammar.productions.size).map fun p => (⟨p, 0⟩ : Item) := by
    intro i hi
    rcases h.reason i hi with hk | hp
    · exact List.mem_append_left _ hk
    · refine List.mem_append_right _ (List.mem_map.2 ⟨i.prod, List.mem_range.2 hp.prod_lt, ?_⟩)
      rw [← hp.dot]
  have hlen := (h.nodup.subperm hsub).length_le
  have hsize : c.weight ≤ c.items.length * (b.grammar.symbols.size + 1) := by
    refine total_map_le_mul fun e he => Nat.succ_le_succ ?_
    exact SymSet.size_le_of_forall_lt (hw e.1 e.2 (Closing.find?_of_mem_items h.nodup he))
  refine Nat.le_trans hsize (Nat.mul_le_mul_right _ ?_)
  simpa [Closing.keys] using hlen

section

variable {c₀ : Closing} {n : Nat}

theorem Worked.within_lt (h : b.Worked c₀ n c) (hb : b.Proper)
    (hw : c₀.Within fun _ t => t < b.grammar.symbols.size) :
    c.Within fun _ t => t < b.grammar.symbols.size := by
  induction h with
  | start => exact hw
  | @turn n c i before after _ hq ih =>
    exact lt_visit (c := { c with queue := before ++ after }) hb ih i

theorem Worked.announces {kernel : List (Item × SymSet)} (h : b.Worked c₀ n c) (hb : b.Proper)
    (hj : b.Justified (kernel.map Prod.fst) c₀) (ha : c₀.Within (b.Announces kernel)) :
    c.Within (b.Announces kernel) := by
  induction h with
  | start => exact ha
  | @turn n c i before after h hq ih =>
    have hc := hj.worked h hb
    exact announces_visit (c := { c with queue := before ++ after }) hb ih
      (hc.comes i (hc.queue_sub i (by simp [hq])))

end

/-! ## The closure -/

/-- The closure of some items: it has them with at least their sets, every other member is
    waited for, all that members wait for is there, and there is nothing else. -/
structure IsClosure (b : Basis) (kernel items : List (Item × SymSet)) : Prop where
  nodup : (items.map Prod.fst).Nodup
  kernel_sub : ∀ e ∈ kernel, ∃ s, (e.1, s) ∈ items ∧ ∀ t ∈ e.2.keys, t ∈ s.keys
  reason : ∀ i ∈ items.map Prod.fst,
    i ∈ kernel.map Prod.fst ∨ i.Predicted b.grammar (items.map Prod.fst)
  closed : ∀ i s, (i, s) ∈ items → ∀ p < b.grammar.productions.size,
    i.next? b.grammar = some (b.grammar.head p) →
    b.grammar.isNonterminal (b.grammar.head p) = true →
    ∃ s', (⟨p, 0⟩, s') ∈ items ∧ ∀ t ∈ (b.lookahead i (b.grammar.head p) s).keys, t ∈ s'.keys
  within : ∀ e ∈ items, ∀ t ∈ e.2.keys, t < b.grammar.symbols.size
  comes : ∀ i ∈ items.map Prod.fst, i.ComesWith b.grammar (kernel.map Prod.fst)
  announced : ∀ e ∈ items, ∀ t ∈ e.2.keys, b.Announces kernel e.1 t

/-- The order of the members does not matter. -/
theorem IsClosure.congr {kernel items items' : List (Item × SymSet)} (h : b.IsClosure kernel items)
    (hn : (items'.map Prod.fst).Nodup) (hmem : ∀ e, e ∈ items' ↔ e ∈ items) :
    b.IsClosure kernel items' := by
  have hkeys (i : Item) : i ∈ items'.map Prod.fst ↔ i ∈ items.map Prod.fst := by
    simp only [List.mem_map, hmem]
  refine ⟨hn, fun e he => ?_, fun i hi => ?_, fun i s hi p hp hnext hnt => ?_, fun e he => ?_,
    fun i hi => ?_, fun e he => ?_⟩
  · obtain ⟨s, hs, hsub⟩ := h.kernel_sub e he
    exact ⟨s, (hmem _).2 hs, hsub⟩
  · exact (h.reason i ((hkeys i).1 hi)).imp id fun hp => hp.mono fun j hj => (hkeys j).2 hj
  · obtain ⟨s', hs', hsub⟩ := h.closed i s ((hmem _).1 hi) p hp hnext hnt
    exact ⟨s', (hmem _).2 hs', hsub⟩
  · exact h.within e ((hmem e).1 he)
  · exact h.comes i ((hkeys i).1 hi)
  · exact h.announced e ((hmem e).1 he)

/-- The members of a closure are the items that come with the kernel. -/
theorem IsClosure.mem_iff {kernel items : List (Item × SymSet)} (h : b.IsClosure kernel items) :
    i ∈ items.map Prod.fst ↔ i.ComesWith b.grammar (kernel.map Prod.fst) := by
  constructor
  · exact h.comes i
  · intro hi
    induction hi with
    | kernel hi =>
      obtain ⟨e, he, rfl⟩ := List.mem_map.1 hi
      obtain ⟨s, hs, -⟩ := h.kernel_sub e he
      exact List.mem_map.2 ⟨_, hs, rfl⟩
    | predicted _ hp hnext hnt ih =>
      obtain ⟨e, he, rfl⟩ := List.mem_map.1 ih
      obtain ⟨s, hs, -⟩ := h.closed e.1 e.2 he _ hp hnext hnt
      exact List.mem_map.2 ⟨_, hs, rfl⟩

/-- The set of a member is what may come after it. -/
theorem IsClosure.mem_set_iff {kernel items : List (Item × SymSet)} (h : b.IsClosure kernel items)
    {s : SymSet} (hi : (i, s) ∈ items) {t : Nat} : t ∈ s.keys ↔ b.Announces kernel i t := by
  have huniq {j : Item} {s s' : SymSet} (hj : (j, s) ∈ items) (hj' : (j, s') ∈ items) : s = s' :=
    congrArg Prod.snd (List.inj_on_of_nodup_map h.nodup hj hj' rfl)
  constructor
  · exact h.announced (i, s) hi t
  · intro ht
    induction ht generalizing s with
    | kernel he ht =>
      obtain ⟨s', hs', hsub⟩ := h.kernel_sub _ he
      rw [huniq hi hs']
      exact hsub _ ht
    | opens hj hp hnext hnt ht =>
      obtain ⟨e, he, rfl⟩ := List.mem_map.1 (h.mem_iff.2 hj)
      obtain ⟨s', hs', hsub⟩ := h.closed e.1 e.2 he _ hp hnext hnt
      rw [huniq hi hs']
      exact hsub _ (mem_lookahead_iff.2 (Or.inl ht))
    | @passes j p t hj hp hnext hnt ht ih =>
      have hmem : j ∈ items.map Prod.fst := by
        rw [h.mem_iff]
        exact hj.comesWith
      obtain ⟨e, he, rfl⟩ := List.mem_map.1 hmem
      obtain ⟨s', hs', hsub⟩ := h.closed e.1 e.2 he _ hp hnext hnt
      rw [huniq hi hs']
      exact hsub _ (mem_lookahead_iff.2 (Or.inr ⟨ht, ih he⟩))

/-- Without lookahead the sets of a closure are those of the kernel. -/
theorem IsClosure.plain {kernel items : List (Item × SymSet)} (h : b.IsClosure kernel items)
    {e : Item × SymSet} (he : e ∈ items) {t : Nat} (ht : t ∈ e.2.keys) :
    b.strength.usesLookahead = true ∨ ∃ set, (e.1, set) ∈ kernel ∧ t ∈ set.keys :=
  (h.announced e he t ht).plain

/-- Two closures of a kernel have the same items with the same sets. -/
theorem IsClosure.mem_congr {kernel items items' : List (Item × SymSet)}
    (h : b.IsClosure kernel items) (h' : b.IsClosure kernel items') {e : Item × SymSet}
    (he : e ∈ items) : e ∈ items' := by
  have hi : e.1 ∈ items'.map Prod.fst := h'.mem_iff.2 (h.mem_iff.1 (List.mem_map_of_mem he))
  obtain ⟨e', he', heq⟩ := List.mem_map.1 hi
  have hset : e'.2 = e.2 := by
    refine SymSet.ext fun t => ?_
    rw [h'.mem_set_iff he', h.mem_set_iff he, heq]
  rwa [← Prod.ext heq hset]

/-! ## Working off the items of a kernel -/

section

variable {kernel : List (Item × SymSet)} {n : Nat}

theorem justified_kernel (b : Basis) (hn : (kernel.map Prod.fst).Nodup) :
    b.Justified (kernel.map Prod.fst) ⟨kernel, kernel.map Prod.fst⟩ :=
  ⟨hn, fun _ h => h, fun _ h => Or.inl h, fun _ h => .kernel h, fun _ h => h⟩

/-- **The queue gets empty** in any order: there is no room for more turns. -/
theorem Worked.bounded (h : b.Worked ⟨kernel, kernel.map Prod.fst⟩ n c) (hb : b.Proper)
    (hn : (kernel.map Prod.fst).Nodup)
    (hk : ∀ e ∈ kernel, ∀ t ∈ e.2.keys, t < b.grammar.symbols.size) :
    n + c.queue.length ≤ b.closureSteps kernel := by
  have hj := justified_kernel b hn
  have hpaid := h.weight hb hj
  have hroom := (hj.worked h hb).weight_le (h.within_lt hb fun i s hs t ht =>
    hk (i, s) (Closing.mem_items_of_find? hs) t ht)
  simp only [closureSteps, List.length_map, Nat.mul_add, Nat.add_mul] at hpaid hroom ⊢
  omega

/-- **What is left when the queue is empty is the closure**, in any order. -/
theorem Worked.isClosure (h : b.Worked ⟨kernel, kernel.map Prod.fst⟩ n c) (hb : b.Proper)
    (hn : (kernel.map Prod.fst).Nodup)
    (hk : ∀ e ∈ kernel, ∀ t ∈ e.2.keys, t < b.grammar.symbols.size) (hq : c.queue = []) :
    b.IsClosure kernel c.items := by
  have hj₀ := justified_kernel b hn
  have hj := hj₀.worked h hb
  have hp : b.Pending c := Pending.worked h fun i hi => Or.inl hi
  have hw := h.within_lt hb fun i s hs t ht => hk (i, s) (Closing.mem_items_of_find? hs) t ht
  have ha := h.announces hb hj₀ fun i s hs t ht => .kernel (Closing.mem_items_of_find? hs) ht
  refine ⟨hj.nodup, fun e he => ?_, hj.reason, fun i s hi p hp' hnext hnt => ?_, fun e he t ht => ?_,
    hj.comes, fun e he t ht => ?_⟩
  · obtain ⟨s, hs, hsub⟩ := h.grows e.1 e.2 (Closing.find?_of_mem_items hj₀.nodup he)
    exact ⟨s, Closing.mem_items_of_find? hs, hsub⟩
  · have hfind := Closing.find?_of_mem_items hj.nodup hi
    have hclosed : b.ClosedAt c i := by
      refine (hp i (Closing.mem_keys_of_find? hfind)).resolve_left ?_
      rw [hq]
      exact List.not_mem_nil
    obtain ⟨s', hs', hsub⟩ := hclosed _ p hnext hnt (hb.indexed.mem_productionsOf.2 ⟨hp', rfl⟩)
    rw [hfind] at hsub
    exact ⟨s', Closing.mem_items_of_find? hs', hsub⟩
  · exact hw e.1 e.2 (Closing.find?_of_mem_items hj.nodup he) t ht
  · exact ha e.1 e.2 (Closing.find?_of_mem_items hj.nodup he) t ht

/-- After the steps that are enough the work list is empty. -/
theorem closeAll_steps (hb : b.Proper) (hn : (kernel.map Prod.fst).Nodup)
    (hk : ∀ e ∈ kernel, ∀ t ∈ e.2.keys, t < b.grammar.symbols.size) :
    (b.closeAll (b.closureSteps kernel) ⟨kernel, kernel.map Prod.fst⟩).queue = [] := by
  obtain ⟨k, hk', hend⟩ := Worked.start.closeAll (b := b) (b.closureSteps kernel)
  have hbounded := hk'.bounded hb hn hk
  rcases hend with hend | hend
  · exact hend
  · exact List.length_eq_zero_iff.1 (by omega)

/-- **The closure of items is one.** -/
theorem closure_isClosure (hb : b.Proper) (hn : (kernel.map Prod.fst).Nodup)
    (hk : ∀ e ∈ kernel, ∀ t ∈ e.2.keys, t < b.grammar.symbols.size) :
    b.IsClosure kernel (b.closure kernel) := by
  obtain ⟨_, hk', -⟩ := Worked.start.closeAll (b := b) (b.closureSteps kernel)
  exact hk'.isClosure hb hn hk (closeAll_steps hb hn hk)

end

/-- What an automaton knows about beginnings is about symbols of the grammar. -/
theorem of_proper {g : Grammar} (hg : g.Indexed) (strength : Strength) :
    (Basis.of g strength).Proper := by
  refine ⟨hg, fun s t ht => ?_⟩
  unfold of at ht
  dsimp only at ht
  split at ht
  · exact (Grammar.firstSets_within hg).lt s t ht
  · by_cases hs : s < g.symbols.size <;> simp [SymSets.of, hs] at ht

end Basis

end LayoutLR
