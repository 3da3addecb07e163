/-
  Layout-aware LR toolkit — finding the state of a kernel.

  An automaton in the making only grows: a state keeps its items, their lookahead
  sets get larger, and the sets of the pool stay where they are.  A state that is
  complete afterwards was not touched at all.

  * `Automaton.Extends`: the automaton later on;
  * `Automaton.Continues`: later on, with the states processed as before;
  * `Automaton.merge_spec`: lookahead sets flow into those of a state;
  * `Automaton.addState_spec`: there is a state of the kernel afterwards.
-/
import Mathlib.Data.List.Induction
import LayoutLR.Automaton.Basic
import LayoutLR.Proofs.Automaton.Closure
import LayoutLR.Proofs.Sorted.Pool

namespace LayoutLR

namespace Automaton

variable {a b c : Automaton} {g : Grammar} {i j : Nat} {s s' s'' : State} {m : ItemMap Handle}

/-- The items of a map with their lookahead sets. -/
def items (a : Automaton) (m : ItemMap Handle) : List (Item × SymSet) :=
  m.entries.map fun e => (e.1, a.set e.2)

theorem items_keys (a : Automaton) (m : ItemMap Handle) : (a.items m).map Prod.fst = m.keys := by
  simp [items, SortedMap.keys]

theorem mem_items {k : Item} {set : SymSet} :
    (k, set) ∈ a.items m ↔ ∃ h, m.find? k = some h ∧ a.set h = set := by
  simp only [items, List.mem_map, Prod.mk.injEq, SortedMap.find?_eq_some_iff]
  constructor
  · rintro ⟨⟨k', h⟩, hm, rfl, rfl⟩
    exact ⟨h, hm, rfl⟩
  · rintro ⟨h, hm, rfl⟩
    exact ⟨(k, h), hm, rfl, rfl⟩

/-- The handles of a map lead to sets of the pool, with symbols of the grammar; without
    lookahead to the empty set. -/
structure Covers (a : Automaton) (m : ItemMap Handle) : Prop where
  lt : ∀ k h, m.find? k = some h → h < a.pool.size
  within : ∀ k h, m.find? k = some h → ∀ t ∈ (a.set h).keys, t < a.grammar.symbols.size
  plain : ∀ k h, m.find? k = some h → ∀ t ∈ (a.set h).keys, a.strength.usesLookahead = true

theorem set_eq (hp : a.pool.Extends b.pool) {h : Handle} (hh : h < a.pool.size) :
    b.set h = a.set h :=
  hp.get_eq h hh

theorem Covers.extends (hc : a.Covers m) (hb : b.basis = a.basis) (hp : a.pool.Extends b.pool) :
    b.Covers m := by
  refine ⟨fun k h hk => hp.lt (hc.lt k h hk), fun k h hk t ht => ?_, fun k h hk t ht => ?_⟩
  · rw [set_eq hp (hc.lt k h hk)] at ht
    rw [grammar, hb]
    exact hc.within k h hk t ht
  · rw [set_eq hp (hc.lt k h hk)] at ht
    rw [strength, hb]
    exact hc.plain k h hk t ht

theorem items_eq (hc : a.Covers m) (hp : a.pool.Extends b.pool) : b.items m = a.items m := by
  refine List.map_congr_left fun e he => ?_
  rw [set_eq hp (hc.lt e.1 e.2 (SortedMap.find?_eq_some_iff.2 he))]

/-! ## Growing automata -/

/-- A kernel later on: the same items, with larger sets. -/
structure KernelGrows (a b : Automaton) (m m' : ItemMap Handle) : Prop where
  keys : m'.keys = m.keys
  sets : ∀ k h, m.find? k = some h →
    ∃ h', m'.find? k = some h' ∧ ∀ t ∈ (a.set h).keys, t ∈ (b.set h').keys

theorem KernelGrows.trans {m' m'' : ItemMap Handle} (h : KernelGrows a b m m')
    (h' : KernelGrows b c m' m'') : KernelGrows a c m m'' := by
  refine ⟨h'.keys.trans h.keys, fun k x hx => ?_⟩
  obtain ⟨x', hx', hsub⟩ := h.sets k x hx
  obtain ⟨x'', hx'', hsub'⟩ := h'.sets k x' hx'
  exact ⟨x'', hx'', fun t ht => hsub' t (hsub t ht)⟩

/-- Another pool that has all the sets. -/
theorem KernelGrows.of_pool (hc : a.Covers m) (hp : a.pool.Extends b.pool) :
    KernelGrows a b m m := by
  refine ⟨rfl, fun k h hk => ⟨h, hk, fun t ht => ?_⟩⟩
  rwa [set_eq hp (hc.lt k h hk)]

/-- An automaton later on. -/
structure Extends (a b : Automaton) : Prop where
  basis : b.basis = a.basis
  pool : a.pool.Extends b.pool
  states : ∀ (i : Nat) (s : State), a.states[i]? = some s →
    ∃ s', b.states[i]? = some s' ∧ KernelGrows a b s.kernel s'.kernel

theorem Extends.trans (h : a.Extends b) (h' : b.Extends c) : a.Extends c := by
  refine ⟨h'.basis.trans h.basis, h.pool.trans h'.pool, fun i s hs => ?_⟩
  obtain ⟨s', hs', hg⟩ := h.states i s hs
  obtain ⟨s'', hs'', hg'⟩ := h'.states i s' hs'
  exact ⟨s'', hs'', hg.trans hg'⟩

/-- The number of symbols in the lookahead set of an item. -/
def setSize (a : Automaton) (m : ItemMap Handle) (k : Item) : Nat :=
  ((m.find? k).map fun h => (a.set h).size).getD 0

/-- The number of symbols in the lookahead sets of a kernel. -/
def weight (a : Automaton) (m : ItemMap Handle) : Nat :=
  total (m.keys.map (a.setSize m))

theorem KernelGrows.setSize_le {m' : ItemMap Handle} (h : KernelGrows a b m m') (k : Item) :
    a.setSize m k ≤ b.setSize m' k := by
  unfold setSize
  cases hk : m.find? k with
  | none => simp
  | some x =>
    obtain ⟨x', hx', hsub⟩ := h.sets k x hk
    rw [hx']
    exact SortedMap.size_le_of_keys_subset hsub

theorem KernelGrows.weight_le {m' : ItemMap Handle} (h : KernelGrows a b m m') :
    a.weight m ≤ b.weight m' := by
  rw [weight, weight, h.keys]
  exact total_map_le fun k _ => h.setSize_le k

/-- A state later on that was not processed: only its sets have grown, and then it is no
    longer complete. -/
structure Waits (a b : Automaton) (s s' : State) : Prop where
  grows : KernelGrows a b s.kernel s'.kernel
  rest : s' = { s with kernel := s'.kernel, complete := s'.complete }
  same : s'.complete = true → s' = s
  pays : s.complete = true → s'.complete = false → a.weight s.kernel < b.weight s'.kernel
  still : a.strength ≠ .lalr → s' = s

theorem Waits.trans (hb : b.basis = a.basis) (h : Waits a b s s') (h' : Waits b c s' s'') :
    Waits a c s s'' := by
  refine ⟨h.grows.trans h'.grows, ?_, fun hc => ?_, fun hc hc' => ?_, fun hl => ?_⟩
  · rw [h'.rest, h.rest]
  · have e := h'.same hc
    rw [e] at hc ⊢
    exact h.same hc
  · cases hs' : s'.complete with
    | true => exact Nat.lt_of_le_of_lt h.grows.weight_le (h'.pays hs' hc')
    | false => exact Nat.lt_of_lt_of_le (h.pays hc hs') h'.grows.weight_le
  · rw [h'.still (by rwa [strength, hb]), h.still hl]

/-- An automaton later on, with no state processed meanwhile. -/
structure Continues (a b : Automaton) : Prop where
  basis : b.basis = a.basis
  pool : a.pool.Extends b.pool
  states : ∀ (i : Nat) (s : State), a.states[i]? = some s →
    ∃ s', b.states[i]? = some s' ∧ Waits a b s s'

theorem Continues.trans (h : a.Continues b) (h' : b.Continues c) : a.Continues c := by
  refine ⟨h'.basis.trans h.basis, h.pool.trans h'.pool, fun i s hs => ?_⟩
  obtain ⟨s', hs', hg⟩ := h.states i s hs
  obtain ⟨s'', hs'', hg'⟩ := h'.states i s' hs'
  exact ⟨s'', hs'', hg.trans h.basis hg'⟩

theorem Continues.extends (h : a.Continues b) : a.Extends b := by
  refine ⟨h.basis, h.pool, fun i s hs => ?_⟩
  obtain ⟨s', hs', hw⟩ := h.states i s hs
  exact ⟨s', hs', hw.grows⟩

/-- A state that stayed as it was. -/
theorem Waits.refl (hc : a.Covers s.kernel) (hp : a.pool.Extends b.pool) : Waits a b s s :=
  ⟨.of_pool hc hp, rfl, fun _ => rfl, fun h h' => by simp [h] at h', fun _ => rfl⟩

/-! ## Changing a state -/

theorem states_update (a : Automaton) (i j : Nat) (f : State → State) :
    (a.update i f).states[j]? = if i = j then a.states[j]?.map f else a.states[j]? := by
  unfold update
  rw [Array.getElem?_modify]

@[simp] theorem basis_update (a : Automaton) (i : Nat) (f : State → State) :
    (a.update i f).basis = a.basis :=
  rfl

@[simp] theorem pool_update (a : Automaton) (i : Nat) (f : State → State) :
    (a.update i f).pool = a.pool :=
  rfl

@[simp] theorem size_update (a : Automaton) (i : Nat) (f : State → State) :
    (a.update i f).states.size = a.states.size := by
  simp [update]

/-! ## Merging lookahead sets -/

/-- The automaton with another pool, and another kernel of a state. -/
def withKernel (a : Automaton) (i : Nat) (pool : Pool) (kernel : ItemMap Handle) : Automaton :=
  { a with pool }.update i fun s => { s with kernel }

theorem withKernel_self (hs : a.states[i]? = some s) : a.withKernel i a.pool s.kernel = a := by
  have : (a.states.modify i fun t => { t with kernel := s.kernel }) = a.states := by
    refine Array.ext_getElem? fun j => ?_
    rw [Array.getElem?_modify]
    split
    · rename_i h
      rw [← h, hs]
      rfl
    · rfl
  simp [withKernel, update, this]

theorem withKernel_update (a : Automaton) (i : Nat) (p p' : Pool) (m : ItemMap Handle)
    (f : ItemMap Handle → ItemMap Handle) :
    ({ a.withKernel i p m with pool := p' } : Automaton).update i
      (fun s => { s with kernel := f s.kernel }) = a.withKernel i p' (f m) := by
  have : ((a.states.modify i fun s => { s with kernel := m }).modify i
      fun s => { s with kernel := f s.kernel }) =
      a.states.modify i fun s => { s with kernel := f m } := by
    refine Array.ext_getElem? fun j => ?_
    simp only [Array.getElem?_modify]
    split
    · cases a.states[j]? <;> rfl
    · rfl
  simp [withKernel, update, this]

/-- What merging one set does: there is nothing to do, or the set of the item grows. -/
theorem mergeItem_cases (hs : a.states[i]? = some s) (p : Pool) (m : ItemMap Handle)
    (grown : Bool) (e : Item × Handle) :
    (mergeItem i (a.withKernel i p m, grown) e = (a.withKernel i p m, grown) ∧
      ∀ old, m.find? e.1 = some old → ∀ t ∈ (p.get e.2).keys, t ∈ (p.get old).keys) ∨
    ∃ old, m.find? e.1 = some old ∧
      (p.get old).size < ((p.get old).union (p.get e.2)).size ∧
      mergeItem i (a.withKernel i p m, grown) e =
        (a.withKernel i (p.intern ((p.get old).union (p.get e.2))).2
          (m.replace e.1 (p.intern ((p.get old).union (p.get e.2))).1), true) := by
  have hstate : (a.withKernel i p m).states[i]? = some { s with kernel := m } := by
    simp [withKernel, states_update, hs]
  have hset (h : Handle) : (a.withKernel i p m).set h = p.get h := rfl
  unfold mergeItem
  simp only [hstate, Option.bind_some, hset]
  cases hfind : m.find? e.1 with
  | none => exact Or.inl ⟨rfl, by simp⟩
  | some old =>
    by_cases hsize : ((p.get old).union (p.get e.2)).size = (p.get old).size
    · refine Or.inl ⟨by simp [hsize], ?_⟩
      rintro _ ⟨⟩
      exact SortedMap.size_union_eq_iff.1 hsize
    · have hle := SortedMap.size_le_size_union (p.get old) (p.get e.2)
      refine Or.inr ⟨old, rfl, by omega, ?_⟩
      simp only [hsize, if_false]
      exact congrArg (·, true) (withKernel_update a i p _ m fun m => m.replace e.1 _)

/-- The pool and the kernel of a state after some sets were merged into it. -/
structure Merged (a : Automaton) (m : ItemMap Handle) (es : List (Item × Handle)) (p : Pool)
    (m' : ItemMap Handle) (grown : Bool) : Prop where
  pool : a.pool.Extends p
  keys : m'.keys = m.keys
  lt : ∀ k h, m'.find? k = some h → h < p.size
  sets : ∀ k h, m.find? k = some h →
    ∃ h', m'.find? k = some h' ∧ ∀ t ∈ (a.set h).keys, t ∈ (p.get h').keys
  merged : ∀ e ∈ es, ∀ h', m'.find? e.1 = some h' → ∀ t ∈ (a.set e.2).keys, t ∈ (p.get h').keys
  origin : ∀ k h', m'.find? k = some h' → ∀ t ∈ (p.get h').keys,
    (∃ h, m.find? k = some h ∧ t ∈ (a.set h).keys) ∨ ∃ e ∈ es, e.1 = k ∧ t ∈ (a.set e.2).keys
  same : grown = false → p = a.pool ∧ m' = m
  larger : grown = true → ∃ k h h', m.find? k = some h ∧ m'.find? k = some h' ∧
    (a.set h).size < (p.get h').size

section

variable {es : List (Item × Handle)} {p : Pool} {m' : ItemMap Handle} {grown : Bool}
  {e : Item × Handle} {old : Handle}

/-- Where a member of a merged set is from, if one more set is named. -/
theorem Merged.origin_snoc (hm : a.Merged m es p m' grown) (e : Item × Handle) {k : Item}
    {h : Handle} (hk : m'.find? k = some h) {t : Nat} (ht : t ∈ (p.get h).keys) :
    (∃ h, m.find? k = some h ∧ t ∈ (a.set h).keys) ∨
      ∃ e' ∈ es ++ [e], e'.1 = k ∧ t ∈ (a.set e'.2).keys := by
  refine (hm.origin k h hk t ht).imp_right ?_
  rintro ⟨e', he', hsource⟩
  exact ⟨e', List.mem_append_left _ he', hsource⟩

/-- No set of the kernel is larger than the one that it was merged into. -/
theorem Merged.size_le (hm : a.Merged m es p m' grown) {k : Item} (hk : m'.find? k = some old) :
    ∃ h, m.find? k = some h ∧ (a.set h).size ≤ (p.get old).size := by
  have hmem : k ∈ m.keys := hm.keys ▸ SortedMap.mem_keys_of_find? hk
  obtain ⟨h, hh⟩ := SortedMap.exists_find?_of_mem_keys hmem
  obtain ⟨h', hh', hsub⟩ := hm.sets k h hh
  obtain rfl := Option.some.inj (hh'.symm.trans hk)
  exact ⟨h, hh, SortedMap.size_le_of_keys_subset hsub⟩

/-- There is nothing to do for a set that is within that of its item. -/
theorem Merged.keep (hm : a.Merged m es p m' grown) (he : e.2 < a.pool.size)
    (hsub : ∀ h', m'.find? e.1 = some h' → ∀ t ∈ (p.get e.2).keys, t ∈ (p.get h').keys) :
    a.Merged m (es ++ [e]) p m' grown := by
  have hset : p.get e.2 = a.set e.2 := hm.pool.get_eq e.2 he
  refine ⟨hm.pool, hm.keys, hm.lt, hm.sets, ?_, fun k h' hh' t ht => hm.origin_snoc e hh' ht,
    hm.same, hm.larger⟩
  intro e' he' h' hh' t ht
  rcases List.mem_append.1 he' with he' | he'
  · exact hm.merged e' he' h' hh' t ht
  · obtain rfl := List.mem_singleton.1 he'
    exact hsub h' hh' t (hset ▸ ht)

/-- The set of an item grows: it is that of `new` from now on, the others are as they were. -/
theorem Merged.grow (hm : a.Merged m es p m' grown) (he : e.2 < a.pool.size)
    (hold : m'.find? e.1 = some old) {new : SymSet}
    (hnew : ∀ t, t ∈ new.keys ↔ t ∈ (p.get old).keys ∨ t ∈ (p.get e.2).keys)
    (hlt : (p.get old).size < new.size) :
    a.Merged m (es ++ [e]) (p.intern new).2 (m'.replace e.1 (p.intern new).1) true := by
  have hset : p.get e.2 = a.set e.2 := hm.pool.get_eq e.2 he
  have hx := p.intern_extends new
  have hget : (p.intern new).2.get (p.intern new).1 = new := p.get_intern new
  have hfind (k : Item) : (m'.replace e.1 (p.intern new).1).find? k =
      if k = e.1 then some (p.intern new).1 else m'.find? k := by
    rw [SortedMap.find?_replace, hold]
    rfl
  refine ⟨hm.pool.trans hx, ?_, ?_, ?_, ?_, ?_, by simp, fun _ => ?_⟩
  · rw [SortedMap.keys_replace, hm.keys]
  · intro k h hk
    rw [hfind] at hk
    split at hk
    · obtain rfl := Option.some.inj hk
      exact p.intern_lt new
    · exact hx.lt (hm.lt k h hk)
  · intro k h hk
    obtain ⟨h', hh', hsub⟩ := hm.sets k h hk
    rw [hfind]
    by_cases hke : k = e.1
    · refine ⟨_, if_pos hke, fun t ht => ?_⟩
      obtain rfl : old = h' := by simpa [hke, hold] using hh'
      rw [hget, hnew]
      exact Or.inl (hsub t ht)
    · refine ⟨h', by rw [if_neg hke, hh'], fun t ht => ?_⟩
      rw [hx.get_eq h' (hm.lt k h' hh')]
      exact hsub t ht
  · intro e' he' h' hh' t ht
    rw [hfind] at hh'
    rcases List.mem_append.1 he' with he' | he'
    · split at hh'
      · rename_i hk
        obtain rfl := Option.some.inj hh'
        rw [hget, hnew]
        exact Or.inl (hm.merged e' he' old (hk ▸ hold) t ht)
      · rw [hx.get_eq h' (hm.lt _ h' hh')]
        exact hm.merged e' he' h' hh' t ht
    · obtain rfl := List.mem_singleton.1 he'
      rw [if_pos rfl] at hh'
      obtain rfl := Option.some.inj hh'
      rw [hget, hnew, hset]
      exact Or.inr ht
  · intro k h' hh' t ht
    rw [hfind] at hh'
    split at hh'
    · rename_i hk
      obtain rfl := Option.some.inj hh'
      rw [hget, hnew] at ht
      rcases ht with ht | ht
      · exact hm.origin_snoc e (hk ▸ hold) ht
      · exact Or.inr ⟨e, by simp, hk.symm, hset ▸ ht⟩
    · rw [hx.get_eq h' (hm.lt k h' hh')] at ht
      exact hm.origin_snoc e hh' ht
  · obtain ⟨h, hh, hle⟩ := hm.size_le hold
    refine ⟨e.1, h, _, hh, by rw [hfind, if_pos rfl], ?_⟩
    rw [hget]
    exact Nat.lt_of_le_of_lt hle hlt

theorem Merged.step (hm : a.Merged m es p m' grown) (hs : a.states[i]? = some s)
    (he : e.2 < a.pool.size) :
    ∃ p' m'' grown', mergeItem i (a.withKernel i p m', grown) e = (a.withKernel i p' m'', grown') ∧
      a.Merged m (es ++ [e]) p' m'' grown' := by
  rcases mergeItem_cases hs p m' grown e with ⟨heq, hsub⟩ | ⟨old, hold, hlt, heq⟩
  · exact ⟨p, m', grown, heq, hm.keep he hsub⟩
  · exact ⟨_, _, true, heq, hm.grow he hold (fun t => SortedMap.mem_keys_union _ _ t) hlt⟩

/-- A kernel that sets were merged into has grown. -/
theorem Merged.grows (hm : a.Merged m es b.pool m' grown) : KernelGrows a b m m' :=
  ⟨hm.keys, hm.sets⟩

/-- A state that sets were merged into waits for its turn, if it is to be processed again when
    its kernel grew. -/
theorem Merged.waits (hm : a.Merged s.kernel es b.pool m' grown) (hl : a.strength = .lalr) :
    Waits a b s { s with kernel := m', complete := s.complete && !grown } := by
  refine ⟨hm.grows, rfl, fun hcomplete => ?_, fun hcomplete hnot => ?_, fun h => absurd hl h⟩
  · obtain ⟨hsc, hg⟩ : s.complete = true ∧ grown = false := by simpa using hcomplete
    simp [(hm.same hg).2, hg]
  · have hg : grown = true := by simpa [hcomplete] using hnot
    obtain ⟨k, h, h', hh, hh', hlt⟩ := hm.larger hg
    rw [weight, weight, hm.grows.keys]
    refine total_map_lt (fun k _ => hm.grows.setSize_le k) (SortedMap.mem_keys_of_find? hh) ?_
    simp only [setSize, hh, hh', Option.map_some, Option.getD_some]
    exact hlt

/-- What is in a merged set was in one of the sets before. -/
theorem Merged.covers {m₀ : ItemMap Handle} (hmg : a.Merged m₀ m.entries b.pool m' grown)
    (hb : b.basis = a.basis) (hc : a.Covers m₀) (hm : a.Covers m) : b.Covers m' := by
  have horigin (k : Item) (h : Handle) (hk : m'.find? k = some h) (t : Nat)
      (ht : t ∈ (b.set h).keys) :
      t < a.grammar.symbols.size ∧ a.strength.usesLookahead = true := by
    rcases hmg.origin k h hk t ht with ⟨x, hx, ht⟩ | ⟨e, he, -, ht⟩
    · exact ⟨hc.within k x hx t ht, hc.plain k x hx t ht⟩
    · have he' := SortedMap.find?_eq_some_iff.2 he
      exact ⟨hm.within _ _ he' t ht, hm.plain _ _ he' t ht⟩
  refine ⟨hmg.lt, fun k h hk t ht => ?_, fun k h hk t ht => ?_⟩
  · rw [grammar, hb]
    exact (horigin k h hk t ht).1
  · rw [strength, hb]
    exact (horigin k h hk t ht).2

end

/-- All kernels have their sets in the pool. -/
def Covered (a : Automaton) : Prop :=
  ∀ (i : Nat) (s : State), a.states[i]? = some s → a.Covers s.kernel

/-- Merging changes the kernel of one state, which has to be processed again if it grew. -/
theorem merge_eq (hs : a.states[i]? = some s) (hc : a.Covers s.kernel) (hm : a.Covers m) :
    ∃ p m' grown, a.Merged s.kernel m.entries p m' grown ∧ (a.merge i m).basis = a.basis ∧
      (a.merge i m).pool = p ∧ (a.merge i m).states.size = a.states.size ∧
      ∀ j, (a.merge i m).states[j]? =
        if i = j then some { s with kernel := m', complete := s.complete && !grown }
        else a.states[j]? := by
  have hfold (es : List (Item × Handle)) (hes : ∀ e ∈ es, e.2 < a.pool.size) :
      ∃ p m' grown, es.foldl (mergeItem i) (a, false) = (a.withKernel i p m', grown) ∧
        a.Merged s.kernel es p m' grown := by
    induction es using List.reverseRecOn with
    | nil =>
      refine ⟨a.pool, s.kernel, false, by simp [withKernel_self hs], .refl _, rfl, hc.lt,
        fun k h hh => ⟨h, hh, fun t ht => ht⟩, by simp, fun k h hh t ht => Or.inl ⟨h, hh, ht⟩,
        fun _ => ⟨rfl, rfl⟩, by simp⟩
    | append_singleton es e ih =>
      obtain ⟨p, m', grown, heq, hmg⟩ := ih fun e' he' => hes e' (by simp [he'])
      obtain ⟨p', m'', grown', heq', hmg'⟩ := hmg.step hs (hes e (by simp))
      exact ⟨p', m'', grown', by rw [List.foldl_append, heq]; exact heq', hmg'⟩
  obtain ⟨p, m', grown, heq, hmg⟩ := hfold m.entries fun e he =>
    hm.lt e.1 e.2 (SortedMap.find?_eq_some_iff.2 he)
  refine ⟨p, m', grown, hmg, ?_⟩
  unfold merge
  rw [heq]
  cases grown with
  | true =>
    refine ⟨rfl, rfl, by simp [withKernel], fun j => ?_⟩
    simp only [if_true, states_update, withKernel]
    by_cases hij : i = j
    · subst hij
      simp [hs]
    · simp [hij]
  | false =>
    refine ⟨rfl, rfl, by simp [withKernel], fun j => ?_⟩
    simp only [Bool.false_eq_true, if_false, withKernel, states_update]
    by_cases hij : i = j
    · subst hij
      simp [hs]
    · simp [hij]

/-- **What merging does**: the sets flow into those of the state. -/
theorem merge_spec (hs : a.states[i]? = some s) (hc : a.Covered) (hm : a.Covers m)
    (hl : a.strength = .lalr) :
    a.Continues (a.merge i m) ∧ (a.merge i m).Covered ∧
      (a.merge i m).states.size = a.states.size ∧
      ∃ s', (a.merge i m).states[i]? = some s' ∧ ∀ k h h', m.find? k = some h →
        s'.kernel.find? k = some h' → ∀ t ∈ (a.set h).keys, t ∈ ((a.merge i m).set h').keys := by
  obtain ⟨_, m', grown, hmg, hbasis, rfl, hsize, hstates⟩ := merge_eq hs (hc i s hs) hm
  have hi := hstates i
  rw [if_pos rfl] at hi
  refine ⟨⟨hbasis, hmg.pool, fun j t ht => ?_⟩, fun j t ht => ?_, hsize, _, hi, ?_⟩
  · by_cases hij : i = j
    · subst hij
      obtain rfl := Option.some.inj (ht.symm.trans hs)
      exact ⟨_, hi, hmg.waits hl⟩
    · exact ⟨t, by simp [hstates, hij, ht], .refl (hc j t ht) hmg.pool⟩
  · rw [hstates] at ht
    split at ht
    · obtain rfl := Option.some.inj ht
      exact hmg.covers hbasis (hc i s hs) hm
    · exact (hc j t ht).extends hbasis hmg.pool
  · intro k h h' hh hh' t ht
    exact hmg.merged (k, h) (SortedMap.find?_eq_some_iff.1 hh) h' hh' t ht

/-! ## Adding a state -/

/-- An automaton after the state of a kernel was looked for, and made if there was none. -/
structure Added (a : Automaton) (m : ItemMap Handle) (i : Nat) (b : Automaton) : Prop where
  continues : a.Continues b
  covered : b.Covered
  found : ∃ s, b.states[i]? = some s ∧ KernelGrows a b m s.kernel
  /-- A new state comes last, and has a kernel that no other state has. -/
  fresh : ∀ (j : Nat) (s : State), b.states[j]? = some s → j < a.states.size ∨
    s = { kernel := m } ∧ ∀ (j' : Nat) (s' : State), b.states[j']? = some s' →
      sameState a.strength m s' = true → j' = j

theorem sameState_spec (h : sameState a.strength m s = true) :
    s.kernel.keys = m.keys ∧ (a.strength = .lr1 → s.kernel.entries = m.entries) := by
  unfold sameState at h
  by_cases hl : a.strength = .lr1
  · have he := of_decide_eq_true (by simpa only [hl, if_true] using h)
    exact ⟨by rw [SortedMap.keys, he]; rfl, fun _ => he⟩
  · exact ⟨of_decide_eq_true (by simpa only [hl, if_false] using h), fun h => absurd h hl⟩

/-- Outside `LALR` the sets of two kernels of one state are the same. -/
theorem KernelGrows.of_sameState (h : sameState a.strength m s = true) (hm : a.Covers m)
    (hl : a.strength ≠ .lalr) : KernelGrows a a m s.kernel := by
  obtain ⟨hkeys, hentries⟩ := sameState_spec h
  refine ⟨hkeys, fun k h hh => ?_⟩
  by_cases hlr : a.strength = .lr1
  · refine ⟨h, ?_, fun t ht => ht⟩
    rw [SortedMap.find?_eq_some_iff] at hh ⊢
    rwa [hentries hlr]
  · -- without lookahead the sets are empty
    have hmem : k ∈ s.kernel.keys := hkeys ▸ SortedMap.mem_keys_of_find? hh
    obtain ⟨h', hh'⟩ := SortedMap.exists_find?_of_mem_keys hmem
    refine ⟨h', hh', fun t ht => ?_⟩
    have hu := hm.plain k h hh t ht
    cases hst : a.strength <;> simp_all [Strength.usesLookahead, Strength.rank]

/-- There is a state of the kernel already, into which the sets are merged. -/
theorem added_merge (hc : a.Covered) (hm : a.Covers m) (hs : a.states[i]? = some s)
    (hsame : sameState a.strength m s = true) (hl : a.strength = .lalr) :
    a.Added m i (a.merge i m) := by
  obtain ⟨hcont, hcov, hsize, s', hs', hflow⟩ := merge_spec hs hc hm hl
  obtain ⟨s'', hs'', hw⟩ := hcont.states i s hs
  obtain rfl := Option.some.inj (hs'.symm.trans hs'')
  have hk : s'.kernel.keys = m.keys := hw.grows.keys.trans (sameState_spec hsame).1
  refine ⟨hcont, hcov, ⟨s', hs', hk, fun k h hh => ?_⟩, fun j t ht => Or.inl ?_⟩
  · have hmem : k ∈ s'.kernel.keys := hk ▸ SortedMap.mem_keys_of_find? hh
    obtain ⟨h', hh'⟩ := SortedMap.exists_find?_of_mem_keys hmem
    exact ⟨h', hh', hflow k h h' hh hh'⟩
  · rw [← hsize]
    exact (Array.getElem?_eq_some_iff.1 ht).1

/-- There is no state of the kernel, and a new one comes last. -/
theorem added_push (hc : a.Covered) (hm : a.Covers m)
    (hnone : ∀ s ∈ a.states, sameState a.strength m s = false) :
    a.Added m a.states.size { a with states := a.states.push { kernel := m } } := by
  have hget {j : Nat} {t : State} (ht : a.states[j]? = some t) :
      (a.states.push { kernel := m })[j]? = some t := by
    obtain ⟨hlt, -⟩ := Array.getElem?_eq_some_iff.1 ht
    rw [Array.getElem?_push_lt hlt, ← Array.getElem?_eq_getElem hlt, ht]
  have hpush {j : Nat} {t : State} (ht : (a.states.push { kernel := m })[j]? = some t) :
      a.states[j]? = some t ∨ j = a.states.size ∧ t = { kernel := m } := by
    rw [Array.getElem?_push] at ht
    split at ht
    · exact Or.inr ⟨by assumption, (Option.some.inj ht).symm⟩
    · exact Or.inl ht
  refine ⟨⟨rfl, .refl _, fun j t ht => ⟨t, hget ht, .refl (hc j t ht) (.refl _)⟩⟩,
    fun j t ht => ?_, ⟨{ kernel := m }, by simp, rfl, fun k h hh => ⟨h, hh, fun _ ht => ht⟩⟩,
    fun j t ht => ?_⟩
  · rcases hpush ht with ht | ⟨-, rfl⟩
    · exact ⟨(hc j t ht).lt, (hc j t ht).within, (hc j t ht).plain⟩
    · exact ⟨hm.lt, hm.within, hm.plain⟩
  · rcases hpush ht with ht | ⟨rfl, rfl⟩
    · exact Or.inl (Array.getElem?_eq_some_iff.1 ht).1
    · refine Or.inr ⟨rfl, fun j' t' ht' hsame => ?_⟩
      rcases hpush ht' with ht' | ⟨h, -⟩
      · have := hnone t' (Array.mem_of_getElem? ht')
        rw [hsame] at this
        cases this
      · exact h

/-- **What adding a state does**: there is one of the kernel afterwards, with at least its
    sets. -/
theorem addState_spec (hc : a.Covered) (hm : a.Covers m) :
    a.Added m (a.addState m).1 (a.addState m).2 := by
  unfold addState
  split
  · rename_i i hi
    obtain ⟨hlt, hsame, -⟩ := Array.findIdx?_eq_some_iff_getElem.1 hi
    have hs := Array.getElem?_eq_getElem hlt
    dsimp only
    split
    · rename_i hl
      exact added_merge hc hm hs hsame hl
    · rename_i hl
      exact ⟨⟨rfl, .refl _, fun j t ht => ⟨t, ht, .refl (hc j t ht) (.refl _)⟩⟩, hc,
        ⟨_, hs, .of_sameState hsame hm hl⟩, fun j t ht => Or.inl (Array.getElem?_eq_some_iff.1 ht).1⟩
  · rename_i hnone
    exact added_push hc hm fun s hs => by simpa using Array.findIdx?_eq_none_iff.1 hnone s hs

end Automaton

end LayoutLR
