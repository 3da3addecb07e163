/-
  Layout-aware LR toolkit — merged lookahead sets.

  Lookahead sets are the least ones that have what begins behind an item, what is
  passed on in a closure, and what is carried along a transition.  At `LALR` sets
  flow into the one state of a kernel until nothing changes, at `LR1` each way to
  a kernel has its own state; the sets of all states of a kernel together are the
  same least ones.

  * `Automaton.setOf`: the lookahead set of an item;
  * `Automaton.Propagates`: sets that have all that flows into them;
  * `Automaton.bounded_build`: an automaton has nothing beyond such sets;
  * `merged_lookahead`: the sets at `LALR` are the union of those at `LR1`.
-/
import LayoutLR.Proofs.Automaton.Lookahead
import LayoutLR.Proofs.Automaton.Strengths

namespace LayoutLR

namespace Automaton

variable {a b : Automaton} {g : Grammar} {strength strength' : Strength} {q t : Nat} {s : State}
  {m : ItemMap Handle} {i : Item} {L : List Item → Item → Nat → Prop}

/-- The lookahead set of an item, empty if the item is not there. -/
def setOf (a : Automaton) (m : ItemMap Handle) (i : Item) : SymSet :=
  ((m.find? i).map a.set).getD ∅

theorem mem_setOf : t ∈ (a.setOf m i).keys ↔ ∃ h, m.find? i = some h ∧ t ∈ (a.set h).keys := by
  unfold setOf
  cases m.find? i <;> simp

theorem mem_setOf_iff_items :
    t ∈ (a.setOf m i).keys ↔ ∃ set, (i, set) ∈ a.items m ∧ t ∈ set.keys := by
  rw [mem_setOf]
  constructor
  · rintro ⟨h, hh, ht⟩
    exact ⟨a.set h, mem_items.2 ⟨h, hh, rfl⟩, ht⟩
  · rintro ⟨set, hset, ht⟩
    obtain ⟨h, hh, rfl⟩ := mem_items.1 hset
    exact ⟨h, hh, ht⟩

/-! ## Sets that have all that flows into them -/

/-- Sets for the items of kernels that can be reached: they have what begins behind an item,
    what is passed on to the items that come with it, and what a transition carries along. -/
structure Propagates (b : Basis) (L : List Item → Item → Nat → Prop) : Prop where
  opens : ∀ k i p t, Reached b.grammar k → i.ComesWith b.grammar k →
    p < b.grammar.productions.size → i.next? b.grammar = some (b.grammar.head p) →
    b.grammar.isNonterminal (b.grammar.head p) = true → b.Opens i (b.grammar.head p) t →
    L k ⟨p, 0⟩ t
  passes : ∀ k i p t, L k i t → p < b.grammar.productions.size →
    i.next? b.grammar = some (b.grammar.head p) →
    b.grammar.isNonterminal (b.grammar.head p) = true → b.Passes i (b.grammar.head p) t →
    L k ⟨p, 0⟩ t
  carries : ∀ k i sym t, L k i t → sym ∈ shifts b.grammar (bareClosure b.grammar k).keys →
    i.next? b.grammar = some sym →
      L (target b.grammar (bareClosure b.grammar k) sym).keys i.advance t

/-- What may come after the items that come with a kernel is within such sets if the sets of the
    kernel are. -/
theorem Propagates.announces {basis : Basis} (hL : Propagates basis L)
    {kernel : List (Item × SymSet)} (hr : Reached basis.grammar (kernel.map Prod.fst))
    (hk : ∀ e ∈ kernel, ∀ t ∈ e.2.keys, L (kernel.map Prod.fst) e.1 t)
    (h : basis.Announces kernel i t) : L (kernel.map Prod.fst) i t := by
  induction h with
  | kernel he ht => exact hk _ he _ ht
  | opens hi hp hnext hnt ht => exact hL.opens _ _ _ _ hr hi hp hnext hnt ht
  | passes _ hp hnext hnt ht ih => exact hL.passes _ _ _ _ ih hp hnext hnt ht

/-- The sets of all kernels are within the given ones. -/
def Bounded (L : List Item → Item → Nat → Prop) (a : Automaton) : Prop :=
  ∀ (q : Nat) (s : State), a.states[q]? = some s →
    ∀ i, ∀ t ∈ (a.setOf s.kernel i).keys, L s.kernel.keys i t

theorem setOf_eq (hc : a.Covers m) (hp : a.pool.Extends b.pool) (i : Item) :
    b.setOf m i = a.setOf m i := by
  unfold setOf
  cases hi : m.find? i with
  | none => rfl
  | some h => exact set_eq hp (hc.lt i h hi)

theorem Bounded.congr (h : a.Bounded L) (hc : a.Covered) (hk : a.SameKernels b)
    (hp : a.pool.Extends b.pool) : b.Bounded L := by
  intro q s' hs' i t ht
  obtain ⟨s, hs, heq⟩ := hk.get hs'
  rw [heq, setOf_eq (hc q s hs) hp] at ht
  rw [heq]
  exact h q s hs i t ht

theorem Bounded.merge (h : a.Bounded L) (hc : a.Covered) (hm : a.Covers m)
    (hs : a.states[q]? = some s) (hkeys : s.kernel.keys = m.keys)
    (hbound : ∀ i, ∀ t ∈ (a.setOf m i).keys, L m.keys i t) : (a.merge q m).Bounded L := by
  obtain ⟨p, m', grown, hmg, -, hpool, -, hstates⟩ := merge_eq hs (hc q s hs) hm
  intro j s' hs' i t ht
  rw [hstates] at hs'
  split at hs'
  · -- a symbol of the merged set comes from either side
    obtain rfl := Option.some.inj hs'
    obtain ⟨x, hx, htx⟩ := mem_setOf.1 ht
    rw [set, hpool] at htx
    dsimp only at hx ⊢
    rw [hmg.keys]
    rcases hmg.origin i x hx t htx with ⟨y, hy, hty⟩ | ⟨e, he, rfl, hte⟩
    · exact h q s hs i t (mem_setOf.2 ⟨y, hy, hty⟩)
    · rw [hkeys]
      exact hbound e.1 t (mem_setOf.2 ⟨e.2, SortedMap.find?_eq_some_iff.2 he, hte⟩)
  · rw [setOf_eq (hc j s' hs') (hpool ▸ hmg.pool)] at ht
    exact h j s' hs' i t ht

theorem Bounded.addState (h : a.Bounded L) (hc : a.Covered) (hm : a.Covers m)
    (hbound : ∀ i, ∀ t ∈ (a.setOf m i).keys, L m.keys i t) : (a.addState m).2.Bounded L := by
  unfold Automaton.addState
  split
  · rename_i q hq
    obtain ⟨hlt, hsame, -⟩ := Array.findIdx?_eq_some_iff_getElem.1 hq
    dsimp only
    split
    · exact h.merge hc hm (Array.getElem?_eq_getElem hlt) (sameState_spec hsame).1 hbound
    · exact h
  · intro j s hs i t ht
    dsimp only at hs
    rw [Array.getElem?_push] at hs
    split at hs
    · obtain rfl := Option.some.inj hs
      exact hbound i t ht
    · exact h j s hs i t ht

/-- Processing a state puts nothing beyond the given sets. -/
theorem Bounded.process (hL : Propagates (.of g strength) L) (h : a.Bounded L)
    (hs : a.Shaped g strength) (hq : a.states[q]? = some s) (hr : Reached g s.kernel.keys) :
    (a.process q).Bounded L := by
  obtain ⟨hx, hcov, hcl⟩ := hs.closureOf hq
  have hkeys := hs.keys_closureOf hq
  rw [hs.basis] at hcl
  -- the sets of the closure are within the given ones
  have hclosure (i : Item) (t : Nat) (ht : t ∈ ((a.marked q s).setOf (a.closureOf s).1 i).keys) :
      L s.kernel.keys i t := by
    obtain ⟨set, hset, ht⟩ := mem_setOf_iff_items.1 ht
    have hannounced := (hcl.mem_set_iff hset).1 ht
    rw [← items_keys a s.kernel] at hr ⊢
    refine hL.announces hr ?_ hannounced
    intro e he t ht
    rw [items_keys]
    exact h q s hq e.1 t (mem_setOf_iff_items.2 ⟨e.2, he, ht⟩)
  refine hs.process_induction (P := fun _ b => b.Bounded L) hq h ?_ ?_
  · intro _ b c hb hsame _ hp hbound
    exact hbound.congr hb hsame hp
  · intro _ sym b hsym hcont hb hcovers hbound
    refine hbound.addState hb.covered hcovers ?_
    intro i t ht
    obtain ⟨x, hfind, htx⟩ := mem_setOf.1 ht
    obtain ⟨k, hk, hnext, rfl⟩ := find?_target.1 hfind
    rw [set_eq hcont.pool (hcov.lt k x hk)] at htx
    rw [keys_target hkeys]
    rw [hkeys] at hsym
    exact hL.carries _ k sym t (hclosure k t (mem_setOf.2 ⟨x, hk, htx⟩)) hsym hnext

theorem completeAll_bounded (hL : Propagates (.of g strength) L) : ∀ (n : Nat) (a : Automaton),
    a.Sound g strength → (∀ k ∈ a.kernels, Reached g k) → a.Bounded L → (completeAll n a).Bounded L
  | 0, _, _, _, h => h
  | n + 1, a, hs, hr, h => by
    unfold completeAll
    split
    · exact h
    · rename_i q hq
      obtain ⟨hlt, -, -⟩ := Array.findIdx?_eq_some_iff_getElem.1 hq
      have hget := Array.getElem?_eq_getElem hlt
      have hreached := hr _ (mem_kernels.2 ⟨q, _, hget, rfl⟩)
      refine completeAll_bounded hL n _ (process_sound hs hget) ?_
        (h.process hL hs.toShaped hget hreached)
      intro k hk
      rcases (mem_kernels_process hs.toShaped hget).1 hk with hk | hk
      · exact hr k hk
      · exact .step hreached hk

theorem initial_bounded (basis : Basis) : (initial basis).Bounded L := by
  intro q s hs i t ht
  rw [initial_eq] at hs ht
  obtain ⟨hlt, rfl⟩ := Array.getElem?_eq_some_iff.1 hs
  obtain rfl : q = 0 := by simpa using hlt
  obtain ⟨h, hh, ht⟩ := mem_setOf.1 ht
  obtain ⟨-, rfl⟩ := find?_startKernel hh
  simp [set] at ht

/-- **An automaton has nothing beyond sets that have all that flows into them.** -/
theorem bounded_build (hindexed : g.Indexed) (hL : Propagates (.of g strength) L)
    (hs : (build g strength).states[q]? = some s)
    (ht : t ∈ ((build g strength).setOf s.closure i).keys) : L s.kernel.keys i t := by
  have hsound := build_sound hindexed strength
  have hbound : (build g strength).Bounded L := by
    refine completeAll_bounded hL _ _ (initial_sound hindexed strength) ?_ (initial_bounded _)
    intro k hk
    rw [kernels_initial, List.mem_singleton] at hk
    exact hk ▸ .start
  have hcl := (build_processed hindexed hs).isClosure (build_complete hindexed hs)
  rw [hsound.basis] at hcl
  obtain ⟨set, hset, ht⟩ := mem_setOf_iff_items.1 ht
  have hr : Reached g s.kernel.keys :=
    (mem_kernels_build hindexed).1 (mem_kernels.2 ⟨q, s, hs, rfl⟩)
  have hannounced := (hcl.mem_set_iff hset).1 ht
  rw [← items_keys (build g strength) s.kernel] at hr ⊢
  refine hL.announces hr ?_ hannounced
  intro e he t ht
  rw [items_keys]
  exact hbound q s hs e.1 t (mem_setOf_iff_items.2 ⟨e.2, he, ht⟩)

/-! ## The sets of a complete automaton -/

/-- Whether a symbol is in the set of an item, in some state of a kernel. -/
def Foresees (a : Automaton) (k : List Item) (i : Item) (t : Nat) : Prop :=
  ∃ (q : Nat) (s : State), a.states[q]? = some s ∧ s.kernel.keys = k ∧
    t ∈ (a.setOf s.closure i).keys

theorem first_of_usesLookahead (g : Grammar) (hl : strength.usesLookahead = true) :
    (Basis.of g strength).first = g.firstSets := by
  refine Basis.first_of ?_ g
  cases strength <;> simp_all [Strength.usesLookahead, Strength.rank, Strength.LooksAhead]

/-- With lookahead of their own, items are given the same lookahead at every strength. -/
theorem mem_lookahead_of (g : Grammar) (hl : strength.usesLookahead = true)
    (hl' : strength'.usesLookahead = true) {sym : Nat} {set : SymSet}
    (ht : t ∈ ((Basis.of g strength).lookahead i sym set).keys) :
    t ∈ ((Basis.of g strength').lookahead i sym set).keys := by
  obtain ⟨-, hnext, hline⟩ := Basis.mem_lookahead.1 ht
  rw [first_of_usesLookahead g hl] at hnext
  refine Basis.mem_lookahead.2 ⟨hl', ?_, hline⟩
  rw [first_of_usesLookahead g hl']
  exact hnext

/-- What flows within an automaton stays within the sets of another one. -/
theorem foresees_propagates (hindexed : g.Indexed) (hl : strength.usesLookahead = true)
    (hl' : strength'.usesLookahead = true) :
    Propagates (.of g strength) (build g strength').Foresees := by
  have hsound := build_sound hindexed strength'
  -- what an item waits for has its lookahead in the closure
  have hclosed {q : Nat} {s : State} (hs : (build g strength').states[q]? = some s) {i : Item}
      {set : SymSet} (hi : (i, set) ∈ (build g strength').items s.closure) {p : Nat}
      (hp : p < g.productions.size) (hnext : i.next? g = some (g.head p))
      (hnt : g.isNonterminal (g.head p) = true) {t : Nat}
      (ht : t ∈ ((Basis.of g strength').lookahead i (g.head p) set).keys) :
      (build g strength').Foresees s.kernel.keys ⟨p, 0⟩ t := by
    have hcl := (build_processed hindexed hs).isClosure (build_complete hindexed hs)
    rw [hsound.basis] at hcl
    obtain ⟨set', hset', hsub⟩ := hcl.closed i set hi p hp hnext hnt
    exact ⟨q, s, hs, rfl, mem_setOf_iff_items.2 ⟨set', hset', hsub t ht⟩⟩
  constructor
  · intro k i p t hr hi hp hnext hnt ht
    obtain ⟨q, s, hs, rfl⟩ := mem_kernels.1 ((mem_kernels_build hindexed).2 hr)
    have hmem : i ∈ s.closure.keys := by
      rw [hsound.keys_closure (build_processed hindexed hs)]
      exact (mem_bareClosure hindexed s.kernel.keys_nodup).2 hi
    obtain ⟨x, hx⟩ := SortedMap.exists_find?_of_mem_keys hmem
    refine hclosed hs (mem_items.2 ⟨x, hx, rfl⟩) hp hnext hnt ?_
    exact Basis.mem_lookahead_iff.2 (Or.inl (mem_lookahead_of g hl hl' ht))
  · rintro k i p t ⟨q, s, hs, rfl, hmem⟩ hp hnext hnt ht
    obtain ⟨set, hset, hmem⟩ := mem_setOf_iff_items.1 hmem
    refine hclosed hs hset hp hnext hnt ?_
    exact Basis.mem_lookahead_iff.2 (Or.inr ⟨mem_lookahead_of g hl hl' ht, hmem⟩)
  · rintro k i sym t ⟨q, s, hs, rfl, hmem⟩ hsym hnext
    have hp := build_processed hindexed hs
    obtain ⟨x, hx, ht⟩ := mem_setOf.1 hmem
    obtain ⟨j, hj⟩ := SortedMap.exists_find?_of_mem_keys ((hsound.mem_goTo hp).2 hsym)
    obtain ⟨s', hs', hgrows⟩ := hp.edges sym j hj
    rw [hsound.grammar_eq] at hgrows
    obtain ⟨y, hy, hsub⟩ := hgrows.sets i.advance x (find?_target.2 ⟨i, hx, hnext, rfl⟩)
    obtain ⟨z, hz, hsub'⟩ := (build_processed hindexed hs').find?_kernel (build_complete hindexed hs') hy
    exact ⟨j, s', hs', hgrows.keys.trans (keys_target (hsound.keys_closure hp) sym),
      mem_setOf.2 ⟨z, hz, hsub' t (hsub t ht)⟩⟩

/-- **With lookahead, the states of a kernel have the same sets together** at every strength. -/
theorem foresees_iff (hindexed : g.Indexed) (hl : strength.usesLookahead = true)
    (hl' : strength'.usesLookahead = true) {k : List Item} :
    (build g strength).Foresees k i t ↔ (build g strength').Foresees k i t := by
  constructor
  · rintro ⟨q, s, hs, rfl, ht⟩
    exact bounded_build hindexed (foresees_propagates hindexed hl hl') hs ht
  · rintro ⟨q, s, hs, rfl, ht⟩
    exact bounded_build hindexed (foresees_propagates hindexed hl' hl) hs ht

/-- Where a kernel has one state, its sets are those of all states of the kernel. -/
theorem mem_setOf_build (hindexed : g.Indexed) (hl : strength ≠ .lr1)
    (hs : (build g strength).states[q]? = some s) :
    t ∈ ((build g strength).setOf s.closure i).keys ↔
      (build g strength).Foresees s.kernel.keys i t := by
  constructor
  · intro ht
    exact ⟨q, s, hs, rfl, ht⟩
  · rintro ⟨q', s', hs', hk, ht⟩
    have hsame : sameState strength s'.kernel s = true := by
      simp [sameState, hl, hk]
    obtain rfl := (build_sound hindexed strength).distinct q' q s' s hs' hs hsame
    obtain rfl := Option.some.inj (hs.symm.trans hs')
    exact ht

/-- Nothing is added to the set of a kernel item: nothing waits for the start production. -/
theorem setOf_kernel (hg : g.WellFormed) (hs : (build g strength).states[q]? = some s)
    (hi : i ∈ s.kernel.keys) :
    t ∈ ((build g strength).setOf s.closure i).keys ↔
      t ∈ ((build g strength).setOf s.kernel i).keys := by
  have hsound := build_sound hg.indexed strength
  have hp := build_processed hg.indexed hs
  have hc := build_complete hg.indexed hs
  have hcl := hp.isClosure hc
  rw [hsound.basis] at hcl
  -- a kernel item that is waited for would be the start item
  have hwaited {j : Item} {p : Nat} (hi : (⟨p, 0⟩ : Item) ∈ s.kernel.keys)
      (hnext : j.next? g = some (g.head p)) : False := by
    obtain ⟨-, rfl⟩ := hsound.kernel_dot hs hi
    exact hg.start j.prod (List.mem_of_getElem? hnext)
  constructor
  · intro ht
    obtain ⟨set, hset, ht⟩ := mem_setOf_iff_items.1 ht
    have hannounced := (hcl.mem_set_iff hset).1 ht
    cases hannounced with
    | kernel he ht => exact mem_setOf_iff_items.2 ⟨_, he, ht⟩
    | opens _ _ hnext _ _ => exact (hwaited hi hnext).elim
    | passes _ _ hnext _ _ => exact (hwaited hi hnext).elim
  · intro ht
    obtain ⟨x, hx, ht⟩ := mem_setOf.1 ht
    obtain ⟨y, hy, hsub⟩ := hp.find?_kernel hc hx
    exact mem_setOf.2 ⟨y, hy, hsub t ht⟩

end Automaton

open Automaton in
/-- **Lookahead sets at `LALR` are the merged ones of `LR1`**: the set of an item in a state is
    the union of its sets in the `LR1` states of the same kernel, in closures as in kernels. -/
theorem merged_lookahead {code : List CodeNode} {g : Grammar} (h : Grammar.read code = .ok g)
    {q : Nat} {s : State} (hs : (build g .lalr).states[q]? = some s) (i : Item) (t : Nat) :
    (t ∈ ((build g .lalr).setOf s.closure i).keys ↔
      ∃ s' ∈ (build g .lr1).states, s'.kernel.keys = s.kernel.keys ∧
        t ∈ ((build g .lr1).setOf s'.closure i).keys) ∧
    (t ∈ ((build g .lalr).setOf s.kernel i).keys ↔
      ∃ s' ∈ (build g .lr1).states, s'.kernel.keys = s.kernel.keys ∧
        t ∈ ((build g .lr1).setOf s'.kernel i).keys) := by
  have hg := Grammar.read_wellFormed h
  have hclosure : t ∈ ((build g .lalr).setOf s.closure i).keys ↔
      ∃ s' ∈ (build g .lr1).states, s'.kernel.keys = s.kernel.keys ∧
        t ∈ ((build g .lr1).setOf s'.closure i).keys := by
    have hiff : (build g .lalr).Foresees s.kernel.keys i t ↔
        (build g .lr1).Foresees s.kernel.keys i t := foresees_iff hg.indexed rfl rfl
    rw [mem_setOf_build hg.indexed (by decide) hs, hiff]
    simp only [Foresees, Array.mem_iff_getElem?]
    grind
  refine ⟨hclosure, ?_⟩
  by_cases hi : i ∈ s.kernel.keys
  · rw [← setOf_kernel hg hs hi, hclosure]
    constructor
    · rintro ⟨s', hs', hk, ht⟩
      obtain ⟨q', hq'⟩ := Array.mem_iff_getElem?.1 hs'
      exact ⟨s', hs', hk, (setOf_kernel hg hq' (hk ▸ hi)).1 ht⟩
    · rintro ⟨s', hs', hk, ht⟩
      obtain ⟨q', hq'⟩ := Array.mem_iff_getElem?.1 hs'
      exact ⟨s', hs', hk, (setOf_kernel hg hq' (hk ▸ hi)).2 ht⟩
  · constructor
    · intro ht
      obtain ⟨x, hx, -⟩ := mem_setOf.1 ht
      exact absurd (SortedMap.mem_keys_of_find? hx) hi
    · rintro ⟨s', -, hk, ht⟩
      obtain ⟨x, hx, -⟩ := mem_setOf.1 ht
      exact absurd (hk ▸ SortedMap.mem_keys_of_find? hx) hi

open Automaton in
set_option maxRecDepth 100000 in
/-- A number and a string may come after the first head, each from a state of its own. -/
theorem merged_lookahead_crossedEndings : ∃ g s, Grammar.readText crossedEndings = .ok g ∧
    (build g .lalr).states[4]? = some s ∧
    (∃ s' ∈ (build g .lr1).states, s'.kernel.keys = s.kernel.keys ∧
      Kind.number.num ∈ ((build g .lr1).setOf s'.closure ⟨5, 1⟩).keys) ∧
    (∃ s' ∈ (build g .lr1).states, s'.kernel.keys = s.kernel.keys ∧
      Kind.string.num ∈ ((build g .lr1).setOf s'.kernel ⟨5, 1⟩).keys) ∧
    ∀ s' ∈ (build g .lr1).states, ((build g .lr1).setOf s'.closure ⟨5, 1⟩).size ≤ 1 := by
  obtain ⟨g, hg, htest⟩ := Grammar.exists_readText crossedEndings (fun g =>
    ((build g .lalr).states[4]?.any fun s =>
      ((build g .lalr).setOf s.closure ⟨5, 1⟩).contains Kind.number.num &&
      ((build g .lalr).setOf s.kernel ⟨5, 1⟩).contains Kind.string.num) &&
    (build g .lr1).states.all fun s => decide (((build g .lr1).setOf s.closure ⟨5, 1⟩).size ≤ 1))
    (by decide +kernel)
  rw [Bool.and_eq_true, Option.any_eq_true, Array.all_eq_true'] at htest
  obtain ⟨⟨s, hs, hsets⟩, hsmall⟩ := htest
  rw [Bool.and_eq_true, SortedMap.contains_iff, SortedMap.contains_iff] at hsets
  refine ⟨g, s, hg, hs, (merged_lookahead hg hs _ _).1.1 hsets.1,
    (merged_lookahead hg hs _ _).2.1 hsets.2, ?_⟩
  intro s' hs'
  exact of_decide_eq_true (hsmall s' hs')

end LayoutLR
