/-
  Layout-aware LR toolkit — what the states of an automaton are.

  Processing a state makes its closure, its reduction and its transitions; the
  kernel behind a transition has the items with the dot behind the symbol, with at
  least their lookahead sets.  Later steps may enlarge the sets of a kernel, but
  then the state is not complete and is processed again.

  * `Automaton.Processed`: a state that has been processed, and what it is then;
  * `Automaton.Shaped`: the kernels of the states;
  * `Automaton.Sound`: both, for all states;
  * `Automaton.process_sound`, `Automaton.build_sound`: sound after each step, and in the end.
-/
import LayoutLR.Proofs.Automaton.States

namespace LayoutLR

namespace Automaton

variable {a b c : Automaton} {g : Grammar} {strength : Strength} {i j : Nat} {s s' : State}
  {m closure : ItemMap Handle}

/-! ## Closures in the pool -/

theorem internItems_append (items : List (Item × SymSet)) (e : Item × SymSet) (pool : Pool) :
    internItems (items ++ [e]) pool =
      ((internItems items pool).1.insert e.1 ((internItems items pool).2.intern e.2).1,
        ((internItems items pool).2.intern e.2).2) := by
  simp [internItems, List.foldl_append]

/-- Every set is found again by its handle. -/
theorem internItems_spec {items : List (Item × SymSet)} (hn : (items.map Prod.fst).Nodup)
    (pool : Pool) :
    pool.Extends (internItems items pool).2 ∧
      (∀ k h, (internItems items pool).1.find? k = some h → h < (internItems items pool).2.size) ∧
      ∀ k set, (k, set) ∈ items ↔ ∃ h, (internItems items pool).1.find? k = some h ∧
        (internItems items pool).2.get h = set := by
  induction items using List.reverseRecOn with
  | nil => simp [internItems, Pool.Extends.refl]
  | append_singleton items e ih =>
    rw [List.map_append, List.map_singleton] at hn
    obtain ⟨hn', -, hdisj⟩ := List.nodup_append.1 hn
    obtain ⟨hx, hlt, hmem⟩ := ih hn'
    have hx' := (internItems items pool).2.intern_extends e.2
    have hget := (internItems items pool).2.get_intern e.2
    have hnew : e.1 ∉ (internItems items pool).1.keys := by
      intro hk
      obtain ⟨h, hh⟩ := SortedMap.exists_find?_of_mem_keys hk
      have hold := (hmem e.1 ((internItems items pool).2.get h)).2 ⟨h, hh, rfl⟩
      exact hdisj e.1 (List.mem_map.2 ⟨_, hold, rfl⟩) e.1 (by simp) rfl
    have hfind (k : Item) (h : Handle) :
        ((internItems items pool).1.insert e.1 ((internItems items pool).2.intern e.2).1).find? k =
          some h ↔ (internItems items pool).1.find? k = some h ∨
            k = e.1 ∧ h = ((internItems items pool).2.intern e.2).1 := by
      simp only [SortedMap.find?_eq_some_iff, SortedMap.mem_entries_insert, hnew,
        not_false_eq_true, and_true]
    rw [internItems_append]
    refine ⟨hx.trans hx', fun k h hh => ?_, fun k set => ?_⟩
    · rcases (hfind k h).1 hh with hh | ⟨-, rfl⟩
      · exact hx'.lt (hlt k h hh)
      · exact (internItems items pool).2.intern_lt e.2
    · simp only [List.mem_append, List.mem_singleton, hmem, hfind]
      constructor
      · rintro (⟨h, hh, rfl⟩ | rfl)
        · exact ⟨h, Or.inl hh, hx'.get_eq h (hlt k h hh)⟩
        · exact ⟨_, Or.inr ⟨rfl, rfl⟩, hget⟩
      · rintro ⟨h, hh | ⟨rfl, rfl⟩, rfl⟩
        · exact Or.inl ⟨h, hh, (hx'.get_eq h (hlt k h hh)).symm⟩
        · exact Or.inr (by rw [hget])

/-! ## Transitions -/

theorem advance_inj {k k' : Item} (h : k.advance = k'.advance) : k = k' := by
  obtain ⟨p, d⟩ := k
  obtain ⟨p', d'⟩ := k'
  simpa [Item.advance] using h

/-- The kernel behind a transition: the items that wait for the symbol, with the dot behind
    it. -/
theorem find?_target {sym : Nat} {k : Item} {h : Handle} :
    (target g closure sym).find? k = some h ↔
      ∃ k', closure.find? k' = some h ∧ k'.next? g = some sym ∧ k = k'.advance := by
  have hn : (((closure.entries.filter fun e => e.1.next? g == some sym).map fun e =>
      (e.1.advance, e.2)).map Prod.fst).Nodup := by
    rw [List.map_map]
    have : (closure.entries.filter fun e => e.1.next? g == some sym).map
        (Prod.fst ∘ fun e => (e.1.advance, e.2)) =
        ((closure.entries.filter fun e => e.1.next? g == some sym).map Prod.fst).map
          Item.advance := by
      rw [List.map_map]
      rfl
    rw [this]
    refine List.Nodup.map (fun k k' => advance_inj) ?_
    exact (List.filter_sublist.map _).nodup closure.keys_nodup
  rw [SortedMap.find?_eq_some_iff, target, SortedMap.mem_entries_ofList hn]
  simp only [List.mem_map, List.mem_filter, beq_iff_eq, Prod.mk.injEq, SortedMap.find?_eq_some_iff]
  constructor
  · rintro ⟨⟨k', h'⟩, ⟨hm, hk⟩, rfl, rfl⟩
    exact ⟨k', hm, hk, rfl⟩
  · rintro ⟨k', hm, hk, rfl⟩
    exact ⟨(k', h), ⟨hm, hk⟩, rfl, rfl⟩

theorem mem_keys_target {sym : Nat} {k : Item} :
    k ∈ (target g closure sym).keys ↔
      ∃ k' ∈ closure.keys, k'.next? g = some sym ∧ k = k'.advance := by
  constructor
  · intro hk
    obtain ⟨h, hh⟩ := SortedMap.exists_find?_of_mem_keys hk
    obtain ⟨k', hk', hnext, rfl⟩ := find?_target.1 hh
    exact ⟨k', SortedMap.mem_keys_of_find? hk', hnext, rfl⟩
  · rintro ⟨k', hk', hnext, rfl⟩
    obtain ⟨h, hh⟩ := SortedMap.exists_find?_of_mem_keys hk'
    exact SortedMap.mem_keys_of_find? (find?_target.2 ⟨k', hh, hnext, rfl⟩)

theorem Covers.target (hc : a.Covers closure) (sym : Nat) : a.Covers (target g closure sym) := by
  refine ⟨fun k h hk => ?_, fun k h hk => ?_, fun k h hk => ?_⟩ <;>
    obtain ⟨k', hk', -, -⟩ := find?_target.1 hk
  · exact hc.lt k' h hk'
  · exact hc.within k' h hk'
  · exact hc.plain k' h hk'

theorem mem_nextSymbols {items : List Item} {sym : Nat} :
    sym ∈ nextSymbols g items ↔ ∃ k ∈ items, k.next? g = some sym := by
  simp [nextSymbols]

/-- The precedence of the production that is reduced after some items. -/
def reductionPrecedence (g : Grammar) (items : List Item) : Option Precedence :=
  (reduction g items).bind fun p => g.productions[p]?.bind Production.precedence

/-- The symbols with a transition. -/
def shifts (g : Grammar) (items : List Item) : List Nat :=
  (nextSymbols g items).filter fun sym => !suppressed g (reductionPrecedence g items) sym

/-! ## Kernels -/

/-- An item of a production of the grammar, or of the start production. -/
structure Valid (g : Grammar) (k : Item) : Prop where
  prod : k.prod < g.productions.size ∨ k.prod = 0
  dot : k.dot ≤ (g.body k.prod).length

theorem Valid.advance {k : Item} {sym : Nat} (h : Valid g k) (hnext : k.next? g = some sym) :
    Valid g k.advance := by
  refine ⟨h.prod, ?_⟩
  obtain ⟨hlt, -⟩ := List.getElem?_eq_some_iff.1 hnext
  exact hlt

/-- The kernels of an automaton in the making: the first is the start item alone, the others
    have the dot behind some symbol, and no two are the same. -/
structure Shaped (g : Grammar) (strength : Strength) (a : Automaton) : Prop where
  indexed : g.Indexed
  basis : a.basis = .of g strength
  covered : a.Covered
  start : ∃ s, a.states[0]? = some s ∧ s.kernel.keys = [⟨0, 0⟩]
  behind : ∀ (i : Nat) (s : State), a.states[i]? = some s → i ≠ 0 →
    s.kernel.keys ≠ [] ∧ ∀ k ∈ s.kernel.keys, 0 < k.dot
  valid : ∀ (i : Nat) (s : State), a.states[i]? = some s → ∀ k ∈ s.kernel.keys, Valid g k
  distinct : ∀ (i j : Nat) (s s' : State), a.states[i]? = some s → a.states[j]? = some s' →
    sameState strength s.kernel s' = true → i = j

theorem Shaped.grammar_eq (h : a.Shaped g strength) : a.grammar = g := by
  rw [grammar, h.basis]
  rfl

theorem Shaped.strength_eq (h : a.Shaped g strength) : a.strength = strength := by
  rw [Automaton.strength, h.basis]
  rfl

theorem sameState_comm (strength : Strength) (s s' : State) :
    sameState strength s.kernel s' = sameState strength s'.kernel s := by
  unfold sameState
  split <;> simp [eq_comm]

theorem Waits.sameState {t t' : State} (hl : a.strength = strength) (h : Waits a b s s')
    (h' : Waits a b t t') :
    sameState strength s'.kernel t' = sameState strength s.kernel t := by
  by_cases hlr : strength = .lr1
  · rw [h.still (by simp [hl, hlr]), h'.still (by simp [hl, hlr])]
  · simp only [Automaton.sameState, hlr, if_false, h.grows.keys, h'.grows.keys]

/-- A new state keeps the shape if its items have the dot behind some symbol. -/
theorem Shaped.added (h : a.Shaped g strength) (hadd : a.Added m i b) (hne : m.keys ≠ [])
    (hdot : ∀ k ∈ m.keys, 0 < k.dot) (hvalid : ∀ k ∈ m.keys, Valid g k) :
    b.Shaped g strength := by
  have hst : a.strength = strength := h.strength_eq
  -- a state afterwards is a state from before or the new one
  have hold (j : Nat) (t : State) (ht : b.states[j]? = some t) :
      (∃ t₀, a.states[j]? = some t₀ ∧ Waits a b t₀ t) ∨
      t = { kernel := m } ∧ j ≠ 0 ∧ ∀ (j' : Nat) (t' : State), b.states[j']? = some t' →
        sameState strength m t' = true → j' = j := by
    by_cases hlt : j < a.states.size
    · obtain ⟨t', ht', hw⟩ := hadd.continues.states j _ (Array.getElem?_eq_getElem hlt)
      obtain rfl := Option.some.inj (ht.symm.trans ht')
      exact Or.inl ⟨_, Array.getElem?_eq_getElem hlt, hw⟩
    · rcases hadd.fresh j t ht with hlt' | ⟨rfl, hsame⟩
      · exact absurd hlt' hlt
      · obtain ⟨s₀, hs₀, -⟩ := h.start
        have hpos := (Array.getElem?_eq_some_iff.1 hs₀).1
        exact Or.inr ⟨rfl, by omega, hst ▸ hsame⟩
  refine ⟨h.indexed, hadd.continues.basis.trans h.basis, hadd.covered, ?_, fun j t ht hj => ?_,
    fun j t ht => ?_, fun j j' t t' ht ht' hsame => ?_⟩
  · obtain ⟨s₀, hs₀, hk⟩ := h.start
    obtain ⟨s₁, hs₁, hw⟩ := hadd.continues.states 0 s₀ hs₀
    exact ⟨s₁, hs₁, hw.grows.keys.trans hk⟩
  · rcases hold j t ht with ⟨t₀, ht₀, hw⟩ | ⟨rfl, -, -⟩
    · rw [hw.grows.keys]
      exact h.behind j t₀ ht₀ hj
    · exact ⟨hne, hdot⟩
  · rcases hold j t ht with ⟨t₀, ht₀, hw⟩ | ⟨rfl, -, -⟩
    · rw [hw.grows.keys]
      exact h.valid j t₀ ht₀
    · exact hvalid
  · rcases hold j t ht with ⟨t₀, ht₀, hw⟩ | ⟨rfl, -, hnew⟩
    · rcases hold j' t' ht' with ⟨t₁, ht₁, hw'⟩ | ⟨rfl, -, hnew⟩
      · rw [hw.sameState hst hw'] at hsame
        exact h.distinct j j' t₀ t₁ ht₀ ht₁ hsame
      · rw [sameState_comm] at hsame
        exact hnew j t ht hsame
    · exact (hnew j' t' ht' hsame).symm

/-! ## Transitions of a state -/

/-- A state that was untouched and was not processed is untouched. -/
theorem Waits.untouched (h : Waits a b s s') (hs : s = { kernel := s.kernel }) :
    s' = { kernel := s'.kernel } := by
  have hcomplete : s'.complete = false := by
    cases hc : s'.complete with
    | false => rfl
    | true =>
      have e := h.same hc
      rw [e, hs] at hc
      cases hc
  rw [h.rest, hs, hcomplete]

/-- An automaton after transitions on some symbols were added. -/
structure Linked (g : Grammar) (strength : Strength) (a : Automaton) (closure : ItemMap Handle)
    (syms : List Nat) (b : Automaton) (goTo : SortedMap Nat Nat) : Prop where
  continues : a.Continues b
  shaped : b.Shaped g strength
  fresh : ∀ (j : Nat) (s : State), b.states[j]? = some s →
    j < a.states.size ∨ s = { kernel := s.kernel }
  keys : ∀ sym, sym ∈ goTo.keys ↔ sym ∈ syms
  edges : ∀ sym j, goTo.find? sym = some j →
    ∃ s, b.states[j]? = some s ∧ KernelGrows a b (target g closure sym) s.kernel

theorem Linked.addTransition {syms : List Nat} {goTo : SortedMap Nat Nat}
    (h : Linked g strength a closure syms b goTo) (hc : a.Covers closure)
    (hvalid : ∀ k ∈ closure.keys, Valid g k) {sym : Nat} (hsym : sym ∈ nextSymbols g closure.keys) :
    Linked g strength a closure (syms ++ [sym]) (addTransition closure (b, goTo) sym).1
      (addTransition closure (b, goTo) sym).2 := by
  have hg : b.grammar = g := h.shaped.grammar_eq
  have hcov : b.Covers (target g closure sym) :=
    (hc.target sym).extends h.continues.basis h.continues.pool
  have hadd := addState_spec h.shaped.covered hcov
  unfold Automaton.addTransition
  dsimp only
  rw [hg]
  generalize b.addState (target g closure sym) = r at hadd
  obtain ⟨i, c⟩ := r
  have hgrow (m : ItemMap Handle) (hm : a.Covers m) : KernelGrows a b m m :=
    .of_pool hm h.continues.pool
  refine ⟨h.continues.trans hadd.continues, ?_, fun j s hs => ?_, fun sym' => ?_,
    fun sym' j hj => ?_⟩
  · refine h.shaped.added hadd ?_ (fun k hk => ?_) (fun k hk => ?_)
    · obtain ⟨k, hk, hnext⟩ := mem_nextSymbols.1 hsym
      exact List.ne_nil_of_mem (mem_keys_target.2 ⟨k, hk, hnext, rfl⟩)
    · obtain ⟨k', -, -, rfl⟩ := mem_keys_target.1 hk
      exact Nat.succ_pos _
    · obtain ⟨k', hk', hnext, rfl⟩ := mem_keys_target.1 hk
      exact (hvalid k' hk').advance hnext
  · by_cases hlt : j < b.states.size
    · obtain ⟨s', hs', hw⟩ := hadd.continues.states j _ (Array.getElem?_eq_getElem hlt)
      obtain rfl := Option.some.inj (hs.symm.trans hs')
      exact (h.fresh j _ (Array.getElem?_eq_getElem hlt)).imp id hw.untouched
    · rcases hadd.fresh j s hs with hlt' | ⟨rfl, -⟩
      · exact absurd hlt' hlt
      · exact Or.inr rfl
  · rw [SortedMap.mem_keys_insert, h.keys, List.mem_append, List.mem_singleton, or_comm]
  · rw [SortedMap.find?_eq_some_iff, SortedMap.mem_entries_insert] at hj
    rcases hj with hj | ⟨rfl, rfl, -⟩
    · obtain ⟨s, hs, hk⟩ := h.edges sym' j (SortedMap.find?_eq_some_iff.2 hj)
      obtain ⟨s', hs', hw⟩ := hadd.continues.states j s hs
      exact ⟨s', hs', hk.trans hw.grows⟩
    · obtain ⟨s, hs, hk⟩ := hadd.found
      exact ⟨s, hs, (hgrow _ (hc.target sym')).trans hk⟩

/-- Adding transitions on symbols that some item waits for. -/
theorem linked_foldl (h : a.Shaped g strength) (hc : a.Covers closure)
    (hvalid : ∀ k ∈ closure.keys, Valid g k) (syms : List Nat)
    (hsyms : ∀ sym ∈ syms, sym ∈ nextSymbols g closure.keys) :
    Linked g strength a closure syms (syms.foldl (addTransition closure) (a, ∅)).1
      (syms.foldl (addTransition closure) (a, ∅)).2 := by
  induction syms using List.reverseRecOn with
  | nil =>
    refine ⟨⟨rfl, .refl _, fun j t ht => ⟨t, ht, .refl (h.covered j t ht) (.refl _)⟩⟩, h,
      fun j s hs => Or.inl (Array.getElem?_eq_some_iff.1 hs).1, by simp, by simp⟩
  | append_singleton syms sym ih =>
    have hl := ih fun sym' h' => hsyms sym' (by simp [h'])
    rw [List.foldl_append]
    exact hl.addTransition hc hvalid (hsyms sym (by simp))

/-- What adding a state preserves holds after transitions were added. -/
theorem linked_induction {P : List Nat → Automaton → Prop} (h : a.Shaped g strength)
    (hc : a.Covers closure) (hvalid : ∀ k ∈ closure.keys, Valid g k) (syms : List Nat)
    (hsyms : ∀ sym ∈ syms, sym ∈ shifts g closure.keys) (nil : P [] a)
    (step : ∀ syms sym b, sym ∈ shifts g closure.keys → a.Continues b → b.Shaped g strength →
      b.Covers (target g closure sym) → P syms b →
      P (syms ++ [sym]) (b.addState (target g closure sym)).2) :
    P syms (syms.foldl (addTransition closure) (a, ∅)).1 := by
  induction syms using List.reverseRecOn with
  | nil => exact nil
  | append_singleton syms sym ih =>
    have hsyms' : ∀ sym' ∈ syms, sym' ∈ shifts g closure.keys := by
      intro sym' h'
      exact hsyms sym' (by simp [h'])
    have hl := linked_foldl h hc hvalid syms fun sym' h' => List.mem_of_mem_filter (hsyms' sym' h')
    have hcov := (hc.target (g := g) sym).extends hl.continues.basis hl.continues.pool
    rw [List.foldl_append, List.foldl_cons, List.foldl_nil, Automaton.addTransition,
      hl.shaped.grammar_eq]
    exact step syms sym _ (hsyms sym (by simp)) hl.continues hl.shaped hcov (ih hsyms')

/-! ## Processed states -/

/-- A state that has been processed. -/
structure Processed (a : Automaton) (s : State) : Prop where
  covers : a.Covers s.closure
  /-- The closure was made from the kernel, with its sets as they were at that time. -/
  closed : ∃ kernel, kernel.map Prod.fst = s.kernel.keys ∧
    a.basis.IsClosure kernel (a.items s.closure) ∧ (s.complete = true → kernel = a.items s.kernel)
  reduce : s.reduce = reduction a.grammar s.closure.keys
  precedence : s.precedence =
    s.reduce.bind fun p => a.grammar.productions[p]?.bind Production.precedence
  symbols : ∀ sym, sym ∈ s.goTo.keys ↔
    sym ∈ nextSymbols a.grammar s.closure.keys ∧ suppressed a.grammar s.precedence sym = false
  edges : ∀ sym j, s.goTo.find? sym = some j → ∃ s', a.states[j]? = some s' ∧
    KernelGrows a a (target a.grammar s.closure sym) s'.kernel
  startsLine : s.startsLine = (nextSymbols a.grammar s.closure.keys).any a.grammar.isLineLike
  minPrefix : s.minPrefix = leastDot s.kernel.keys

/-- A state is untouched, or has been processed. -/
def Ready (a : Automaton) (s : State) : Prop :=
  s = { kernel := s.kernel } ∨ a.Processed s

theorem KernelGrows.later {m' : ItemMap Handle} (hm : a.Covers m) (h : KernelGrows a a m m')
    (hx : a.pool.Extends b.pool) {m'' : ItemMap Handle} (hg : KernelGrows a b m' m'') :
    KernelGrows b b m m'' := by
  obtain ⟨hk, hsets⟩ := h.trans hg
  refine ⟨hk, fun k x hxk => ?_⟩
  rw [set_eq hx (hm.lt k x hxk)]
  exact hsets k x hxk

/-- A processed state stays so while other states are worked on. -/
theorem Processed.waits (h : a.Processed s) (hc : a.Covers s.kernel) (hx : a.Extends b)
    (hgrows : s'.kernel.keys = s.kernel.keys)
    (hrest : s' = { s with kernel := s'.kernel, complete := s'.complete })
    (hsame : s'.complete = true → s' = s) : b.Processed s' := by
  have hclosure : s'.closure = s.closure := by rw [hrest]
  have hreduce : s'.reduce = s.reduce := by rw [hrest]
  have hprec : s'.precedence = s.precedence := by rw [hrest]
  have hgoTo : s'.goTo = s.goTo := by rw [hrest]
  have hline : s'.startsLine = s.startsLine := by rw [hrest]
  have hleast : s'.minPrefix = s.minPrefix := by rw [hrest]
  have hgr : b.grammar = a.grammar := by rw [grammar, hx.basis]
  refine ⟨hclosure ▸ h.covers.extends hx.basis hx.pool, ?_, ?_, ?_, ?_, ?_, ?_, ?_⟩
  · obtain ⟨kernel, hk, hcl, hcomplete⟩ := h.closed
    refine ⟨kernel, hk.trans hgrows.symm, ?_, fun hs' => ?_⟩
    · rw [hx.basis, hclosure, items_eq h.covers hx.pool]
      exact hcl
    · have e := hsame hs'
      rw [e] at hs' ⊢
      rw [items_eq hc hx.pool]
      exact hcomplete hs'
  · rw [hreduce, hclosure, hgr]
    exact h.reduce
  · rw [hprec, hreduce, hgr]
    exact h.precedence
  · rw [hgoTo, hclosure, hprec, hgr]
    exact h.symbols
  · rw [hgoTo, hclosure, hgr]
    intro sym j hj
    obtain ⟨t, ht, hg⟩ := h.edges sym j hj
    obtain ⟨t', ht', hg'⟩ := hx.states j t ht
    exact ⟨t', ht', hg.later (h.covers.target sym) hx.pool hg'⟩
  · rw [hline, hclosure, hgr]
    exact h.startsLine
  · rw [hleast, hgrows]
    exact h.minPrefix

/-- An automaton in the making, all of whose states are untouched or processed. -/
structure Sound (g : Grammar) (strength : Strength) (a : Automaton) : Prop
    extends a.Shaped g strength where
  ready : ∀ (i : Nat) (s : State), a.states[i]? = some s → a.Ready s

/-- The items of a closure are valid if those of the kernel are. -/
theorem IsClosure.valid {kernel items : List (Item × SymSet)}
    (h : (Basis.of g strength).IsClosure kernel items) (hk : ∀ e ∈ kernel, Valid g e.1) :
    ∀ e ∈ items, Valid g e.1 := by
  intro e he
  rcases h.reason e.1 (List.mem_map_of_mem he) with hmem | hp
  · obtain ⟨e', he', heq⟩ := List.mem_map.1 hmem
    exact heq ▸ hk e' he'
  · exact ⟨Or.inl hp.prod_lt, by rw [hp.dot]; exact Nat.zero_le _⟩

/-! ## Processing a state -/

/-- Automata with the same kernels. -/
def SameKernels (a b : Automaton) : Prop :=
  ∀ j : Nat, b.states[j]?.map State.kernel = a.states[j]?.map State.kernel

theorem SameKernels.update (a : Automaton) (i : Nat) {f : State → State}
    (hf : ∀ s, (f s).kernel = s.kernel) : a.SameKernels (a.update i f) := by
  intro j
  rw [states_update]
  split
  · cases a.states[j]? <;> simp [hf]
  · rfl

theorem SameKernels.get (h : a.SameKernels b) (ht : b.states[j]? = some s') :
    ∃ s, a.states[j]? = some s ∧ s'.kernel = s.kernel := by
  have := h j
  rw [ht, Option.map_some] at this
  obtain ⟨s, hs, hk⟩ := Option.map_eq_some_iff.1 this.symm
  exact ⟨s, hs, hk.symm⟩

theorem SameKernels.symm (h : a.SameKernels b) : b.SameKernels a := fun j => (h j).symm

theorem SameKernels.extends (h : a.SameKernels b) (hc : a.Covered) (hb : b.basis = a.basis)
    (hp : a.pool.Extends b.pool) : a.Extends b := by
  refine ⟨hb, hp, fun j s hs => ?_⟩
  obtain ⟨s', hs', hk⟩ := h.symm.get hs
  exact ⟨s', hs', hk ▸ .of_pool (hc j s hs) hp⟩

theorem Shaped.sameKernels (h : a.Shaped g strength) (hk : a.SameKernels b)
    (hb : b.basis = a.basis) (hp : a.pool.Extends b.pool) : b.Shaped g strength := by
  refine ⟨h.indexed, hb.trans h.basis, fun j t ht => ?_, ?_, fun j t ht hj => ?_, fun j t ht => ?_,
    fun j j' t t' ht ht' hsame => ?_⟩
  · obtain ⟨s, hs, e⟩ := hk.get ht
    rw [e]
    exact (h.covered j s hs).extends hb hp
  · obtain ⟨s, hs, hkeys⟩ := h.start
    obtain ⟨s', hs', e⟩ := hk.symm.get hs
    exact ⟨s', hs', e ▸ hkeys⟩
  · obtain ⟨s, hs, e⟩ := hk.get ht
    rw [e]
    exact h.behind j s hs hj
  · obtain ⟨s, hs, e⟩ := hk.get ht
    rw [e]
    exact h.valid j s hs
  · obtain ⟨s, hs, e⟩ := hk.get ht
    obtain ⟨s', hs', e'⟩ := hk.get ht'
    refine h.distinct j j' s s' hs hs' ?_
    rw [← hsame]
    simp only [sameState, e, e']

/-- The closure of a state, and the pool that has its sets. -/
def closureOf (a : Automaton) (s : State) : ItemMap Handle × Pool :=
  internItems (a.basis.closure (a.items s.kernel)) a.pool

/-- The automaton while a state is processed: the state counts as complete already. -/
def marked (a : Automaton) (i : Nat) (s : State) : Automaton :=
  { a with pool := (a.closureOf s).2 }.update i fun s => { s with complete := true }

theorem marked_sameKernels (a : Automaton) (i : Nat) (s : State) :
    a.SameKernels (a.marked i s) :=
  SameKernels.update { a with pool := (a.closureOf s).2 } i (f := fun s => { s with complete := true })
    fun _ => rfl

/-- The automaton and the transitions after these were added. -/
def linked (a : Automaton) (i : Nat) (s : State) : Automaton × SortedMap Nat Nat :=
  (shifts a.grammar (a.closureOf s).1.keys).foldl (addTransition (a.closureOf s).1)
    (a.marked i s, ∅)

theorem process_eq (hs : a.states[i]? = some s) :
    a.process i = (a.linked i s).1.update i fun t =>
      { t with
        closure := (a.closureOf s).1
        goTo := (a.linked i s).2
        precedence := reductionPrecedence a.grammar (a.closureOf s).1.keys
        reduce := reduction a.grammar (a.closureOf s).1.keys
        startsLine := (nextSymbols a.grammar (a.closureOf s).1.keys).any a.grammar.isLineLike
        minPrefix := leastDot s.kernel.keys } := by
  unfold process
  rw [hs]
  rfl

/-- What is put into the work list of a closure: every item once, with symbols of the grammar. -/
theorem Shaped.items_kernel (h : a.Shaped g strength) (hs : a.states[i]? = some s) :
    ((a.items s.kernel).map Prod.fst).Nodup ∧
      ∀ e ∈ a.items s.kernel, ∀ t ∈ e.2.keys, t < a.grammar.symbols.size := by
  constructor
  · rw [items_keys]
    exact s.kernel.keys_nodup
  · rintro ⟨k, set⟩ hk t ht
    obtain ⟨x, hx, rfl⟩ := mem_items.1 hk
    exact (h.covered i s hs).within k x hx t ht

theorem Shaped.isClosure (h : a.Shaped g strength) (hs : a.states[i]? = some s) :
    a.basis.IsClosure (a.items s.kernel) (a.basis.closure (a.items s.kernel)) := by
  obtain ⟨hn, hk⟩ := h.items_kernel hs
  have hproper : a.basis.Proper := h.basis ▸ Basis.of_proper h.indexed strength
  exact Basis.closure_isClosure hproper hn hk

/-- The closure of a state has its sets in the pool, and is one. -/
theorem Shaped.closureOf (h : a.Shaped g strength) (hs : a.states[i]? = some s) :
    a.pool.Extends (a.closureOf s).2 ∧ (a.marked i s).Covers (a.closureOf s).1 ∧
      a.basis.IsClosure (a.items s.kernel) ((a.marked i s).items (a.closureOf s).1) := by
  have hc := h.covered i s hs
  have hcl := h.isClosure hs
  obtain ⟨hx, hlt, hmem⟩ := internItems_spec hcl.nodup a.pool
  have hitems (e : Item × SymSet) : e ∈ (a.marked i s).items (a.closureOf s).1 ↔
      e ∈ a.basis.closure (a.items s.kernel) :=
    mem_items.trans (hmem e.1 e.2).symm
  have hn : (((a.marked i s).items (a.closureOf s).1).map Prod.fst).Nodup := by
    rw [items_keys]
    exact SortedMap.keys_nodup _
  have hcl' := hcl.congr hn hitems
  refine ⟨hx, ⟨hlt, fun k x hk t ht => ?_, fun k x hk t ht => ?_⟩, hcl'⟩
  · exact hcl'.within _ (mem_items.2 ⟨x, hk, rfl⟩) t ht
  · rcases hcl'.plain (mem_items.2 ⟨x, hk, rfl⟩) ht with hu | ⟨set, he, ht⟩
    · exact hu
    · obtain ⟨y, hy, rfl⟩ := mem_items.1 he
      exact hc.plain k y hy t ht

/-- The items of the closure of a state are valid. -/
theorem Shaped.valid_closureOf (h : a.Shaped g strength) (hs : a.states[i]? = some s) :
    ∀ k ∈ (a.closureOf s).1.keys, Valid g k := by
  intro k hk
  obtain ⟨-, -, hcl⟩ := h.closureOf hs
  rw [h.basis] at hcl
  obtain ⟨x, hx⟩ := SortedMap.exists_find?_of_mem_keys hk
  refine IsClosure.valid hcl (fun e he => ?_) (k, _) (mem_items.2 ⟨x, hx, rfl⟩)
  refine h.valid i s hs e.1 ?_
  rw [← items_keys a s.kernel]
  exact List.mem_map_of_mem he

/-- What processing a state does to the automaton around it. -/
theorem Shaped.linked (h : a.Shaped g strength) (hs : a.states[i]? = some s) :
    Linked g strength (a.marked i s) (a.closureOf s).1 (shifts a.grammar (a.closureOf s).1.keys)
      (a.linked i s).1 (a.linked i s).2 := by
  obtain ⟨hx, hcov, -⟩ := h.closureOf hs
  have hgr : a.grammar = g := h.grammar_eq
  have hshape : (a.marked i s).Shaped g strength :=
    h.sameKernels (a.marked_sameKernels i s) rfl hx
  refine linked_foldl hshape hcov (h.valid_closureOf hs) _ fun sym hsym => ?_
  rw [← hgr]
  exact List.mem_of_mem_filter hsym

theorem basis_process (hs : a.states[i]? = some s) :
    (a.process i).basis = (a.linked i s).1.basis := by
  rw [process_eq hs, basis_update]

theorem pool_process (hs : a.states[i]? = some s) :
    (a.process i).pool = (a.linked i s).1.pool := by
  rw [process_eq hs, pool_update]

/-- The automaton after a state was processed has its states from before, grown. -/
theorem Shaped.process_extends (h : a.Shaped g strength) (hs : a.states[i]? = some s) :
    a.Extends (a.linked i s).1 ∧ (a.linked i s).1.SameKernels (a.process i) := by
  obtain ⟨hx, -, -⟩ := h.closureOf hs
  have hmark : a.Extends (a.marked i s) :=
    (a.marked_sameKernels i s).extends h.covered rfl hx
  refine ⟨hmark.trans (h.linked hs).continues.extends, ?_⟩
  rw [process_eq hs]
  exact SameKernels.update _ i fun _ => rfl

/-- What does not hang on the work that is done, and is preserved when the kernel behind a
    transition is added, holds after a state was processed. -/
theorem Shaped.process_induction {P : List Nat → Automaton → Prop} (h : a.Shaped g strength)
    (hs : a.states[i]? = some s) (start : P [] a)
    (congr : ∀ syms b c, b.Covered → b.SameKernels c → c.basis = b.basis →
      b.pool.Extends c.pool → P syms b → P syms c)
    (step : ∀ syms sym b, sym ∈ shifts g (a.closureOf s).1.keys → (a.marked i s).Continues b →
      b.Shaped g strength → b.Covers (target g (a.closureOf s).1 sym) → P syms b →
      P (syms ++ [sym]) (b.addState (target g (a.closureOf s).1 sym)).2) :
    P (shifts g (a.closureOf s).1.keys) (a.process i) := by
  obtain ⟨hx, hcov, -⟩ := h.closureOf hs
  have hgr : a.grammar = g := h.grammar_eq
  have hsame := a.marked_sameKernels i s
  have hl := h.linked hs
  have hmarked : P [] (a.marked i s) := congr [] a _ h.covered hsame rfl hx start
  have hlinked : P (shifts g (a.closureOf s).1.keys) (a.linked i s).1 := by
    unfold Automaton.linked
    rw [hgr]
    exact linked_induction (h.sameKernels hsame rfl hx) hcov (h.valid_closureOf hs) _
      (fun _ hsym => hsym) hmarked step
  refine congr _ _ _ hl.shaped.covered (h.process_extends hs).2 (basis_process hs) ?_ hlinked
  rw [pool_process hs]
  exact .refl _

/-- A state is processed once it has its closure and its transitions. -/
theorem Linked.processed {syms : List Nat} {goTo : SortedMap Nat Nat}
    (hl : Linked g strength a closure syms b goTo) (hcov : a.Covers closure)
    (hcl : a.basis.IsClosure (a.items s.kernel) (a.items closure)) (hs : a.states[i]? = some s)
    (hcs : a.Covers s.kernel) (hsyms : syms = shifts g closure.keys) (hsame : b.SameKernels c)
    (hbasis : c.basis = b.basis) (hpool : c.pool = b.pool) (hs' : b.states[i]? = some s') :
    c.Processed { s' with
      closure, goTo
      precedence := reductionPrecedence g closure.keys
      reduce := reduction g closure.keys
      startsLine := (nextSymbols g closure.keys).any g.isLineLike
      minPrefix := leastDot s.kernel.keys } := by
  have hg : c.grammar = g := by rw [grammar, hbasis]; exact hl.shaped.grammar_eq
  have hba : c.basis = a.basis := hbasis.trans hl.continues.basis
  have hpx : a.pool.Extends c.pool := hpool ▸ hl.continues.pool
  obtain ⟨t, ht, hw⟩ := hl.continues.states i s hs
  obtain rfl := Option.some.inj (hs'.symm.trans ht)
  refine ⟨hcov.extends hba hpx, ⟨a.items s.kernel, ?_, ?_, fun hc => ?_⟩, ?_, ?_, fun sym => ?_,
    fun sym j hj => ?_, ?_, ?_⟩
  · rw [items_keys]
    exact hw.grows.keys.symm
  · rw [hba, items_eq hcov hpx]
    exact hcl
  · have e := hw.same hc
    dsimp only
    rw [e, items_eq hcs hpx]
  · rw [hg]
  · rw [hg, reductionPrecedence]
  · rw [hg, hl.keys, hsyms, shifts, List.mem_filter]
    simp
  · rw [hg]
    obtain ⟨u, hu, hk⟩ := hl.edges sym j hj
    obtain ⟨u', hu', hk'⟩ := hsame.symm.get hu
    refine ⟨u', hu', hk' ▸ ⟨hk.keys, fun k x hkx => ?_⟩⟩
    obtain ⟨y, hy, hsub⟩ := hk.sets k x hkx
    refine ⟨y, hy, fun t ht => ?_⟩
    rw [set_eq hpx ((hcov.target sym).lt k x hkx)] at ht
    rw [set, hpool]
    exact hsub t ht
  · rw [hg]
  · rw [hw.grows.keys]

/-- **Processing a state keeps the automaton sound.** -/
theorem process_sound (h : a.Sound g strength) (hs : a.states[i]? = some s) :
    (a.process i).Sound g strength := by
  obtain ⟨hx, hcov, hcl⟩ := h.closureOf hs
  have hl := h.linked hs
  obtain ⟨hext, hsame⟩ := h.process_extends hs
  have hg : a.grammar = g := h.grammar_eq
  have hbasis := basis_process hs
  have hpool := pool_process hs
  have hpx : (a.linked i s).1.pool.Extends (a.process i).pool := by
    rw [hpool]
    exact .refl _
  have hext' : a.Extends (a.process i) := hext.trans (hsame.extends hl.shaped.covered hbasis hpx)
  have hmarked (j : Nat) : (a.marked i s).states[j]? =
      if i = j then some { s with complete := true } else a.states[j]? := by
    rw [marked, states_update]
    split
    · rename_i hij
      rw [← hij, hs, Option.map_some]
    · rfl
  refine ⟨hl.shaped.sameKernels hsame hbasis hpx, fun j t ht => ?_⟩
  rw [process_eq hs, states_update] at ht
  split at ht
  · -- the state that was processed
    rename_i hij
    subst hij
    obtain ⟨u, hu, rfl⟩ := Option.map_eq_some_iff.1 ht
    have hi : (a.marked i s).states[i]? = some { s with complete := true } := by
      rw [hmarked, if_pos rfl]
    have hkernel : (a.marked i s).items s.kernel = a.items s.kernel :=
      items_eq (h.covered i s hs) hx
    right
    rw [hg]
    refine hl.processed (s := { s with complete := true }) hcov (hkernel ▸ hcl) hi ?_ (by rw [hg])
      hsame hbasis hpool hu
    exact (h.covered i s hs).extends rfl hx
  · -- another state
    rename_i hij
    rcases hl.fresh j t ht with hlt | hfresh
    · have hlt' : j < a.states.size := by simpa [marked] using hlt
      have hget := Array.getElem?_eq_getElem hlt'
      obtain ⟨t', ht', hw⟩ := hl.continues.states j _ (by rw [hmarked, if_neg hij, hget])
      obtain rfl := Option.some.inj (ht'.symm.trans ht)
      rcases h.ready j _ hget with hu | hp
      · exact Or.inl (hw.untouched hu)
      · exact Or.inr (hp.waits (h.covered j _ hget) hext' hw.grows.keys hw.rest hw.same)
    · exact Or.inl hfresh

/-- Another state that is complete afterwards was so before. -/
theorem Shaped.process_complete (h : a.Shaped g strength) (hs : a.states[i]? = some s)
    (hij : i ≠ j) (hs' : (a.process i).states[j]? = some s') (hc : s'.complete = true) :
    a.states[j]? = some s' := by
  have hl := h.linked hs
  rw [process_eq hs, states_update, if_neg hij] at hs'
  rcases hl.fresh j s' hs' with hlt | hfresh
  · have hget := Array.getElem?_eq_getElem (show j < a.states.size by simpa [marked] using hlt)
    obtain ⟨t, ht, hw⟩ := hl.continues.states j _
      (by rw [marked, states_update, if_neg hij]; exact hget)
    obtain rfl := Option.some.inj (ht.symm.trans hs')
    rw [hw.same hc]
    exact hget
  · rw [hfresh] at hc
    cases hc

/-! ## The whole automaton -/

/-- The kernel of the first state. -/
def startKernel : ItemMap Handle :=
  SortedMap.ofList [(⟨0, 0⟩, Pool.emptyHandle)]

theorem initial_eq (b : Basis) :
    initial b = { basis := b, states := #[{ kernel := startKernel }] } := by
  simp [initial, addState, startKernel]

theorem find?_startKernel {k : Item} {h : Handle} (hk : startKernel.find? k = some h) :
    k = ⟨0, 0⟩ ∧ h = Pool.emptyHandle := by
  simpa [startKernel, SortedMap.find?_eq_some_iff, SortedMap.mem_entries_ofList] using hk

theorem initial_sound (hindexed : g.Indexed) (strength : Strength) :
    (initial (.of g strength)).Sound g strength := by
  rw [initial_eq]
  have hget {j : Nat} {s : State} (hs : (#[{ kernel := startKernel }] : Array State)[j]? = some s) :
      j = 0 ∧ s = { kernel := startKernel } := by
    obtain ⟨hlt, rfl⟩ := Array.getElem?_eq_some_iff.1 hs
    obtain rfl : j = 0 := by simpa using hlt
    exact ⟨rfl, rfl⟩
  refine ⟨⟨hindexed, rfl, fun j s hs => ?_, ⟨_, rfl, rfl⟩, fun j s hs hj => ?_, fun j s hs k hk => ?_,
    fun j j' s s' hs hs' _ => ?_⟩, fun j s hs => ?_⟩
  · obtain ⟨-, rfl⟩ := hget hs
    refine ⟨fun k h hk => ?_, fun k h hk t ht => ?_, fun k h hk t ht => ?_⟩ <;>
      obtain ⟨-, rfl⟩ := find?_startKernel hk
    · exact Pool.emptyHandle_lt _
    · simp [set] at ht
    · simp [set] at ht
  · exact absurd (hget hs).1 hj
  · obtain ⟨-, rfl⟩ := hget hs
    obtain ⟨h, hh⟩ := SortedMap.exists_find?_of_mem_keys hk
    obtain ⟨rfl, -⟩ := find?_startKernel hh
    exact ⟨Or.inr rfl, Nat.zero_le _⟩
  · rw [(hget hs).1, (hget hs').1]
  · obtain ⟨-, rfl⟩ := hget hs
    exact Or.inl rfl

theorem completeAll_sound : ∀ (n : Nat) (a : Automaton), a.Sound g strength →
    (completeAll n a).Sound g strength
  | 0, _, h => h
  | n + 1, a, h => by
    unfold completeAll
    split
    · exact h
    · rename_i i hi
      obtain ⟨hlt, -, -⟩ := Array.findIdx?_eq_some_iff_getElem.1 hi
      exact completeAll_sound n _ (process_sound h (Array.getElem?_eq_getElem hlt))

/-- **The automaton of a grammar is sound.** -/
theorem build_sound (hindexed : g.Indexed) (strength : Strength) :
    (build g strength).Sound g strength :=
  completeAll_sound _ _ (initial_sound hindexed strength)

end Automaton

end LayoutLR
