/-
  Layout-aware LR toolkit — conflicts at different strengths.

  The more is known about what comes after a head, the fewer tokens an item is
  reduced before: what may come after an item in a state at `LR1` may come after it
  at `LALR`, and that follows its head somewhere, which is all that counts at
  `SLR`.  Transitions are the same at all strengths.  So a conflict that is met at
  some strength is met at every lower one.

  * `Automaton.ahead_merged`, `Automaton.ahead_follows`: the three sets in a row;
  * `Automaton.Clash.mono`: a conflict stays where items are reduced before more;
  * `Automaton.exists_conflict_lalr`, `_slr`, `_lr0`: the conflict of the next lower strength;
  * `conflicts_shrink`: conflicts only disappear as the strength grows.
-/
import LayoutLR.Proofs.Automaton.Merging

namespace LayoutLR

namespace Automaton

variable {a b : Automaton} {g : Grammar} {strength strength' : Strength} {q q' t : Nat}
  {s s' : State} {i : Item} {kind : ConflictKind}

/-! ## What may come after an item -/

theorem ahead_iff_setOf (hl : a.strength ≠ .slr) :
    a.Ahead q i t ↔ ∃ s, a.states[q]? = some s ∧ t ∈ (a.setOf s.closure i).keys := by
  simp only [Ahead, reduceLookahead, if_neg hl, mem_setOf]
  constructor
  · rintro ⟨s, h, hs, hh, ht⟩
    exact ⟨s, hs, h, hh, ht⟩
  · rintro ⟨s, hs, h, hh, ht⟩
    exact ⟨s, h, hs, hh, ht⟩

theorem ahead_iff_follow (hl : a.strength = .slr) :
    a.Ahead q i t ↔ a.Has q i ∧ t ∈ (a.basis.follow.of (a.grammar.head i.prod)).keys := by
  simp only [Ahead, reduceLookahead, if_pos hl, Has]
  constructor
  · rintro ⟨s, h, hs, hh, ht⟩
    exact ⟨⟨s, hs, SortedMap.mem_keys_of_find? hh⟩, ht⟩
  · rintro ⟨⟨s, hs, hi⟩, ht⟩
    obtain ⟨h, hh⟩ := SortedMap.exists_find?_of_mem_keys hi
    exact ⟨s, h, hs, hh, ht⟩

theorem Ahead.has (h : a.Ahead q i t) : a.Has q i := by
  obtain ⟨s, x, hs, hx, -⟩ := h
  exact ⟨s, hs, SortedMap.mem_keys_of_find? hx⟩

/-- What may come after an item at `LR1` may come after it where states are merged. -/
theorem ahead_merged (hindexed : g.Indexed)
    (hcol : (build g .lr1).collapse (build g .lalr) q = some q')
    (h : (build g .lr1).Ahead q i t) : (build g .lalr).Ahead q' i t := by
  obtain ⟨s, hs, ht⟩ := (ahead_iff_setOf (by rw [(build_sound hindexed .lr1).strength_eq]; decide)).1 h
  obtain ⟨s', hs', hkeys⟩ := exists_of_collapse hcol hs
  refine (ahead_iff_setOf (by rw [(build_sound hindexed .lalr).strength_eq]; decide)).2 ⟨s', hs', ?_⟩
  rw [mem_setOf_build hindexed (by decide) hs', hkeys]
  exact (foresees_iff hindexed rfl rfl).1 ⟨q, s, hs, rfl, ht⟩

theorem Valid.of_next {sym : Nat} (hnext : i.next? g = some sym) : Valid g i := by
  obtain ⟨hlt, -⟩ := List.getElem?_eq_some_iff.1 hnext
  refine ⟨Or.inl ?_, Nat.le_of_lt hlt⟩
  by_contra hp
  simp [Grammar.body, Nat.not_lt.1 hp] at hlt

/-- The neighbours of the heads have all that flows between items. -/
theorem follow_propagates (hg : g.WellFormed) (hl : strength.usesLookahead = true) :
    Propagates (.of g strength)
      fun _ i t => t ∈ ((g.followSets g.firstSets).of (g.head i.prod)).keys := by
  have hnextOf {i : Item} {p t : Nat} {set : SymSet} (hnext : i.next? g = some (g.head p))
      (hset : ∀ t ∈ set.keys, t ∈ ((g.followSets g.firstSets).of (g.head i.prod)).keys)
      (ht : t ∈ ((Basis.of g strength).lookahead i (g.head p) set).keys) :
      t ∈ ((g.followSets g.firstSets).of (g.head p)).keys := by
    obtain ⟨-, ht, -⟩ := Basis.mem_lookahead.1 ht
    rw [first_of_usesLookahead g hl] at ht
    rw [← Basis.follow_of] at hset ⊢
    refine mem_follow hg rfl (Valid.of_next hnext) hnext ?_
    exact ht.imp id fun h => ⟨h.1, hset t h.2⟩
  constructor
  · intro _ i p t _ _ _ hnext _ ht
    exact hnextOf hnext (by simp) ht
  · intro _ i p t hi _ hnext _ ht
    refine hnextOf hnext ?_ ht
    intro t' ht'
    obtain rfl : t' = t := by simpa using ht'
    exact hi
  · intro _ i _ t hi _ _
    exact hi

/-- What may come after an item at `LALR` follows its head. -/
theorem ahead_follows (hg : g.WellFormed) (h : (build g .lalr).Ahead q i t) :
    t ∈ ((g.followSets g.firstSets).of (g.head i.prod)).keys := by
  obtain ⟨s, hs, ht⟩ :=
    (ahead_iff_setOf (by rw [(build_sound hg.indexed .lalr).strength_eq]; decide)).1 h
  exact bounded_build hg.indexed (follow_propagates hg rfl) hs ht

/-- Below `LR1` a state has the same items at every strength. -/
theorem Has.build (hindexed : g.Indexed) (hl : strength ≠ .lr1) (hl' : strength' ≠ .lr1)
    (h : (build g strength).Has q i) : (Automaton.build g strength').Has q i := by
  obtain ⟨s, hs, hi⟩ := h
  have hsame := sameStates_build hindexed hl hl'
  obtain ⟨hlt, -⟩ := Array.getElem?_eq_some_iff.1 hs
  have hs' := Array.getElem?_eq_getElem (hsame.size ▸ hlt)
  exact ⟨_, hs', (hsame.alike q _ _ hs hs').closure ▸ hi⟩

/-- What may come after an item at `LALR` may come after it at `SLR`. -/
theorem ahead_slr (hg : g.WellFormed) (h : (build g .lalr).Ahead q i t) :
    (build g .slr).Ahead q i t := by
  have hsound := build_sound hg.indexed .slr
  rw [ahead_iff_follow hsound.strength_eq, hsound.basis, hsound.grammar_eq, Basis.follow_of]
  exact ⟨h.has.build hg.indexed (by decide) (by decide), ahead_follows hg h⟩

/-! ## Conflicts -/

theorem Clash.lt (h : a.Clash q t kind) : q < a.states.size := by
  have hahead {i : Item} (hi : a.Ahead q i t) : q < a.states.size := by
    obtain ⟨s, -, hs, -⟩ := hi
    exact (Array.getElem?_eq_some_iff.1 hs).1
  cases kind with
  | shiftReduce =>
    obtain ⟨i, -, hi, -⟩ := h
    exact hahead hi
  | reduceReduce =>
    obtain ⟨i, j, -, -, -, hi, -⟩ := h
    exact hahead hi

/-- A conflict stays where items are reduced before more tokens and the same can be shifted. -/
theorem Clash.mono (h : a.Clash q t kind) (hgr : a.grammar = b.grammar)
    (hahead : ∀ i, a.Ahead q i t → b.Ahead q' i t)
    (hgo : ∀ j, a.table.goto? q t = some j → ∃ j', b.table.goto? q' t = some j') :
    b.Clash q' t kind := by
  cases kind with
  | shiftReduce =>
    obtain ⟨i, hi, ht, hne, ⟨j, hj⟩, hres⟩ := h
    exact ⟨i, hgr ▸ hi, hahead i ht, hne, hgo j hj, hgr ▸ hres⟩
  | reduceReduce =>
    obtain ⟨i, j, hne, hi, hj, ht, ht'⟩ := h
    exact ⟨i, j, hne, hgr ▸ hi, hgr ▸ hj, hahead i ht, hahead j ht'⟩

theorem Clash.merged (hindexed : g.Indexed)
    (hcol : (build g .lr1).collapse (build g .lalr) q = some q')
    (h : (build g .lr1).Clash q t kind) : (build g .lalr).Clash q' t kind := by
  refine h.mono ?_ (fun i => ahead_merged hindexed hcol) ?_
  · rw [(build_sound hindexed .lr1).grammar_eq, (build_sound hindexed .lalr).grammar_eq]
  · intro j hj
    obtain ⟨s, hs, hfind⟩ := goto?_table.1 hj
    obtain ⟨s', hs', hkeys⟩ := exists_of_collapse hcol hs
    have hmem := ((build_sound hindexed .lr1).mem_goTo (build_processed hindexed hs)).1
      (SortedMap.mem_keys_of_find? hfind)
    rw [← hkeys, ← (build_sound hindexed .lalr).mem_goTo (build_processed hindexed hs')] at hmem
    obtain ⟨j', hj'⟩ := SortedMap.exists_find?_of_mem_keys hmem
    exact ⟨j', goto?_table.2 ⟨s', hs', hj'⟩⟩

theorem Clash.slr (hg : g.WellFormed) (h : (build g .lalr).Clash q t kind) :
    (build g .slr).Clash q t kind := by
  refine h.mono ?_ (fun i => ahead_slr hg) ?_
  · rw [(build_sound hg.indexed .lalr).grammar_eq, (build_sound hg.indexed .slr).grammar_eq]
  · intro j hj
    have htable : (build g .slr).table = (build g .lalr).table :=
      table_build hg.indexed (by decide) (by decide)
    exact ⟨j, htable ▸ hj⟩

/-! ## Conflicts of a state as a whole -/

/-- A complete item that could be shifted over is a conflict where nothing is known about the
    next token. -/
theorem exists_plain_shiftReduce (hl : a.strength = .lr0) (hi : a.Has q i)
    (hc : i.isComplete a.grammar = true) {j : Nat} (hgo : a.table.goto? q t = some j)
    (hterm : a.grammar.isTerminal t = true) (hres : resolved a.grammar i.prod t = false) :
    ∃ c ∈ a.conflicts, c.kind = .shiftReduce ∧ c.state = q := by
  obtain ⟨s, hs, hmem⟩ := hi
  obtain ⟨s', hs', hfind⟩ := goto?_table.1 hgo
  obtain rfl := Option.some.inj (hs.symm.trans hs')
  obtain ⟨x, hx⟩ := SortedMap.exists_find?_of_mem_keys hmem
  have hprod : i.prod ∈ (completeItems a.grammar s).map fun e => e.1.prod :=
    List.mem_map.2 ⟨(i, x), mem_completeItems.2 ⟨hx, hc⟩, rfl⟩
  have hshift : (s.goTo.keys.any fun sym => a.grammar.isTerminal sym &&
      !((completeItems a.grammar s).map fun e => e.1.prod).all fun p =>
        resolved a.grammar p sym) = true := by
    refine List.any_eq_true.2 ⟨t, SortedMap.mem_keys_of_find? hfind, ?_⟩
    rw [hterm, Bool.true_and, Bool.not_eq_true', List.all_eq_false]
    exact ⟨i.prod, hprod, by simp [hres]⟩
  refine ⟨⟨.shiftReduce, q, none, (completeItems a.grammar s).map fun e => e.1.prod⟩,
    mem_conflicts.2 ⟨q, s, hs, ?_⟩, rfl, rfl⟩
  simp only [stateConflicts, hl, plainConflicts, hshift]
  simp [List.ne_nil_of_mem (mem_completeItems.2 ⟨hx, hc⟩)]

/-- Two complete items are a conflict where nothing is known about the next token. -/
theorem exists_plain_reduceReduce (hl : a.strength = .lr0) {j : Item} (hne : i ≠ j)
    (hi : a.Has q i) (hj : a.Has q j) (hc : i.isComplete a.grammar = true)
    (hc' : j.isComplete a.grammar = true) :
    ∃ c ∈ a.conflicts, c.kind = .reduceReduce ∧ c.state = q := by
  obtain ⟨s, hs, hmem⟩ := hi
  obtain ⟨s', hs', hmem'⟩ := hj
  obtain rfl := Option.some.inj (hs.symm.trans hs')
  obtain ⟨x, hx⟩ := SortedMap.exists_find?_of_mem_keys hmem
  obtain ⟨y, hy⟩ := SortedMap.exists_find?_of_mem_keys hmem'
  have hlen : 1 < ((completeItems a.grammar s).map fun e => e.1.prod).length := by
    obtain ⟨before, z, after, heq, hearlier⟩ := exists_earlier
      (mem_completeItems.2 ⟨hx, hc⟩) (mem_completeItems.2 ⟨hy, hc'⟩)
      (fun h => hne (congrArg Prod.fst h))
    have hpos : 0 < before.length := by
      rcases hearlier with ⟨-, h⟩ | ⟨-, h⟩ <;> exact List.length_pos_of_mem h
    rw [List.length_map, heq, List.length_append, List.length_cons]
    omega
  refine ⟨⟨.reduceReduce, q, none, (completeItems a.grammar s).map fun e => e.1.prod⟩,
    mem_conflicts.2 ⟨q, s, hs, ?_⟩, rfl, rfl⟩
  simp only [stateConflicts, hl, plainConflicts, if_pos hlen]
  simp

/-- A conflict before a token is one of the whole state if nothing is known about the next
    token. -/
theorem Clash.plain (hg : g.WellFormed) (h : (build g .slr).Clash q t kind) :
    ∃ c ∈ (build g .lr0).conflicts, c.kind = kind ∧ c.state = q := by
  have hindexed := hg.indexed
  have hsound := build_sound hindexed .slr
  have hsound' := build_sound hindexed .lr0
  have hgr : (build g .slr).grammar = (build g .lr0).grammar :=
    hsound.grammar_eq.trans hsound'.grammar_eq.symm
  have hhas (i : Item) (hi : (build g .slr).Ahead q i t) : (build g .lr0).Has q i :=
    hi.has.build hindexed (by decide) (by decide)
  cases kind with
  | shiftReduce =>
    obtain ⟨i, hi, hahead, -, ⟨j, hj⟩, hres⟩ := h
    have hterm : g.isTerminal t = true := by
      rw [ahead_iff_follow hsound.strength_eq, hsound.basis, Basis.follow_of] at hahead
      exact Grammar.followSets_only (Grammar.firstSets_terminal hindexed) _ t hahead.2
    have htable : (build g .slr).table = (build g .lr0).table :=
      table_build hindexed (by decide) (by decide)
    refine exists_plain_shiftReduce hsound'.strength_eq (hhas i hahead) (hgr ▸ hi) (htable ▸ hj) ?_
      (hgr ▸ hres)
    rw [hsound'.grammar_eq]
    exact hterm
  | reduceReduce =>
    obtain ⟨i, j, hne, hi, hj, hahead, hahead'⟩ := h
    exact exists_plain_reduceReduce hsound'.strength_eq hne (hhas i hahead) (hhas j hahead')
      (hgr ▸ hi) (hgr ▸ hj)

/-- A conflict at `LR1` is met at `LALR`, in the state of the same kernel. -/
theorem exists_conflict_lalr (hindexed : g.Indexed) {c : Conflict}
    (hc : c ∈ (build g .lr1).conflicts) :
    ∃ c' ∈ (build g .lalr).conflicts, c'.kind = c.kind ∧ c'.lookahead = c.lookahead ∧
      (build g .lr1).collapse (build g .lalr) c.state = some c'.state := by
  obtain ⟨t, ht, hclash⟩ :=
    clash_of_mem_conflicts (Or.inr (Or.inr (build_sound hindexed .lr1).strength_eq)) hc
  have hcols : (build g .lr1).CollapsesTo (build g .lalr) := build_collapsesTo hindexed .lr1 (by decide)
  obtain ⟨q', -, hcol⟩ := hcols.defined c.state hclash.lt
  obtain ⟨c', hc', hkind, hstate, hlook⟩ := (hclash.merged hindexed hcol).exists_conflict
    (Or.inr (Or.inl (build_sound hindexed .lalr).strength_eq))
  exact ⟨c', hc', hkind, hlook.trans ht.symm, hstate ▸ hcol⟩

/-- A conflict at `LALR` is met at `SLR`, in the same state before the same token. -/
theorem exists_conflict_slr (hg : g.WellFormed) {c : Conflict}
    (hc : c ∈ (build g .lalr).conflicts) :
    ∃ c' ∈ (build g .slr).conflicts, c'.kind = c.kind ∧ c'.lookahead = c.lookahead ∧
      c'.state = c.state := by
  obtain ⟨t, ht, hclash⟩ :=
    clash_of_mem_conflicts (Or.inr (Or.inl (build_sound hg.indexed .lalr).strength_eq)) hc
  obtain ⟨c', hc', hkind, hstate, hlook⟩ :=
    (hclash.slr hg).exists_conflict (Or.inl (build_sound hg.indexed .slr).strength_eq)
  exact ⟨c', hc', hkind, hlook.trans ht.symm, hstate⟩

/-- A conflict at `SLR` is one of the same state at `LR0`. -/
theorem exists_conflict_lr0 (hg : g.WellFormed) {c : Conflict}
    (hc : c ∈ (build g .slr).conflicts) :
    ∃ c' ∈ (build g .lr0).conflicts, c'.kind = c.kind ∧ c'.state = c.state := by
  obtain ⟨t, -, hclash⟩ := clash_of_mem_conflicts (Or.inl (build_sound hg.indexed .slr).strength_eq) hc
  exact hclash.plain hg

/-- There are no conflicts if each of them is met where there are none. -/
theorem eq_nil_of_conflicts_met {cs cs' : List Conflict} (hmeets : ∀ c ∈ cs, ∃ c', c' ∈ cs')
    (h : cs' = []) : cs = [] := by
  rw [List.eq_nil_iff_forall_not_mem]
  intro c hc
  obtain ⟨c', hc'⟩ := hmeets c hc
  rw [h] at hc'
  cases hc'

end Automaton

open Automaton in
/-- **Conflicts only disappear as the strength grows.**  Before what may come after an item at
    `LR1` it is reduced at `LALR` as well, and that follows its head; so a conflict at `LR1` is
    met at `LALR` in the state of the same kernel, from there at `SLR` in the same state before
    the same token, and from there at `LR0` in the same state. -/
theorem conflicts_shrink {code : List CodeNode} {g : Grammar} (h : Grammar.read code = .ok g) :
    (∀ q q' i t, (build g .lr1).collapse (build g .lalr) q = some q' →
      ((build g .lr1).Ahead q i t → (build g .lalr).Ahead q' i t) ∧
      ((build g .lalr).Ahead q' i t →
        t ∈ ((g.followSets g.firstSets).of (g.head i.prod)).keys)) ∧
    (∀ c ∈ (build g .lr1).conflicts, ∃ c' ∈ (build g .lalr).conflicts, c'.kind = c.kind ∧
      c'.lookahead = c.lookahead ∧
      (build g .lr1).collapse (build g .lalr) c.state = some c'.state) ∧
    (∀ c ∈ (build g .lalr).conflicts, ∃ c' ∈ (build g .slr).conflicts, c'.kind = c.kind ∧
      c'.lookahead = c.lookahead ∧ c'.state = c.state) ∧
    (∀ c ∈ (build g .slr).conflicts, ∃ c' ∈ (build g .lr0).conflicts, c'.kind = c.kind ∧
      c'.state = c.state) ∧
    ((build g .lr0).conflicts = [] → (build g .slr).conflicts = []) ∧
    ((build g .slr).conflicts = [] → (build g .lalr).conflicts = []) ∧
    ((build g .lalr).conflicts = [] → (build g .lr1).conflicts = []) := by
  have hg := Grammar.read_wellFormed h
  have hindexed := hg.indexed
  refine ⟨fun q q' i t hcol => ⟨ahead_merged hindexed hcol, ahead_follows hg⟩,
    fun c => exists_conflict_lalr hindexed, fun c => exists_conflict_slr hg,
    fun c => exists_conflict_lr0 hg, eq_nil_of_conflicts_met ?_, eq_nil_of_conflicts_met ?_, eq_nil_of_conflicts_met ?_⟩
  · intro c hc
    exact (exists_conflict_lr0 hg hc).imp fun c' h => h.1
  · intro c hc
    exact (exists_conflict_slr hg hc).imp fun c' h => h.1
  · intro c hc
    exact (exists_conflict_lalr hindexed hc).imp fun c' h => h.1

/-- Numbers, one after the other, that are put together in every way. -/
def numberPairs : String :=
  "S -> S S\n   | NUMBER\n"

open Automaton in
set_option maxRecDepth 100000 in
/-- A pair in front of a number is a conflict at `LR1`, and so at every other strength. -/
theorem conflicts_shrink_numberPairs : ∃ g, Grammar.readText numberPairs = .ok g ∧
    ∃ c ∈ (build g .lr1).conflicts, c.lookahead = some Kind.number.num ∧
    ∃ c₁ ∈ (build g .lalr).conflicts, ∃ c₂ ∈ (build g .slr).conflicts,
    ∃ c₃ ∈ (build g .lr0).conflicts, c₁.kind = c.kind ∧ c₂.kind = c.kind ∧ c₃.kind = c.kind ∧
      c₂.lookahead = some Kind.number.num ∧ c₃.state = c₁.state := by
  obtain ⟨g, hg, htest⟩ := Grammar.exists_readText numberPairs (fun g =>
    (build g .lr1).conflicts.any fun c => decide (c.lookahead = some Kind.number.num))
    (by decide +kernel)
  obtain ⟨c, hc, hlook⟩ := List.any_eq_true.1 htest
  replace hlook := of_decide_eq_true hlook
  obtain ⟨-, hmerged, hfollow, hplain, -⟩ := conflicts_shrink hg
  obtain ⟨c₁, hc₁, hkind₁, hlook₁, -⟩ := hmerged c hc
  obtain ⟨c₂, hc₂, hkind₂, hlook₂, hstate₂⟩ := hfollow c₁ hc₁
  obtain ⟨c₃, hc₃, hkind₃, hstate₃⟩ := hplain c₂ hc₂
  refine ⟨g, hg, c, hc, hlook, c₁, hc₁, c₂, hc₂, c₃, hc₃, hkind₁, hkind₂.trans hkind₁, ?_, ?_, ?_⟩
  · rw [hkind₃, hkind₂, hkind₁]
  · rw [hlook₂, hlook₁, hlook]
  · rw [hstate₃, hstate₂]

end LayoutLR
