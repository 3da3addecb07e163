/-
  Layout-aware LR toolkit — what may come after an item.

  The lookahead of an item is carried along its transitions, and the productions
  that it waits for have in theirs what the rest of the item begins with.  Without
  conflicts, and with one complete item in a state at most, the table does what
  the lookahead asks for although it does not have it.

  * `Table.Decides`: a table that does the right thing before each token;
  * `Automaton.Sound.decides`: the table of an automaton without conflicts.
-/
import LayoutLR.Proofs.Automaton.Conflict
import LayoutLR.Proofs.Automaton.Termination
import LayoutLR.Proofs.Grammar.Beginnings

namespace LayoutLR

/-- What may come after the symbol that an item waits for: the beginning of the rest, and what
    may come after the item where the rest derives the empty text. -/
def Item.Next (g : Grammar) (i : Item) (ahead : Nat → Prop) (x : Nat) : Prop :=
  x ∈ (g.firstOfSeq g.firstSets (i.rest g)).1.keys ∨
    (g.firstOfSeq g.firstSets (i.rest g)).2 = true ∧ ahead x

/-- A table that does before each token what the items of a state ask for. -/
structure Table.Decides (g : Grammar) (t : Table) (has : Nat → Item → Prop)
    (ahead : Nat → Item → Nat → Prop) : Prop where
  start : has 0 ⟨0, 0⟩
  goto : ∀ q i sym, has q i → i.next? g = some sym →
    ∃ q', t.goto? q sym = some q' ∧ has q' i.advance ∧ ∀ x, ahead q i x → ahead q' i.advance x
  predict : ∀ q i p, has q i → p < g.productions.size → i.next? g = some (g.head p) →
    has q ⟨p, 0⟩ ∧ ∀ x, x ≠ Kind.newline.num → i.Next g (ahead q i) x → ahead q ⟨p, 0⟩ x
  reduce : ∀ q p x, x ≠ Kind.newline.num → ahead q ⟨p, (g.body p).length⟩ x →
    t.goto? q x = none ∧ t.reduce? q = some (g.reductionBy p)
  accept : ∀ q, has q ⟨0, (g.body 0).length⟩ →
    t.goto? q Kind.eof.num = none ∧ t.reduce? q = some (g.reductionBy 0)

theorem Strength.LooksAhead.usesLookahead {strength : Strength} (h : strength.LooksAhead)
    (hslr : strength ≠ .slr) : strength.usesLookahead = true := by
  rcases h with h | rfl | rfl
  · exact absurd h hslr
  · rfl
  · rfl

theorem Basis.first_of {strength : Strength} (h : strength.LooksAhead) (g : Grammar) :
    (Basis.of g strength).first = g.firstSets := by
  have hrank : Strength.slr.rank ≤ strength.rank := by
    rcases h with rfl | rfl | rfl <;> decide
  simp [Basis.of, hrank]

theorem Basis.follow_of (g : Grammar) : (Basis.of g .slr).follow = g.followSets g.firstSets := by
  rw [← Basis.first_of (Or.inl rfl) g]
  simp [Basis.of]

namespace Automaton

variable {a : Automaton} {g : Grammar} {strength : Strength} {q : Nat} {s : State} {i : Item}

/-! ## Closures of complete states -/

theorem Sound.processed_of_complete (h : a.Sound g strength) (hs : a.states[q]? = some s)
    (hc : s.complete = true) : a.Processed s := by
  rcases h.ready q s hs with hu | hp
  · rw [hu] at hc
    cases hc
  · exact hp

/-- The closure of a complete state is that of its kernel. -/
theorem Processed.isClosure (h : a.Processed s) (hc : s.complete = true) :
    a.basis.IsClosure (a.items s.kernel) (a.items s.closure) := by
  obtain ⟨kernel, -, hcl, hkernel⟩ := h.closed
  rw [← hkernel hc]
  exact hcl

/-- An item of the kernel is in the closure, with at least its set. -/
theorem Processed.find?_kernel (h : a.Processed s) (hc : s.complete = true) {x : Handle}
    (hx : s.kernel.find? i = some x) :
    ∃ y, s.closure.find? i = some y ∧ ∀ t ∈ (a.set x).keys, t ∈ (a.set y).keys := by
  obtain ⟨set, hset, hsub⟩ := (h.isClosure hc).kernel_sub (i, a.set x) (mem_items.2 ⟨x, hx, rfl⟩)
  obtain ⟨y, hy, rfl⟩ := mem_items.1 hset
  exact ⟨y, hy, hsub⟩

theorem has_start (h : a.Sound g strength)
    (hc : ∀ (q : Nat) (s : State), a.states[q]? = some s → s.complete = true) :
    a.Has 0 ⟨0, 0⟩ := by
  obtain ⟨s, hs, hkeys⟩ := h.start
  have hp := h.processed_of_complete hs (hc 0 s hs)
  obtain ⟨x, hx⟩ := SortedMap.exists_find?_of_mem_keys (m := s.kernel) (k := ⟨0, 0⟩)
    (by simp [hkeys])
  obtain ⟨y, hy, -⟩ := hp.find?_kernel (hc 0 s hs) hx
  exact ⟨s, hs, SortedMap.mem_keys_of_find? hy⟩

/-! ## Transitions -/

theorem suppressed_eq_false (hprec : ∀ sym, g.precedenceOf sym = none)
    (reduce : Option Precedence) (sym : Nat) : suppressed g reduce sym = false := by
  unfold suppressed
  rw [hprec]
  cases reduce <;> rfl

/-- A transition carries the items that wait for its symbol along, with their lookahead. -/
theorem Sound.carries (h : a.Sound g strength)
    (hc : ∀ (q : Nat) (s : State), a.states[q]? = some s → s.complete = true) {sym q' : Nat}
    (hgo : a.table.goto? q sym = some q') (hi : a.Has q i) (hnext : i.next? g = some sym) :
    a.Has q' i.advance ∧ ∀ x, a.Ahead q i x → a.Ahead q' i.advance x := by
  have hgr : a.grammar = g := h.grammar_eq
  obtain ⟨s, hs, hfind⟩ := goto?_table.1 hgo
  have hp := h.processed_of_goTo hs hfind
  obtain ⟨s', hs', hgrows⟩ := hp.edges sym q' hfind
  have hp' := h.processed_of_complete hs' (hc q' s' hs')
  -- the item behind the transition is in the kernel there
  have hcarry (x : Handle) (hx : s.closure.find? i = some x) :
      ∃ y, s'.closure.find? i.advance = some y ∧ ∀ t ∈ (a.set x).keys, t ∈ (a.set y).keys := by
    rw [hgr] at hgrows
    obtain ⟨y, hy, hsub⟩ := hgrows.sets i.advance x (find?_target.2 ⟨i, hx, hnext, rfl⟩)
    obtain ⟨z, hz, hsub'⟩ := hp'.find?_kernel (hc q' s' hs') hy
    exact ⟨z, hz, fun t ht => hsub' t (hsub t ht)⟩
  constructor
  · obtain ⟨s₁, hs₁, hmem⟩ := hi
    obtain rfl := Option.some.inj (hs.symm.trans hs₁)
    obtain ⟨x, hx⟩ := SortedMap.exists_find?_of_mem_keys hmem
    obtain ⟨y, hy, -⟩ := hcarry x hx
    exact ⟨s', hs', SortedMap.mem_keys_of_find? hy⟩
  · rintro t ⟨s₁, x, hs₁, hx, ht⟩
    obtain rfl := Option.some.inj (hs.symm.trans hs₁)
    obtain ⟨y, hy, hsub⟩ := hcarry x hx
    refine ⟨s', y, hs', hy, ?_⟩
    unfold reduceLookahead at ht ⊢
    by_cases hslr : a.strength = .slr
    · rw [if_pos hslr] at ht ⊢
      exact ht
    · rw [if_neg hslr] at ht ⊢
      exact hsub t ht

/-- Without precedence a state has a transition on what its items wait for, and it carries the
    lookahead along. -/
theorem Sound.exists_goto (h : a.Sound g strength)
    (hc : ∀ (q : Nat) (s : State), a.states[q]? = some s → s.complete = true)
    (hprec : ∀ sym, g.precedenceOf sym = none) {sym : Nat} (hi : a.Has q i)
    (hnext : i.next? g = some sym) :
    ∃ q', a.table.goto? q sym = some q' ∧ a.Has q' i.advance ∧
      ∀ x, a.Ahead q i x → a.Ahead q' i.advance x := by
  have hgr : a.grammar = g := h.grammar_eq
  obtain ⟨s, hs, hmem⟩ := hi
  have hp := h.processed_of_mem hs hmem
  have hsym : sym ∈ s.goTo.keys := by
    rw [hp.symbols, hgr]
    exact ⟨mem_nextSymbols.2 ⟨i, hmem, hnext⟩, suppressed_eq_false hprec _ _⟩
  obtain ⟨q', hq'⟩ := SortedMap.exists_find?_of_mem_keys hsym
  have hgo := goto?_table.2 ⟨s, hs, hq'⟩
  exact ⟨q', hgo, h.carries hc hgo ⟨s, hs, hmem⟩ hnext⟩

/-! ## Predictions -/

/-- What follows a symbol of a body anywhere. -/
theorem mem_follow (hg : g.WellFormed) (hl : strength = .slr) (hv : Valid g i) {sym x : Nat}
    (hnext : i.next? g = some sym)
    (hx : i.Next g (fun x => x ∈ ((Basis.of g strength).follow.of (g.head i.prod)).keys) x) :
    x ∈ ((Basis.of g strength).follow.of sym).keys := by
  have hprod : i.prod < g.productions.size :=
    hv.prod.elim id fun hzero => hzero ▸ hg.indexed.productions_pos
  have hget := Array.getElem?_eq_getElem hprod
  have hmem : g.productions[i.prod] ∈ g.productions := Array.getElem_mem hprod
  have hbody : g.body i.prod = g.productions[i.prod].body := by simp [Grammar.body, hget]
  have hhead : g.head i.prod = g.productions[i.prod].head := by simp [Grammar.head, hget]
  have hsym : sym < g.symbols.size :=
    (hg.body i.prod sym (List.mem_of_getElem? hnext)).elim Grammar.isTerminal_lt
      Grammar.isNonterminal_lt
  have hsplit : g.productions[i.prod].body = (g.body i.prod).take i.dot ++ sym :: i.rest g := by
    obtain ⟨hlt, hget⟩ := List.getElem?_eq_some_iff.1 hnext
    rw [← hbody, Item.rest, ← hget, List.cons_getElem_drop_succ, List.take_append_drop]
  subst hl
  rw [Basis.follow_of] at hx ⊢
  have hfirst := Grammar.firstSets_within hg.indexed
  rcases hx with hx | ⟨hempty, hx⟩
  · exact Grammar.followSets_inside hfirst hmem hsplit hsym x hx
  · rw [hhead] at hx
    exact Grammar.followSets_end hfirst hmem hsplit hsym (Grammar.firstOfSeq_empty_iff.1 hempty) x hx

/-- Where an item waits for a head, its productions may start, with what may come after the
    head. -/
theorem Sound.predict (h : a.Sound g strength) (hg : g.WellFormed) (hl : strength.LooksAhead)
    (hc : ∀ (q : Nat) (s : State), a.states[q]? = some s → s.complete = true) {p : Nat}
    (hi : a.Has q i) (hp : p < g.productions.size) (hnext : i.next? g = some (g.head p)) :
    a.Has q ⟨p, 0⟩ ∧ ∀ x, x ≠ Kind.newline.num → i.Next g (a.Ahead q i) x → a.Ahead q ⟨p, 0⟩ x := by
  have hst : a.strength = strength := h.strength_eq
  have hgr : a.grammar = g := h.grammar_eq
  obtain ⟨s, hs, hmem⟩ := hi
  have hproc := h.processed_of_mem hs hmem
  have hvalid := hproc.valid h.toShaped hs hmem
  have hcl := hproc.isClosure (hc q s hs)
  rw [h.basis] at hcl
  obtain ⟨y, hy⟩ := SortedMap.exists_find?_of_mem_keys hmem
  obtain ⟨set, hset, hsub⟩ := hcl.closed i _ (mem_items.2 ⟨y, hy, rfl⟩) p hp hnext (hg.head p hp)
  obtain ⟨z, hz, rfl⟩ := mem_items.1 hset
  -- the lookahead of `i` is that of its handle
  have hahead (x : Nat) (hx : a.Ahead q i x) : x ∈ (a.reduceLookahead i y).keys := by
    obtain ⟨s₁, y₁, hs₁, hy₁, hx⟩ := hx
    obtain rfl := Option.some.inj (hs.symm.trans hs₁)
    obtain rfl := Option.some.inj (hy.symm.trans hy₁)
    exact hx
  refine ⟨⟨s, hs, SortedMap.mem_keys_of_find? hz⟩, fun x hne hx => ⟨s, z, hs, hz, ?_⟩⟩
  replace hx : i.Next g (fun x => x ∈ (a.reduceLookahead i y).keys) x :=
    hx.imp id fun hx => ⟨hx.1, hahead x hx.2⟩
  unfold reduceLookahead at hx ⊢
  rw [hst, hgr, h.basis] at hx
  rw [hst, hgr, h.basis]
  by_cases hslr : strength = .slr
  · rw [if_pos hslr]
    simp only [if_pos hslr] at hx
    exact mem_follow hg hslr hvalid hnext hx
  · rw [if_neg hslr]
    simp only [if_neg hslr] at hx
    refine hsub x (Basis.mem_lookahead.2 ⟨hl.usesLookahead hslr, ?_, fun hline => hne hline.2⟩)
    rw [Basis.first_of hl]
    exact hx

/-! ## Reductions -/

/-- A state with one complete item at most reduces it. -/
theorem Sound.reduce_of_complete (h : a.Sound g strength) (hs : a.states[q]? = some s)
    (hone : (completeItems g s).length ≤ 1) {p : Nat}
    (hi : (⟨p, (g.body p).length⟩ : Item) ∈ s.closure.keys) :
    a.table.reduce? q = some (g.reductionBy p) := by
  have hgr : a.grammar = g := h.grammar_eq
  have hproc := h.processed_of_mem hs hi
  have hnone : (⟨p, (g.body p).length⟩ : Item).next? g = none := by simp [Item.next?]
  obtain ⟨p', hp'⟩ := exists_reduction (g := g) hi hnone
  obtain ⟨j, hj, hjnext, rfl⟩ := reduction_mem hp'
  have hcomplete (k : Item) (hk : k ∈ s.closure.keys) (hknext : k.next? g = none) :
      ∃ x, (k, x) ∈ completeItems g s := by
    obtain ⟨x, hx⟩ := SortedMap.exists_find?_of_mem_keys hk
    exact ⟨x, mem_completeItems.2
      ⟨hx, (hproc.valid h.toShaped hs hk).isComplete_iff.2 hknext⟩⟩
  obtain ⟨x, hx⟩ := hcomplete _ hi hnone
  obtain ⟨y, hy⟩ := hcomplete j hj hjnext
  have heq : (j, y) = (⟨p, (g.body p).length⟩, x) := by
    generalize completeItems g s = l at hone hx hy
    match l, hone with
    | [e], _ => rw [List.mem_singleton.1 hx, List.mem_singleton.1 hy]
    | [], _ => cases hx
  obtain ⟨rfl, -⟩ := Prod.mk.inj heq
  refine reduce?_table.2 ⟨s, p, hs, ?_, by rw [hgr]⟩
  rw [hproc.reduce, hgr]
  exact hp'

/-- **Without conflicts the table does what the lookahead asks for.** -/
theorem Sound.decides (h : a.Sound g strength) (hg : g.WellFormed) (hl : strength.LooksAhead)
    (hc : ∀ (q : Nat) (s : State), a.states[q]? = some s → s.complete = true)
    (hprec : ∀ sym, g.precedenceOf sym = none) (hconf : a.conflicts = [])
    (hone : ∀ s ∈ a.states, (completeItems g s).length ≤ 1)
    (hend : ∀ q, a.Has q ⟨0, (g.body 0).length⟩ → a.table.goto? q Kind.eof.num = none) :
    a.table.Decides g a.Has a.Ahead := by
  have hst : a.strength = strength := h.strength_eq
  have hgr : a.grammar = g := h.grammar_eq
  refine ⟨has_start h hc, fun q i sym => h.exists_goto hc hprec, fun q i p => h.predict hg hl hc,
    fun q p x hne hx => ?_, fun q hq => ?_⟩
  · obtain ⟨s, y, hs, hy, hx⟩ := hx
    have hmem := SortedMap.mem_keys_of_find? hy
    refine ⟨?_, h.reduce_of_complete hs (hone s (Array.mem_of_getElem? hs)) hmem⟩
    rw [Option.eq_none_iff_forall_ne_some]
    intro q' hq'
    obtain ⟨s₁, hs₁, hfind⟩ := goto?_table.1 hq'
    obtain rfl := Option.some.inj (hs.symm.trans hs₁)
    have hcomplete : (⟨p, (g.body p).length⟩, y) ∈ completeItems a.grammar s := by
      rw [hgr]
      exact mem_completeItems.2 ⟨hy, by simp [Item.isComplete]⟩
    have hres := resolved_of_goTo (hst ▸ hl) hconf hs hcomplete hx hne
      (SortedMap.mem_keys_of_find? hfind)
    rw [resolved, hgr, hprec] at hres
    simp at hres
  · obtain ⟨s, hs, hmem⟩ := hq
    exact ⟨hend q ⟨s, hs, hmem⟩, h.reduce_of_complete hs (hone s (Array.mem_of_getElem? hs)) hmem⟩

end Automaton

end LayoutLR
