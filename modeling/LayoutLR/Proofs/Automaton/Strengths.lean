/-
  Layout-aware LR toolkit — the same grammar at different strengths.

  What a state does follows from its kernel: the items that come with it, its
  reduction, its layout and the kernels that its transitions lead to.  Below `LR1`
  the kernels are the same in the same order, and so are the states but for their
  lookahead sets; at `LR1` there may be several states of one kernel, and they
  fall together at `LALR`.

  * `State.Alike`: states that only differ in lookahead and in their numbers;
  * `Automaton.SameStates`: the same states in the same order;
  * `Automaton.CollapsesTo`: states that fall together by their kernels;
  * `strengths_share_states`: how the automata of a grammar are related.
-/
import LayoutLR.Automaton.Table
import LayoutLR.Proofs.Automaton.Skeleton
import LayoutLR.Proofs.Grammar.WellFormed

namespace LayoutLR

/-- States with the same items that do the same, whatever their lookahead sets are and
    wherever their transitions lead to. -/
structure State.Alike (s s' : State) : Prop where
  kernel : s.kernel.keys = s'.kernel.keys
  closure : s.closure.keys = s'.closure.keys
  reduce : s.reduce = s'.reduce
  precedence : s.precedence = s'.precedence
  startsLine : s.startsLine = s'.startsLine
  minPrefix : s.minPrefix = s'.minPrefix

namespace Automaton

variable {a b : Automaton} {g : Grammar} {strength strength' : Strength} {q q' : Nat} {s s' : State}
  {k : List Item}

/-! ## What a kernel determines -/

/-- Processed states of one kernel are alike. -/
theorem Sound.alike (h : a.Sound g strength) (h' : b.Sound g strength') (hp : a.Processed s)
    (hp' : b.Processed s') (hk : s.kernel.keys = s'.kernel.keys) : s.Alike s' := by
  have hgr : a.grammar = b.grammar := h.grammar_eq.trans h'.grammar_eq.symm
  have hcl : s.closure.keys = s'.closure.keys := by
    rw [h.keys_closure hp, h'.keys_closure hp', hk]
  have hred : s.reduce = s'.reduce := by
    rw [hp.reduce, hp'.reduce, hcl, hgr]
  constructor
  · exact hk
  · exact hcl
  · exact hred
  · rw [hp.precedence, hp'.precedence, hred, hgr]
  · rw [hp.startsLine, hp'.startsLine, hcl, hgr]
  · rw [hp.minPrefix, hp'.minPrefix, hk]

/-- The number of the state of a kernel. -/
def stateOf? (a : Automaton) (k : List Item) : Option Nat :=
  a.kernels.idxOf? k

/-- The number that the state of the same kernel has in another automaton. -/
def collapse (a b : Automaton) (q : Nat) : Option Nat :=
  a.kernels[q]?.bind b.stateOf?

theorem exists_stateOf? (hk : k ∈ a.kernels) : ∃ q, a.stateOf? k = some q := by
  refine Option.ne_none_iff_exists'.1 ?_
  intro hnone
  exact List.idxOf?_eq_none_iff.1 hnone hk

theorem kernel_of_stateOf? (h : a.stateOf? k = some q) : a.kernels[q]? = some k := by
  obtain ⟨hlt, hk, -⟩ := List.idxOf?_eq_some_iff.1 h
  rw [List.getElem?_eq_getElem hlt, hk]

/-- The state that falls together with another one has its kernel. -/
theorem kernel_of_collapse (h : a.collapse b q = some q') : b.kernels[q']? = a.kernels[q]? := by
  obtain ⟨k, hk, hq⟩ := Option.bind_eq_some_iff.1 h
  rw [kernel_of_stateOf? hq, hk]

theorem exists_of_collapse (h : a.collapse b q = some q') (hs : a.states[q]? = some s) :
    ∃ s', b.states[q']? = some s' ∧ s'.kernel.keys = s.kernel.keys := by
  have hk := kernel_of_collapse h
  rw [getElem?_kernels, getElem?_kernels, hs, Option.map_some] at hk
  exact Option.map_eq_some_iff.1 hk

/-- Where no kernel has two states, each state is the one of its kernel. -/
theorem collapse_self (hn : a.kernels.Nodup) (hq : q < a.states.size) :
    a.collapse a q = some q := by
  have hlt : q < a.kernels.length := by
    rw [length_kernels]
    exact hq
  obtain ⟨q', hq'⟩ := exists_stateOf? (a := a) (List.getElem_mem hlt)
  have hcol : a.collapse a q = some q' := by
    rw [collapse, List.getElem?_eq_getElem hlt, Option.bind_some, hq']
  rw [hcol, (List.getElem?_inj hlt hn).1 (kernel_of_collapse hcol).symm]

/-- Where a transition leads to, in terms of another automaton, is determined by the kernel. -/
theorem Sound.bind_goTo (h : a.Sound g strength) (hp : a.Processed s) (b : Automaton) (sym : Nat) :
    (s.goTo.find? sym).bind (a.collapse b) =
      if sym ∈ shifts g (bareClosure g s.kernel.keys).keys then
        b.stateOf? (target g (bareClosure g s.kernel.keys) sym).keys
      else none := by
  cases hgo : s.goTo.find? sym with
  | none =>
    have hnot := SortedMap.find?_eq_none_iff.1 hgo
    rw [h.mem_goTo hp] at hnot
    simp [hnot]
  | some j =>
    have hmem := (h.mem_goTo hp).1 (SortedMap.mem_keys_of_find? hgo)
    rw [if_pos hmem, Option.bind_some, collapse, h.goTo_kernel hp hgo, Option.bind_some]

theorem Processed.bind_goTo_self (hp : a.Processed s) (hn : a.kernels.Nodup) (sym : Nat) :
    (s.goTo.find? sym).bind (a.collapse a) = s.goTo.find? sym := by
  cases hgo : s.goTo.find? sym with
  | none => rfl
  | some j =>
    obtain ⟨s', hs', -⟩ := hp.edges sym j hgo
    exact collapse_self hn (Array.getElem?_eq_some_iff.1 hs').1

/-! ## Automata side by side -/

/-- The same states in the same order. -/
structure SameStates (a b : Automaton) : Prop where
  size : a.states.size = b.states.size
  alike : ∀ (q : Nat) (s s' : State), a.states[q]? = some s → b.states[q]? = some s' → s.Alike s'
  goTo : ∀ (q : Nat) (s s' : State), a.states[q]? = some s → b.states[q]? = some s' →
    s.goTo = s'.goTo

/-- Every state falls together with one that is alike, each state is met that way, and
    transitions lead to states that fall together. -/
structure CollapsesTo (a b : Automaton) : Prop where
  defined : ∀ q < a.states.size, ∃ q' < b.states.size, a.collapse b q = some q'
  onto : ∀ q' < b.states.size, ∃ q < a.states.size, a.collapse b q = some q'
  alike : ∀ (q q' : Nat) (s s' : State), a.collapse b q = some q' → a.states[q]? = some s →
    b.states[q']? = some s' → s.Alike s'
  goTo : ∀ (q q' : Nat) (s s' : State), a.collapse b q = some q' → a.states[q]? = some s →
    b.states[q']? = some s' → ∀ sym, (s.goTo.find? sym).bind (a.collapse b) = s'.goTo.find? sym

theorem SameStates.table_eq (h : a.SameStates b) (hg : a.grammar = b.grammar) :
    a.table = b.table := by
  have hrows : a.states.map (State.row a.grammar) = b.states.map (State.row b.grammar) := by
    refine Array.ext (by simp [h.size]) ?_
    intro q hq hq'
    have hs := Array.getElem?_eq_getElem (show q < a.states.size by simpa using hq)
    have hs' := Array.getElem?_eq_getElem (show q < b.states.size by simpa using hq')
    have halike := h.alike q _ _ hs hs'
    simp [State.row, hg, h.goTo q _ _ hs hs', halike.reduce, halike.startsLine, halike.minPrefix]
  rw [table, table, hrows, hg]

theorem CollapsesTo.size_le (h : a.CollapsesTo b) (hn : b.kernels.Nodup) :
    b.states.size ≤ a.states.size := by
  have hsub : b.kernels ⊆ a.kernels := by
    intro k hk
    obtain ⟨q', hq'⟩ := List.mem_iff_getElem?.1 hk
    obtain ⟨hlt, -⟩ := List.getElem?_eq_some_iff.1 hq'
    obtain ⟨q, -, hcol⟩ := h.onto q' (by rwa [length_kernels] at hlt)
    rw [kernel_of_collapse hcol] at hq'
    exact List.mem_of_getElem? hq'
  have hlen := (hn.subperm hsub).length_le
  rwa [length_kernels, length_kernels] at hlen

/-- States of one kernel in two complete automata are alike. -/
theorem alike_build (hindexed : g.Indexed) (hs : (build g strength).states[q]? = some s)
    (hs' : (build g strength').states[q']? = some s')
    (hk : (build g strength).kernels[q]? = (build g strength').kernels[q']?) : s.Alike s' := by
  rw [getElem?_kernels, getElem?_kernels, hs, hs'] at hk
  exact (build_sound hindexed strength).alike (build_sound hindexed strength')
    (build_processed hindexed hs)
    (build_processed hindexed hs') (Option.some.inj hk)

/-- No kernel has two states below `LR1`. -/
theorem kernels_nodup (hindexed : g.Indexed) (hl : strength ≠ .lr1) :
    (build g strength).kernels.Nodup := by
  rw [List.nodup_iff_getElem?_ne_getElem?]
  intro q q' hlt hq' heq
  rw [length_kernels] at hq'
  have hs := Array.getElem?_eq_getElem (Nat.lt_trans hlt hq')
  have hs' := Array.getElem?_eq_getElem hq'
  rw [getElem?_kernels, getElem?_kernels, hs, hs'] at heq
  have hsame : sameState strength ((build g strength).states[q]).kernel
      (build g strength).states[q'] = true := by
    simpa [sameState, hl] using (Option.some.inj heq).symm
  exact Nat.ne_of_lt hlt ((build_sound hindexed strength).distinct q q' _ _ hs hs' hsame)

/-- **Below `LR1` an automaton has the same states at every strength.** -/
theorem sameStates_build (hindexed : g.Indexed) (hl : strength ≠ .lr1)
    (hl' : strength' ≠ .lr1) : (build g strength).SameStates (build g strength') := by
  have hkernels := kernels_build hindexed hl hl'
  constructor
  · rw [← length_kernels, ← length_kernels, hkernels]
  · intro q s s' hs hs'
    exact alike_build hindexed hs hs' (by rw [hkernels])
  · intro q s s' hs hs'
    have hk := (alike_build hindexed hs hs' (by rw [hkernels])).kernel
    have hp := build_processed hindexed hs
    have hp' := build_processed hindexed hs'
    refine SortedMap.ext_find? ?_
    intro sym
    rw [← hp.bind_goTo_self (kernels_nodup hindexed hl),
      ← hp'.bind_goTo_self (kernels_nodup hindexed hl'), (build_sound hindexed strength).bind_goTo hp,
      (build_sound hindexed strength').bind_goTo hp', hk, stateOf?,
      stateOf?, hkernels]

theorem table_build (hindexed : g.Indexed) (hl : strength ≠ .lr1)
    (hl' : strength' ≠ .lr1) : (build g strength).table = (build g strength').table := by
  refine (sameStates_build hindexed hl hl').table_eq ?_
  rw [(build_sound hindexed strength).grammar_eq, (build_sound hindexed strength').grammar_eq]

/-- **The states of a grammar fall together by their kernels** where no kernel has two states. -/
theorem build_collapsesTo (hindexed : g.Indexed) (strength : Strength)
    (hl' : strength' ≠ .lr1) : (build g strength).CollapsesTo (build g strength') := by
  have hsame (k : List Item) :
      k ∈ (build g strength).kernels ↔ k ∈ (build g strength').kernels := by
    rw [mem_kernels_build hindexed, mem_kernels_build hindexed]
  have hdefined {a b : Automaton} (hsub : ∀ k ∈ a.kernels, k ∈ b.kernels) (q : Nat)
      (hq : q < a.states.size) : ∃ q' < b.states.size, a.collapse b q = some q' := by
    have hk := List.getElem?_eq_getElem (show q < a.kernels.length by rwa [length_kernels])
    obtain ⟨q', hq'⟩ := exists_stateOf? (hsub _ (List.mem_of_getElem? hk))
    obtain ⟨hlt, -⟩ := List.getElem?_eq_some_iff.1 (kernel_of_stateOf? hq')
    refine ⟨q', by rwa [length_kernels] at hlt, ?_⟩
    rw [collapse, hk, Option.bind_some, hq']
  constructor
  · exact hdefined fun k hk => (hsame k).1 hk
  · -- a state of the kernel falls together with the one that it was found from
    intro q' hq'
    obtain ⟨q, hq, hcol⟩ := hdefined (fun k hk => (hsame k).2 hk) q' hq'
    refine ⟨q, hq, ?_⟩
    rw [collapse, kernel_of_collapse hcol]
    exact collapse_self (kernels_nodup hindexed hl') hq'
  · intro q q' s s' hcol hs hs'
    exact alike_build hindexed hs hs' (kernel_of_collapse hcol).symm
  · intro q q' s s' hcol hs hs' sym
    have hk := (alike_build hindexed hs hs' (kernel_of_collapse hcol).symm).kernel
    have hp := build_processed hindexed hs
    have hp' := build_processed hindexed hs'
    rw [(build_sound hindexed strength).bind_goTo hp, hk,
      ← hp'.bind_goTo_self (kernels_nodup hindexed hl'),
      (build_sound hindexed strength').bind_goTo hp']

end Automaton

open Automaton in
/-- **The automata of a grammar at different strengths.**  Below `LR1` they have the same states
    in the same order, no two of one kernel, and the same table; the states at `LR1` fall
    together by their kernels to those at `LALR`. -/
theorem strengths_share_states {code : List CodeNode} {g : Grammar}
    (h : Grammar.read code = .ok g) :
    (∀ strength strength' : Strength, strength ≠ .lr1 → strength' ≠ .lr1 →
      (build g strength).SameStates (build g strength') ∧ (build g strength).kernels.Nodup ∧
      (build g strength).table = (build g strength').table) ∧
    (build g .lr1).CollapsesTo (build g .lalr) ∧
    (build g .lr0).states.size = (build g .lr05).states.size ∧
    (build g .lr05).states.size = (build g .slr).states.size ∧
    (build g .slr).states.size = (build g .lalr).states.size ∧
    (build g .lalr).states.size ≤ (build g .lr1).states.size := by
  have hindexed := (Grammar.read_wellFormed h).indexed
  have hcol : (build g .lr1).CollapsesTo (build g .lalr) := build_collapsesTo hindexed .lr1 (by decide)
  refine ⟨?_, hcol, ?_, ?_, ?_, hcol.size_le (kernels_nodup hindexed (by decide))⟩
  · intro strength strength' hl hl'
    exact ⟨sameStates_build hindexed hl hl', kernels_nodup hindexed hl, table_build hindexed hl hl'⟩
  · exact (sameStates_build hindexed (by decide) (by decide)).size
  · exact (sameStates_build hindexed (by decide) (by decide)).size
  · exact (sameStates_build hindexed (by decide) (by decide)).size

/-- Two heads with the same body, each in front of either token. -/
def crossedEndings : String :=
  "S -> NUMBER A NUMBER\n   | STRING B NUMBER\n   | NUMBER B STRING\n   | STRING A STRING\n" ++
    "A -> IDENTIFIER\nB -> IDENTIFIER\n"

open Automaton in
set_option maxRecDepth 100000 in
/-- Two states at `LR1` are one at `LALR`. -/
theorem strengths_share_states_crossedEndings : ∃ g, Grammar.readText crossedEndings = .ok g ∧
    (build g .lr1).states.size = (build g .lalr).states.size + 1 ∧
    (build g .lr1).CollapsesTo (build g .lalr) ∧
    (build g .lr0).SameStates (build g .lalr) ∧ (build g .lr0).table = (build g .lalr).table := by
  obtain ⟨g, hg, htest⟩ := Grammar.exists_readText crossedEndings (fun g =>
    (build g .lr1).states.size == (build g .lalr).states.size + 1) (by decide +kernel)
  obtain ⟨hbelow, hcol, -⟩ := strengths_share_states hg
  obtain ⟨hsame, -, htable⟩ := hbelow .lr0 .lalr (by decide) (by decide)
  exact ⟨g, hg, beq_iff_eq.1 htest, hcol, hsame, htable⟩

end LayoutLR
