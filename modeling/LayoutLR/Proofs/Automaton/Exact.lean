/-
  Layout-aware LR toolkit — the kernels behind the transitions at `LR1`.

  At `LR1` a state is taken for the one of a kernel only if the lookahead sets are
  the same.  So nothing is merged, and the kernel behind a transition has the sets
  of the items that it comes from and no more.

  * `Automaton.Leads`, `Automaton.Exact`: transitions that lead to what they are for;
  * `Automaton.build_exact`: the transitions at `LR1`;
  * `Automaton.mem_kernel_behind`: what may come after an item behind a transition.
-/
import LayoutLR.Proofs.Automaton.Hierarchy

namespace LayoutLR

namespace Automaton

variable {a b : Automaton} {g : Grammar} {i q q' : Nat} {s : State} {m closure : ItemMap Handle}
  {goTo : SortedMap Nat Nat}

/-- The kernels behind transitions are those of the items that wait for the symbols. -/
def Leads (a : Automaton) (closure : ItemMap Handle) (goTo : SortedMap Nat Nat) : Prop :=
  ∀ sym j, goTo.find? sym = some j → ∃ s, a.states[j]? = some s ∧
    s.kernel.entries = (target a.grammar closure sym).entries

/-- All transitions lead to such kernels. -/
def Exact (a : Automaton) : Prop :=
  ∀ (q : Nat) (s : State), a.states[q]? = some s → a.Leads s.closure s.goTo

/-- The states of an automaton are there later on, with the same kernels. -/
def KeepsKernels (a b : Automaton) : Prop :=
  ∀ (j : Nat) (s : State), a.states[j]? = some s →
    ∃ s', b.states[j]? = some s' ∧ s'.kernel = s.kernel

theorem SameKernels.keepsKernels (h : a.SameKernels b) : a.KeepsKernels b := by
  intro j s hs
  obtain ⟨s', hs', hk⟩ := h.symm.get hs
  exact ⟨s', hs', hk.symm⟩

theorem Continues.keepsKernels (h : a.Continues b) (hl : a.strength ≠ .lalr) :
    a.KeepsKernels b := by
  intro j s hs
  obtain ⟨s', hs', hw⟩ := h.states j s hs
  exact ⟨s', hs', congrArg State.kernel (hw.still hl)⟩

theorem Leads.later (h : a.Leads closure goTo) (hb : b.basis = a.basis) (hk : a.KeepsKernels b) :
    b.Leads closure goTo := by
  intro sym j hj
  obtain ⟨s, hs, hentries⟩ := h sym j hj
  obtain ⟨s', hs', hkernel⟩ := hk j s hs
  refine ⟨s', hs', ?_⟩
  rw [hkernel, hentries, grammar, grammar, hb]

/-! ## Steps -/

/-- At `LR1` the state that is found or made has the kernel itself. -/
theorem addState_exact (hl : a.strength = .lr1) (m : ItemMap Handle) :
    ∃ s, (a.addState m).2.states[(a.addState m).1]? = some s ∧ s.kernel.entries = m.entries := by
  unfold addState
  split
  · rename_i i hi
    obtain ⟨hlt, hsame, -⟩ := Array.findIdx?_eq_some_iff_getElem.1 hi
    have hne : a.strength ≠ .lalr := by
      rw [hl]
      decide
    simp only [if_neg hne]
    exact ⟨_, Array.getElem?_eq_getElem hlt, (sameState_spec hsame).2 hl⟩
  · exact ⟨{ kernel := m }, by simp, rfl⟩

theorem leads_foldl (h : a.Shaped g .lr1) (hc : a.Covers closure)
    (hvalid : ∀ k ∈ closure.keys, Valid g k) (syms : List Nat)
    (hsyms : ∀ sym ∈ syms, sym ∈ nextSymbols g closure.keys) :
    (syms.foldl (addTransition closure) (a, ∅)).1.Leads closure
      (syms.foldl (addTransition closure) (a, ∅)).2 := by
  induction syms using List.reverseRecOn with
  | nil =>
    intro sym j hj
    simp at hj
  | append_singleton syms sym ih =>
    have hsyms' : ∀ sym' ∈ syms, sym' ∈ nextSymbols g closure.keys := by
      intro sym' h'
      exact hsyms sym' (by simp [h'])
    have hlinked := linked_foldl h hc hvalid syms hsyms'
    have hleads := ih hsyms'
    rw [List.foldl_append, List.foldl_cons, List.foldl_nil]
    generalize syms.foldl (addTransition closure) (a, ∅) = r at hlinked hleads
    obtain ⟨b, goTo⟩ := r
    have hst : b.strength = .lr1 := hlinked.shaped.strength_eq
    have hcov : b.Covers (target b.grammar closure sym) :=
      (hc.target sym).extends hlinked.continues.basis hlinked.continues.pool
    have hadd := (addState_spec hlinked.shaped.covered hcov).continues
    have hold : (b.addState (target b.grammar closure sym)).2.Leads closure goTo := by
      refine hleads.later hadd.basis (hadd.keepsKernels ?_)
      rw [hst]
      decide
    intro sym' j hj
    simp only [Automaton.addTransition, SortedMap.find?_eq_some_iff, SortedMap.mem_entries_insert]
      at hj
    rcases hj with hj | ⟨rfl, rfl, -⟩
    · exact hold sym' j (SortedMap.find?_eq_some_iff.2 hj)
    · obtain ⟨s, hs, hentries⟩ := addState_exact hst (target b.grammar closure sym')
      refine ⟨s, hs, ?_⟩
      rw [hentries]
      exact congrArg (fun basis : Basis => (target basis.grammar closure sym').entries)
        hadd.basis.symm

/-- Processing a state keeps the transitions exact. -/
theorem Exact.process (he : a.Exact) (h : a.Sound g .lr1) (hs : a.states[i]? = some s) :
    (a.process i).Exact := by
  obtain ⟨hx, hcov, -⟩ := h.closureOf hs
  have hl := h.linked hs
  have hgr : a.grammar = g := h.grammar_eq
  have hmarked := a.marked_sameKernels i s
  have hne : (a.marked i s).strength ≠ .lalr := by
    rw [show (a.marked i s).strength = .lr1 from h.strength_eq]
    decide
  have hsame := (h.process_extends hs).2.keepsKernels
  have hbasis := basis_process hs
  intro j t ht
  rw [process_eq hs, states_update] at ht
  split at ht
  · -- the state that was processed
    obtain ⟨u, hu, rfl⟩ := Option.map_eq_some_iff.1 ht
    refine Leads.later ?_ hbasis hsame
    refine leads_foldl (h.sameKernels hmarked rfl hx) hcov (h.valid_closureOf hs) _ ?_
    intro sym hsym
    rw [← hgr]
    exact List.mem_of_mem_filter hsym
  · -- another state is as it was, or new
    rename_i hij
    rcases hl.fresh j t ht with hlt | hfresh
    · have hget := Array.getElem?_eq_getElem (show j < a.states.size by simpa [marked] using hlt)
      obtain ⟨t', ht', hw⟩ := hl.continues.states j _
        (by rw [marked, states_update, if_neg hij]; exact hget)
      obtain rfl := Option.some.inj (ht'.symm.trans ht)
      rw [hw.still hne]
      have hleads := (he j _ hget).later (b := a.marked i s) rfl hmarked.keepsKernels
      exact (hleads.later hl.continues.basis (hl.continues.keepsKernels hne)).later hbasis hsame
    · rw [hfresh]
      intro sym k hk
      simp at hk

theorem completeAll_exact : ∀ (n : Nat) (a : Automaton), a.Sound g .lr1 → a.Exact →
    (completeAll n a).Exact
  | 0, _, _, he => he
  | n + 1, a, h, he => by
    unfold completeAll
    split
    · exact he
    · rename_i i hi
      obtain ⟨hlt, -, -⟩ := Array.findIdx?_eq_some_iff_getElem.1 hi
      have hget := Array.getElem?_eq_getElem hlt
      exact completeAll_exact n _ (process_sound h hget) (he.process h hget)

/-- **At `LR1` transitions lead to the kernels that they are for**, sets included. -/
theorem build_exact (hindexed : g.Indexed) : (build g .lr1).Exact := by
  refine completeAll_exact _ _ (initial_sound hindexed .lr1) ?_
  intro q s hs sym j hj
  rw [initial_eq] at hs
  obtain ⟨hlt, rfl⟩ := Array.getElem?_eq_some_iff.1 hs
  obtain rfl : q = 0 := by simpa using hlt
  simp at hj

/-! ## What may come next -/

/-- Behind a transition at `LR1`, what may come after an item of the kernel could come after it
    before. -/
theorem mem_kernel_behind (hindexed : g.Indexed) {sym t : Nat} {k : Item} {s' : State}
    (hs : (build g .lr1).states[q]? = some s) (hs' : (build g .lr1).states[q']? = some s')
    (hgo : s.goTo.find? sym = some q') (ht : t ∈ ((build g .lr1).setOf s'.kernel k).keys) :
    ∃ j, k = j.advance ∧ j.next? g = some sym ∧ t ∈ ((build g .lr1).setOf s.closure j).keys := by
  obtain ⟨s₁, hs₁, hentries⟩ := build_exact hindexed q s hs sym q' hgo
  obtain rfl := Option.some.inj (hs'.symm.trans hs₁)
  obtain ⟨x, hx, htx⟩ := mem_setOf.1 ht
  rw [SortedMap.find?_eq_some_iff, hentries, ← SortedMap.find?_eq_some_iff,
    (build_sound hindexed .lr1).grammar_eq] at hx
  obtain ⟨j, hj, hnext, rfl⟩ := find?_target.1 hx
  exact ⟨j, rfl, hnext, mem_setOf.2 ⟨x, hj, htx⟩⟩

end Automaton

end LayoutLR
