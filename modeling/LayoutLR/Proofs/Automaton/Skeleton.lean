/-
  Layout-aware LR toolkit — states without their lookahead sets.

  Which items come with a kernel, which symbols lead on and to which kernels does
  not depend on lookahead sets.  So at every strength an automaton has the kernels
  that can be reached from the start item.  Below `LR1` a kernel belongs to one
  state, and the states are found breadth first: a state that is processed again
  leads to kernels that are known.

  * `Automaton.successors`: the kernels that a kernel leads to;
  * `Automaton.mem_kernels_build`: the kernels of an automaton are those that can
    be reached;
  * `Automaton.explore`, `Automaton.kernels_build`: the order in which they are found.
-/
import LayoutLR.Proofs.Automaton.Termination

namespace LayoutLR

namespace Automaton

variable {a b : Automaton} {g : Grammar} {strength : Strength} {i j n : Nat} {s s' : State}
  {m m' : ItemMap Handle} {k k' : List Item} {ks ks' : List (List Item)}

/-! ## Kernels -/

/-- The kernels of the states in order, without their sets. -/
def kernels (a : Automaton) : List (List Item) :=
  a.states.toList.map fun s => s.kernel.keys

theorem getElem?_kernels (a : Automaton) (j : Nat) :
    a.kernels[j]? = a.states[j]?.map fun s => s.kernel.keys := by
  simp [kernels]

theorem length_kernels (a : Automaton) : a.kernels.length = a.states.size := by
  simp [kernels]

theorem mem_kernels : k ∈ a.kernels ↔
    ∃ (j : Nat) (s : State), a.states[j]? = some s ∧ s.kernel.keys = k := by
  simp only [List.mem_iff_getElem?, getElem?_kernels, Option.map_eq_some_iff]

theorem SameKernels.kernels_eq (h : a.SameKernels b) : b.kernels = a.kernels := by
  refine List.ext_getElem? ?_
  intro j
  have := congrArg (Option.map SortedMap.keys) (h j)
  simpa [getElem?_kernels, Function.comp_def] using this

theorem kernels_merge (hs : a.states[i]? = some s) (hc : a.Covers s.kernel) (hm : a.Covers m) :
    (a.merge i m).kernels = a.kernels := by
  obtain ⟨p, m', grown, hmg, -, -, -, hstates⟩ := merge_eq hs hc hm
  refine List.ext_getElem? ?_
  intro j
  rw [getElem?_kernels, getElem?_kernels, hstates]
  split
  · rename_i hij
    rw [← hij, hs]
    simp [hmg.keys]
  · rfl

/-- A kernel is known already, or it comes last; it is known only once below `LR1`. -/
theorem kernels_addState (hc : a.Covered) (hm : a.Covers m) :
    m.keys ∈ a.kernels ∧ (a.addState m).2.kernels = a.kernels ∨
      (a.strength ≠ .lr1 → m.keys ∉ a.kernels) ∧
        (a.addState m).2.kernels = a.kernels ++ [m.keys] := by
  unfold addState
  split
  · rename_i i hi
    obtain ⟨hlt, hsame, -⟩ := Array.findIdx?_eq_some_iff_getElem.1 hi
    have hs := Array.getElem?_eq_getElem hlt
    refine Or.inl ⟨mem_kernels.2 ⟨i, _, hs, (sameState_spec hsame).1⟩, ?_⟩
    dsimp only
    split
    · exact kernels_merge hs (hc i _ hs) hm
    · rfl
  · rename_i hnone
    refine Or.inr ⟨?_, by simp [kernels]⟩
    intro hl hmem
    obtain ⟨j, s, hs, hk⟩ := mem_kernels.1 hmem
    have hnot := Array.findIdx?_eq_none_iff.1 hnone s (Array.mem_of_getElem? hs)
    simp [sameState, hl, hk] at hnot

/-! ## Where a kernel leads to -/

/-- The closure of a kernel, without lookahead. -/
def bareClosure (g : Grammar) (kernel : List Item) : ItemMap Handle :=
  (internItems ((Basis.of g .lr0).closure (kernel.map fun i => (i, ∅))) .new).1

theorem mem_bareClosure (hindexed : g.Indexed) (hn : k.Nodup) {item : Item} :
    item ∈ (bareClosure g k).keys ↔ item.ComesWith g k := by
  have hkeys : (k.map fun i => (i, (∅ : SymSet))).map Prod.fst = k := by
    simp [Function.comp_def]
  have hcl : (Basis.of g .lr0).IsClosure (k.map fun i => (i, ∅))
      ((Basis.of g .lr0).closure (k.map fun i => (i, ∅))) := by
    refine Basis.closure_isClosure (Basis.of_proper hindexed .lr0) (by rwa [hkeys]) ?_
    intro e he t ht
    obtain ⟨i, -, rfl⟩ := List.mem_map.1 he
    simp at ht
  obtain ⟨-, -, hmem⟩ := internItems_spec hcl.nodup .new
  have hiff := hcl.mem_iff (i := item)
  rw [hkeys] at hiff
  refine Iff.trans ?_ hiff
  constructor
  · intro hk
    obtain ⟨h, hh⟩ := SortedMap.exists_find?_of_mem_keys hk
    exact List.mem_map.2 ⟨(item, _), (hmem item _).2 ⟨h, hh, rfl⟩, rfl⟩
  · intro hk
    obtain ⟨⟨_, set⟩, he, rfl⟩ := List.mem_map.1 hk
    obtain ⟨h, hh, -⟩ := (hmem _ set).1 he
    exact SortedMap.mem_keys_of_find? hh

/-- A closure has the items that it has without lookahead. -/
theorem keys_closure {basis : Basis} (hindexed : basis.grammar.Indexed)
    {kernel : List (Item × SymSet)} (h : basis.IsClosure kernel (a.items m))
    (hn : (kernel.map Prod.fst).Nodup) :
    m.keys = (bareClosure basis.grammar (kernel.map Prod.fst)).keys := by
  refine SortedMap.keys_ext ?_
  intro item
  rw [mem_bareClosure hindexed hn, ← h.mem_iff, items_keys]

theorem keys_target (h : m.keys = m'.keys) (sym : Nat) :
    (target g m sym).keys = (target g m' sym).keys := by
  refine SortedMap.keys_ext ?_
  intro item
  rw [mem_keys_target, mem_keys_target, h]

/-- The kernels that transitions lead to, in the order of their symbols. -/
def successors (g : Grammar) (kernel : List Item) : List (List Item) :=
  (shifts g (bareClosure g kernel).keys).map fun sym => (target g (bareClosure g kernel) sym).keys

theorem mem_successors : k' ∈ successors g k ↔
    ∃ sym ∈ shifts g (bareClosure g k).keys, (target g (bareClosure g k) sym).keys = k' := by
  simp [successors]

theorem Shaped.keys_closureOf (h : a.Shaped g strength) (hs : a.states[i]? = some s) :
    (a.closureOf s).1.keys = (bareClosure g s.kernel.keys).keys := by
  obtain ⟨-, -, hcl⟩ := h.closureOf hs
  have hindexed : a.grammar.Indexed := h.grammar_eq ▸ h.indexed
  have hkeys := keys_closure hindexed hcl (by rw [items_keys]; exact s.kernel.keys_nodup)
  rw [items_keys] at hkeys
  rw [hkeys]
  exact congrArg (fun g => (bareClosure g s.kernel.keys).keys) h.grammar_eq

/-- Processing a state adds the kernels that it leads to. -/
theorem mem_kernels_process (h : a.Shaped g strength) (hs : a.states[i]? = some s) :
    k ∈ (a.process i).kernels ↔ k ∈ a.kernels ∨ k ∈ successors g s.kernel.keys := by
  have hkeys := h.keys_closureOf hs
  have hprocess := h.process_induction (P := fun syms b => ∀ k, k ∈ b.kernels ↔
    k ∈ a.kernels ∨ ∃ sym ∈ syms, (target g (a.closureOf s).1 sym).keys = k) hs (by simp)
    (fun syms b c _ hsame _ _ hb k => by rw [hsame.kernels_eq, hb])
    (fun syms sym b _ _ hb hcov ih k => by
      rcases kernels_addState hb.covered hcov with ⟨hmem, heq⟩ | ⟨-, heq⟩
      · rw [heq, ih]
        constructor
        · rintro (h | ⟨sym', hsym', h⟩)
          · exact Or.inl h
          · exact Or.inr ⟨sym', by simp [hsym'], h⟩
        · rintro (h | ⟨sym', hsym', rfl⟩)
          · exact Or.inl h
          · rcases List.mem_append.1 hsym' with hsym' | hsym'
            · exact Or.inr ⟨sym', hsym', rfl⟩
            · obtain rfl := List.mem_singleton.1 hsym'
              exact (ih _).1 hmem
      · rw [heq, List.mem_append, ih, List.mem_singleton, or_assoc]
        simp only [List.mem_append, List.mem_singleton]
        grind)
  rw [hprocess k, mem_successors, hkeys]
  simp only [keys_target hkeys]

/-! ## Kernels that can be reached -/

/-- The kernels that can be reached from the start item. -/
inductive Reached (g : Grammar) : List Item → Prop
  | start : Reached g [⟨0, 0⟩]
  | step {k k' : List Item} (h : Reached g k) (hk : k' ∈ successors g k) : Reached g k'

theorem kernels_initial (basis : Basis) : (initial basis).kernels = [[⟨0, 0⟩]] := by
  rw [initial_eq]
  rfl

theorem completeAll_reached : ∀ (n : Nat) (a : Automaton), a.Sound g strength →
    (∀ k ∈ a.kernels, Reached g k) → ∀ k ∈ (completeAll n a).kernels, Reached g k
  | 0, _, _, h => h
  | n + 1, a, hs, h => by
    unfold completeAll
    split
    · exact h
    · rename_i i hi
      obtain ⟨hlt, -, -⟩ := Array.findIdx?_eq_some_iff_getElem.1 hi
      have hget := Array.getElem?_eq_getElem hlt
      refine completeAll_reached n _ (process_sound hs hget) ?_
      intro k hk
      rcases (mem_kernels_process hs.toShaped hget).1 hk with hk | hk
      · exact h k hk
      · exact .step (h _ (mem_kernels.2 ⟨i, _, hget, rfl⟩)) hk

/-! ## Complete states -/

/-- The closure of a state has the items that it has without lookahead. -/
theorem Sound.keys_closure (h : a.Sound g strength) (hp : a.Processed s) :
    s.closure.keys = (bareClosure g s.kernel.keys).keys := by
  obtain ⟨kernel, hk, hcl, -⟩ := hp.closed
  have hindexed : a.grammar.Indexed := h.grammar_eq ▸ h.indexed
  have hkeys := Automaton.keys_closure hindexed hcl (by rw [hk]; exact s.kernel.keys_nodup)
  rw [hk] at hkeys
  rw [hkeys]
  exact congrArg (fun g => (bareClosure g s.kernel.keys).keys) h.grammar_eq

theorem Sound.mem_goTo (h : a.Sound g strength) (hp : a.Processed s) {sym : Nat} :
    sym ∈ s.goTo.keys ↔ sym ∈ shifts g (bareClosure g s.kernel.keys).keys := by
  rw [hp.symbols, h.grammar_eq, shifts, List.mem_filter, ← h.keys_closure hp, hp.precedence,
    hp.reduce, h.grammar_eq, reductionPrecedence]
  simp

/-- A transition leads to the kernel behind it. -/
theorem Sound.goTo_kernel (h : a.Sound g strength) (hp : a.Processed s) {sym : Nat}
    (hgo : s.goTo.find? sym = some j) :
    a.kernels[j]? = some (target g (bareClosure g s.kernel.keys) sym).keys := by
  obtain ⟨s', hs', hgrows⟩ := hp.edges sym j hgo
  rw [h.grammar_eq] at hgrows
  rw [getElem?_kernels, hs', Option.map_some, hgrows.keys, keys_target (h.keys_closure hp)]

theorem build_processed (hindexed : g.Indexed)
    (hs : (build g strength).states[i]? = some s) : (build g strength).Processed s := by
  rcases (build_sound hindexed strength).ready i s hs with hu | hp
  · have hc := build_complete hindexed hs
    rw [hu] at hc
    cases hc
  · exact hp

/-- **The kernels of an automaton are those that can be reached**, at every strength. -/
theorem mem_kernels_build (hindexed : g.Indexed) :
    k ∈ (build g strength).kernels ↔ Reached g k := by
  constructor
  · refine completeAll_reached _ _ (initial_sound hindexed strength) ?_ k
    intro k hk
    rw [kernels_initial, List.mem_singleton] at hk
    exact hk ▸ .start
  · intro h
    have hsound := build_sound hindexed strength
    induction h with
    | start =>
      obtain ⟨s, hs, hk⟩ := hsound.start
      exact mem_kernels.2 ⟨0, s, hs, hk⟩
    | step _ hk ih =>
      obtain ⟨j, s, hs, rfl⟩ := mem_kernels.1 ih
      have hp := build_processed hindexed hs
      obtain ⟨sym, hsym, rfl⟩ := mem_successors.1 hk
      obtain ⟨j', hj'⟩ := SortedMap.exists_find?_of_mem_keys ((hsound.mem_goTo hp).2 hsym)
      exact List.mem_of_getElem? (hsound.goTo_kernel hp hj')

/-! ## The order of the states -/

/-- A kernel is noted unless it is known. -/
def noteKernel (ks : List (List Item)) (k : List Item) : List (List Item) :=
  if k ∈ ks then ks else ks ++ [k]

theorem noteKernel_extends (ks' ks : List (List Item)) : ks <+: ks'.foldl noteKernel ks := by
  induction ks' generalizing ks with
  | nil => exact List.prefix_rfl
  | cons k ks' ih =>
    refine List.IsPrefix.trans ?_ (ih (noteKernel ks k))
    unfold noteKernel
    split
    · exact List.prefix_rfl
    · exact List.prefix_append ks [k]

theorem mem_foldl_noteKernel (hk : k ∈ ks') : k ∈ ks'.foldl noteKernel ks := by
  induction ks' generalizing ks with
  | nil => simp at hk
  | cons k' ks' ih =>
    rcases List.mem_cons.1 hk with rfl | hk
    · refine (noteKernel_extends ks' (noteKernel ks k)).subset ?_
      unfold noteKernel
      split <;> simp [*]
    · exact ih hk

theorem foldl_noteKernel_of_known (h : ∀ k ∈ ks', k ∈ ks) : ks'.foldl noteKernel ks = ks := by
  induction ks' with
  | nil => rfl
  | cons k ks' ih =>
    rw [List.foldl_cons, noteKernel, if_pos (h k (by simp))]
    exact ih fun k' hk' => h k' (by simp [hk'])

/-- The kernels that are known when those before number `n` have been looked at. -/
def explore (g : Grammar) : Nat → List (List Item)
  | 0 => [[⟨0, 0⟩]]
  | n + 1 =>
    match (explore g n)[n]? with
    | none => explore g n
    | some k => (successors g k).foldl noteKernel (explore g n)

theorem explore_extends (g : Grammar) (n : Nat) : explore g n <+: explore g (n + 1) := by
  rw [explore]
  split
  · exact List.prefix_rfl
  · exact noteKernel_extends _ _

/-- Where the kernels that have been looked at lead to is known. -/
theorem explore_closed {n i : Nat} (hi : i < n) (hk : (explore g n)[i]? = some k)
    (hk' : k' ∈ successors g k) : k' ∈ explore g n := by
  induction n with
  | zero => omega
  | succ n ih =>
    have hknown (hlt : i < (explore g n).length) : (explore g n)[i]? = some k := by
      obtain ⟨more, hmore⟩ := explore_extends g n
      rw [← hk, ← hmore, List.getElem?_append_left hlt]
    rw [explore] at hk ⊢
    split at hk
    · rename_i hnone
      have hlen := List.getElem?_eq_none_iff.1 hnone
      obtain ⟨hlt, -⟩ := List.getElem?_eq_some_iff.1 hk
      exact ih (by omega) hk
    · rename_i k₀ hsome
      obtain ⟨hlt, -⟩ := List.getElem?_eq_some_iff.1 hsome
      have hik := hknown (by omega)
      by_cases hin : i = n
      · subst hin
        obtain rfl := Option.some.inj (hsome.symm.trans hik)
        exact mem_foldl_noteKernel hk'
      · exact (noteKernel_extends _ _).subset (ih (by omega) hik)

/-- When all known kernels have been looked at, no more are found. -/
theorem explore_stable (hlen : (explore g n).length ≤ n) (d : Nat) :
    explore g (n + d) = explore g n := by
  induction d with
  | zero => rfl
  | succ d ih =>
    have hnone : (explore g (n + d))[n + d]? = none := by
      rw [ih, List.getElem?_eq_none_iff]
      omega
    rw [← Nat.add_assoc, explore, hnone]
    exact ih

/-- Processing a state finds the kernels that it leads to one after the other. -/
theorem kernels_process (h : a.Shaped g strength) (hl : strength ≠ .lr1)
    (hs : a.states[i]? = some s) :
    (a.process i).kernels = (successors g s.kernel.keys).foldl noteKernel a.kernels := by
  have hkeys := h.keys_closureOf hs
  have hprocess := h.process_induction (P := fun syms b => b.kernels =
    (syms.map fun sym => (target g (a.closureOf s).1 sym).keys).foldl noteKernel a.kernels) hs rfl
    (fun syms b c _ hsame _ _ hb => by rw [hsame.kernels_eq, hb])
    (fun syms sym b _ _ hb hcov ih => by
      rw [List.map_append, List.foldl_append, ← ih, List.map_singleton, List.foldl_cons,
        List.foldl_nil, noteKernel]
      rcases kernels_addState hb.covered hcov with ⟨hmem, heq⟩ | ⟨hnot, heq⟩
      · rw [heq, if_pos hmem]
      · rw [heq, if_neg (hnot (by rwa [hb.strength_eq]))])
  rw [hprocess, successors, hkeys]
  simp only [keys_target hkeys]

/-- The states before number `n` have been processed, and nothing else has happened. -/
structure Explored (g : Grammar) (n : Nat) (a : Automaton) : Prop where
  kernels : a.kernels = explore g n
  waiting : ∀ (j : Nat) (s : State), n ≤ j → a.states[j]? = some s → s.complete = false

/-- Processing the first incomplete state goes on to the next kernel, or finds nothing new. -/
theorem Explored.process (h : Explored g n a) (hs : a.Shaped g strength) (hl : strength ≠ .lr1)
    (hi : a.incomplete? = some i) :
    Explored g n (a.process i) ∨ Explored g (n + 1) (a.process i) := by
  obtain ⟨hlt, hc, hbefore⟩ := Array.findIdx?_eq_some_iff_getElem.1 hi
  have hget := Array.getElem?_eq_getElem hlt
  have hkernel : a.kernels[i]? = some a.states[i].kernel.keys := by
    rw [getElem?_kernels, hget, Option.map_some]
  have hwaiting (m : Nat) (hm : n ≤ m) (him : i < m) :
      ∀ (j : Nat) (s : State), m ≤ j → (a.process i).states[j]? = some s → s.complete = false := by
    intro j s hj hsj
    cases hcs : s.complete with
    | false => rfl
    | true =>
      have hold := hs.process_complete hget (by omega) hsj hcs
      rw [h.waiting j s (by omega) hold] at hcs
      exact hcs.symm
  have hin : i ≤ n := by
    by_contra hn
    have hcomplete := hbefore n (by omega)
    rw [h.waiting n _ (Nat.le_refl n) (Array.getElem?_eq_getElem (by omega))] at hcomplete
    simp at hcomplete
  rcases Nat.lt_or_eq_of_le hin with hlt' | rfl
  · refine Or.inl ⟨?_, hwaiting n (Nat.le_refl n) hlt'⟩
    rw [kernels_process hs hl hget, foldl_noteKernel_of_known, h.kernels]
    intro k hk
    rw [h.kernels] at hkernel ⊢
    exact explore_closed hlt' hkernel hk
  · refine Or.inr ⟨?_, hwaiting (i + 1) (by omega) (by omega)⟩
    rw [h.kernels] at hkernel
    rw [kernels_process hs hl hget, explore, hkernel, h.kernels]

theorem completeAll_explored (hl : strength ≠ .lr1) : ∀ (steps n : Nat) (a : Automaton),
    a.Sound g strength → Explored g n a → ∃ n', Explored g n' (completeAll steps a)
  | 0, n, _, _, h => ⟨n, h⟩
  | steps + 1, n, a, hs, h => by
    unfold completeAll
    split
    · exact ⟨n, h⟩
    · rename_i i hi
      obtain ⟨hsound, -⟩ := process_incomplete hs hi
      rcases h.process hs.toShaped hl hi with h | h
      · exact completeAll_explored hl steps n _ hsound h
      · exact completeAll_explored hl steps (n + 1) _ hsound h

theorem initial_explored (g : Grammar) (strength : Strength) :
    Explored g 0 (initial (.of g strength)) := by
  refine ⟨kernels_initial _, ?_⟩
  intro j s _ hs
  rw [initial_eq] at hs
  obtain ⟨hlt, rfl⟩ := Array.getElem?_eq_some_iff.1 hs
  obtain rfl : j = 0 := by simpa using hlt
  rfl

/-- **Below `LR1` the states are found in one order**, whatever the strength. -/
theorem kernels_build {strength strength' : Strength} (hindexed : g.Indexed)
    (hl : strength ≠ .lr1) (hl' : strength' ≠ .lr1) :
    (build g strength).kernels = (build g strength').kernels := by
  have hend {strength : Strength} (hl : strength ≠ .lr1) :
      ∃ n, (build g strength).kernels = explore g n ∧ (explore g n).length ≤ n := by
    obtain ⟨n, h⟩ := completeAll_explored hl (buildSteps g) 0 _ (initial_sound hindexed strength)
      (initial_explored g strength)
    refine ⟨n, h.kernels, ?_⟩
    rw [← h.kernels, length_kernels]
    by_contra hlt
    have hget := Array.getElem?_eq_getElem (Nat.not_le.1 hlt)
    have hc := build_complete hindexed hget
    rw [h.waiting n _ (Nat.le_refl n) hget] at hc
    cases hc
  obtain ⟨n, hn, hlen⟩ := hend hl
  obtain ⟨n', hn', hlen'⟩ := hend hl'
  rw [hn, hn', ← explore_stable hlen n', ← explore_stable hlen' n, Nat.add_comm]

end Automaton

end LayoutLR
