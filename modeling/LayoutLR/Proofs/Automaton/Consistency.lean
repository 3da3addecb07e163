/-
  Layout-aware LR toolkit — an automaton is consistent once it is built.

  A state may be processed several times, since its lookahead sets may grow after
  it was made complete, even while it is being processed itself.  When no state is
  incomplete any more, nothing is out of date: making the closure of a kernel once
  more gives what the state has, down to the handles, and each transition leads to
  the items with the dot behind its symbol, whose sets have all that they had
  before the transition.

  * `Basis.closing_ends`: the work list of a closure gets empty;
  * `Automaton.stage_stable`: the processing of states comes to an end;
  * `Automaton.closureOf_build`: no closure is out of date;
  * `build_consistent`: all of it for a grammar that was read.
-/
import LayoutLR.Proofs.Automaton.Exact
import LayoutLR.Proofs.Automaton.Merging

namespace LayoutLR

/-! ## Work lists -/

namespace Basis

variable {b : Basis} {kernel : List (Item × SymSet)}

/-- The closure of items after some steps of the work list. -/
def closing (b : Basis) (kernel : List (Item × SymSet)) (steps : Nat) : Closing :=
  b.closeAll steps ⟨kernel, kernel.map Prod.fst⟩

theorem closeAll_of_queue_nil {c : Closing} (hq : c.queue = []) (n : Nat) : b.closeAll n c = c := by
  cases n with
  | zero => rfl
  | succ n => rw [closeAll, hq]

theorem closeAll_add (b : Basis) (m n : Nat) (c : Closing) :
    b.closeAll (m + n) c = b.closeAll n (b.closeAll m c) := by
  induction m generalizing c with
  | zero => rw [Nat.zero_add, closeAll]
  | succ m ih =>
    rw [Nat.add_right_comm, closeAll, closeAll]
    split
    · rename_i hq
      exact (closeAll_of_queue_nil hq n).symm
    · exact ih _

/-- The work list gets empty, and more steps change nothing. -/
theorem closing_ends (hb : b.Proper) (hn : (kernel.map Prod.fst).Nodup)
    (hk : ∀ e ∈ kernel, ∀ t ∈ e.2.keys, t < b.grammar.symbols.size) {steps : Nat}
    (hsteps : b.closureSteps kernel ≤ steps) :
    (b.closing kernel steps).queue = [] ∧ (b.closing kernel steps).items = b.closure kernel := by
  have hq := closeAll_steps hb hn hk
  obtain ⟨d, rfl⟩ := Nat.exists_eq_add_of_le hsteps
  rw [closing, closeAll_add, closeAll_of_queue_nil hq]
  exact ⟨hq, rfl⟩

end Basis

namespace Automaton

variable {a : Automaton} {g : Grammar} {strength : Strength} {q r : Nat} {s s' : State}

/-- The closure that a state is processed with, after some steps of the work list. -/
def closing (a : Automaton) (s : State) (steps : Nat) : Closing :=
  a.basis.closing (a.items s.kernel) steps

theorem Shaped.closing_ends (h : a.Shaped g strength) (hs : a.states[q]? = some s) {steps : Nat}
    (hsteps : a.basis.closureSteps (a.items s.kernel) ≤ steps) :
    (a.closing s steps).queue = [] ∧
      (a.closing s steps).items = a.basis.closure (a.items s.kernel) := by
  obtain ⟨hn, hk⟩ := h.items_kernel hs
  have hproper : a.basis.Proper := h.basis ▸ Basis.of_proper h.indexed strength
  exact Basis.closing_ends hproper hn hk hsteps

/-! ## Processing -/

/-- The automaton of a grammar after some steps of its building. -/
def stage (g : Grammar) (strength : Strength) (steps : Nat) : Automaton :=
  completeAll steps (initial (.of g strength))

theorem completeAll_of_complete (h : a.incomplete? = none) (n : Nat) : completeAll n a = a := by
  cases n with
  | zero => rfl
  | succ n => rw [completeAll, h]

theorem completeAll_add (m n : Nat) (a : Automaton) :
    completeAll (m + n) a = completeAll n (completeAll m a) := by
  induction m generalizing a with
  | zero => rw [Nat.zero_add, completeAll]
  | succ m ih =>
    rw [Nat.add_right_comm, completeAll, completeAll]
    split
    · rename_i hnone
      exact (completeAll_of_complete hnone n).symm
    · exact ih _

/-- In the end no state is incomplete, and more steps change nothing. -/
theorem stage_stable (hindexed : g.Indexed) {steps : Nat} (hsteps : buildSteps g ≤ steps) :
    (build g strength).incomplete? = none ∧ stage g strength steps = build g strength := by
  have hnone : (build g strength).incomplete? = none :=
    completeAll_complete (buildSteps g) _ (initial_sound hindexed strength) (by omega)
  obtain ⟨d, rfl⟩ := Nat.exists_eq_add_of_le hsteps
  rw [stage, completeAll_add]
  exact ⟨hnone, completeAll_of_complete hnone d⟩

/-! ## Closures -/

/-- Sets that all have a handle are given no new ones. -/
theorem internItems_known {items : List (Item × SymSet)} {pool : Pool}
    (h : ∀ e ∈ items, ∃ x, x < pool.size ∧ pool.get x = e.2) : (internItems items pool).2 = pool := by
  induction items using List.reverseRecOn with
  | nil => rfl
  | append_singleton items e ih =>
    have hpool := ih fun e' he' => h e' (by simp [he'])
    obtain ⟨x, hx, hget⟩ := h e (by simp)
    rw [internItems_append, hpool, ← hget]
    exact congrArg Prod.snd (pool.intern_get hx)

/-- **No closure is out of date**: made once more, it is the one that the state has. -/
theorem closureOf_build (hindexed : g.Indexed)
    (hs : (build g strength).states[q]? = some s) :
    (build g strength).closureOf s = (s.closure, (build g strength).pool) := by
  have hshaped := (build_sound hindexed strength).toShaped
  have hp := build_processed hindexed hs
  have hmade := hshaped.isClosure hs
  have hstored : (build g strength).basis.IsClosure ((build g strength).items s.kernel)
      ((build g strength).items s.closure) := by
    obtain ⟨kernel, -, hcl, hkernel⟩ := hp.closed
    rwa [hkernel (build_complete hindexed hs)] at hcl
  obtain ⟨-, hlt, hmem⟩ := internItems_spec hmade.nodup (build g strength).pool
  -- the sets that the state has are in the pool, so the closure needs no new handle
  have hpool : ((build g strength).closureOf s).2 = (build g strength).pool := by
    refine internItems_known fun e he => ?_
    obtain ⟨x, hx, hget⟩ := mem_items.1 (hmade.mem_congr hstored he)
    exact ⟨x, hp.covers.lt e.1 x hx, hget⟩
  rw [closureOf] at hpool
  rw [hpool] at hlt hmem
  refine Prod.ext (SortedMap.ext_find? fun k => Option.ext fun x => ?_) hpool
  constructor
  · intro hx
    have hin := hmade.mem_congr hstored ((hmem k _).2 ⟨x, hx, rfl⟩)
    obtain ⟨y, hy, hset⟩ := mem_items.1 hin
    rwa [← Pool.get_inj (hp.covers.lt k y hy) (hlt k x hx) hset]
  · intro hx
    have hin := hstored.mem_congr hmade (mem_items.2 ⟨x, hx, rfl⟩)
    obtain ⟨y, hy, hset⟩ := (hmem k _).1 hin
    rwa [← Pool.get_inj (hlt k y hy) (hp.covers.lt k x hx) hset]

/-! ## Transitions -/

/-- The items of a state with `sym` behind the dot, moved over it. -/
def Carries (g : Grammar) (s : State) (sym : Nat) (s' : State) : Prop :=
  ∀ k, k ∈ s'.kernel.keys ↔ ∃ j ∈ s.closure.keys, j.next? g = some sym ∧ k = j.advance

/-- **A transition leads to the items with the dot behind its symbol**, with all that may come
    after them before the transition; at `LR1` with nothing else. -/
theorem goTo_build (hindexed : g.Indexed) (hs : (build g strength).states[q]? = some s)
    {sym : Nat} (hgo : s.goTo.find? sym = some r) :
    ∃ s', (build g strength).states[r]? = some s' ∧ Carries g s sym s' ∧
      ∀ j ∈ s.closure.keys, j.next? g = some sym →
        (∀ t ∈ ((build g strength).setOf s.closure j).keys,
          t ∈ ((build g strength).setOf s'.kernel j.advance).keys) ∧
        (strength = .lr1 → (build g strength).setOf s'.kernel j.advance =
          (build g strength).setOf s.closure j) := by
  have hg : (build g strength).grammar = g := (build_sound hindexed strength).grammar_eq
  obtain ⟨s', hs', hgrows⟩ := (build_processed hindexed hs).edges sym r hgo
  rw [hg] at hgrows
  have hflows : ∀ j ∈ s.closure.keys, j.next? g = some sym →
      ∀ t ∈ ((build g strength).setOf s.closure j).keys,
        t ∈ ((build g strength).setOf s'.kernel j.advance).keys := by
    intro j _ hnext t ht
    obtain ⟨x, hx, htx⟩ := mem_setOf.1 ht
    obtain ⟨y, hy, hsub⟩ := hgrows.sets j.advance x (find?_target.2 ⟨j, hx, hnext, rfl⟩)
    exact mem_setOf.2 ⟨y, hy, hsub t htx⟩
  refine ⟨s', hs', fun k => ?_, fun j hj hnext => ⟨hflows j hj hnext, ?_⟩⟩
  · rw [hgrows.keys]
    exact mem_keys_target
  · rintro rfl
    refine SymSet.ext fun t => ⟨fun ht => ?_, hflows j hj hnext t⟩
    obtain ⟨j', heq, -, ht'⟩ := mem_kernel_behind hindexed hs hs' hgo ht
    rwa [advance_inj heq]

end Automaton

open Automaton in
/-- **Building an automaton comes to an end, and leaves nothing out of date.**  Every closure on
    the way empties its work list; in the end no state is incomplete, every closure is the one of
    its kernel, and the transitions carry items and sets on. -/
theorem build_consistent {code : List CodeNode} {g : Grammar} (h : Grammar.read code = .ok g)
    (strength : Strength) :
    (∀ (n q : Nat) (s : State), (stage g strength n).states[q]? = some s →
      ∀ steps, (stage g strength n).basis.closureSteps ((stage g strength n).items s.kernel) ≤ steps →
        ((stage g strength n).closing s steps).queue = [] ∧
        ((stage g strength n).closing s steps).items =
          (stage g strength n).basis.closure ((stage g strength n).items s.kernel)) ∧
    (∀ steps, buildSteps g ≤ steps → stage g strength steps = build g strength) ∧
    (build g strength).incomplete? = none ∧
    ∀ (q : Nat) (s : State), (build g strength).states[q]? = some s →
      (build g strength).closureOf s = (s.closure, (build g strength).pool) ∧
      ∀ sym r, s.goTo.find? sym = some r →
        ∃ s', (build g strength).states[r]? = some s' ∧ Carries g s sym s' ∧
          ∀ j ∈ s.closure.keys, j.next? g = some sym →
            (∀ t ∈ ((build g strength).setOf s.closure j).keys,
              t ∈ ((build g strength).setOf s'.kernel j.advance).keys) ∧
            (strength = .lr1 → (build g strength).setOf s'.kernel j.advance =
              (build g strength).setOf s.closure j) := by
  have hindexed := (Grammar.read_wellFormed h).indexed
  refine ⟨?_, fun steps hsteps => (stage_stable hindexed hsteps).2,
    (stage_stable hindexed (Nat.le_refl _)).1, fun q s hs => ⟨closureOf_build hindexed hs, ?_⟩⟩
  · intro n q s hs steps hsteps
    exact (completeAll_sound n _ (initial_sound hindexed strength)).toShaped.closing_ends hs hsteps
  · intro sym r hgo
    exact goTo_build hindexed hs hgo

open Automaton in
set_option maxRecDepth 100000 in
/-- State 1 waits for an identifier before a number; state 4, which it shares with state 2, has
    the string that may come after it there as well. -/
theorem build_consistent_crossedEndings : ∃ g s s', Grammar.readText crossedEndings = .ok g ∧
    (build g .lalr).incomplete? = none ∧ (build g .lalr).states[1]? = some s ∧
    (build g .lalr).closureOf s = (s.closure, (build g .lalr).pool) ∧
    (build g .lalr).states[4]? = some s' ∧ Carries g s Kind.word.num s' ∧
    (∀ t ∈ ((build g .lalr).setOf s.closure ⟨5, 0⟩).keys,
      t ∈ ((build g .lalr).setOf s'.kernel ⟨5, 1⟩).keys) ∧
    Kind.string.num ∉ ((build g .lalr).setOf s.closure ⟨5, 0⟩).keys := by
  obtain ⟨g, hg, htest⟩ := Grammar.exists_readText crossedEndings (fun g =>
    (Item.next? g ⟨5, 0⟩ == some Kind.word.num) && ((build g .lalr).states[1]?.any fun s =>
      s.goTo.find? Kind.word.num == some 4 && s.closure.contains ⟨5, 0⟩ &&
      !((build g .lalr).setOf s.closure ⟨5, 0⟩).contains Kind.string.num))
    (by decide +kernel)
  simp only [Bool.and_eq_true, Option.any_eq_true, beq_iff_eq, SortedMap.contains_iff,
    Bool.not_eq_true', ← Bool.not_eq_true] at htest
  obtain ⟨hnext, s, hs, ⟨hgo, hin⟩, hnot⟩ := htest
  obtain ⟨-, -, hnone, hstates⟩ := build_consistent hg .lalr
  obtain ⟨hclosure, hedges⟩ := hstates 1 s hs
  obtain ⟨s', hs', hcarries, hsets⟩ := hedges Kind.word.num 4 hgo
  exact ⟨g, s, s', hg, hnone, hs, hclosure, hs', hcarries, (hsets ⟨5, 0⟩ hin hnext).1, hnot⟩

end LayoutLR
