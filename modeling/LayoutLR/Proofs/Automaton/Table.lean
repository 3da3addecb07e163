/-
  Layout-aware LR toolkit — the items behind the rows of a table.

  A parser only sees rows.  Behind each row there are the items of its state, and
  they tell what the parser may rely on: where a transition comes from, what has
  been met before a reduction, and that its head can be pushed then.

  * `Automaton.reduction_spec`: the production that a state reduces;
  * `Table.Backed`: a table with items behind its rows;
  * `Automaton.table_backed`: the table of an automaton is backed by its closures.
-/
import LayoutLR.Automaton.Table
import LayoutLR.Proofs.Automaton.Building

namespace LayoutLR

namespace Automaton

variable {a : Automaton} {g : Grammar} {strength : Strength} {q : Nat} {s : State}

/-! ## Reductions -/

/-- The items of a state that are not waiting. -/
def finished (g : Grammar) (items : List Item) : List Item :=
  items.filter fun i => (i.next? g).isNone

theorem mem_finished {items : List Item} {i : Item} :
    i ∈ finished g items ↔ i ∈ items ∧ i.next? g = none := by
  simp [finished]

/-- The production with the longest body, the first of those. -/
def longest (g : Grammar) (best : Option Nat) (i : Item) : Option Nat :=
  match best with
  | some p => if (g.body i.prod).length ≤ (g.body p).length then some p else some i.prod
  | none => some i.prod

theorem reduction_eq (items : List Item) :
    reduction g items = (finished g items).foldl (longest g) none :=
  rfl

/-- The first of the longest: those before it are shorter, those after it not longer. -/
theorem foldl_longest (items : List Item) :
    match items.foldl (longest g) none with
    | none => items = []
    | some p => ∃ before i after, items = before ++ i :: after ∧ i.prod = p ∧
        (∀ j ∈ before, (g.body j.prod).length < (g.body p).length) ∧
        ∀ j ∈ after, (g.body j.prod).length ≤ (g.body p).length := by
  induction items using List.reverseRecOn with
  | nil => rfl
  | append_singleton items k ih =>
    rw [List.foldl_append, List.foldl_cons, List.foldl_nil]
    cases hbest : items.foldl (longest g) none with
    | none =>
      rw [hbest] at ih
      subst ih
      exact ⟨[], k, [], rfl, rfl, by simp, by simp⟩
    | some p =>
      rw [hbest] at ih
      obtain ⟨before, i, after, rfl, hi, hb, ha⟩ := ih
      by_cases hle : (g.body k.prod).length ≤ (g.body p).length
      · simp only [longest, hle, if_true]
        refine ⟨before, i, after ++ [k], by simp, hi, hb, fun j hj => ?_⟩
        rcases List.mem_append.1 hj with hj | hj
        · exact ha j hj
        · rwa [List.mem_singleton.1 hj]
      · simp only [longest, hle, if_false]
        refine ⟨before ++ i :: after, k, [], by simp, rfl, fun j hj => ?_, by simp⟩
        rcases List.mem_append.1 hj with hj | hj
        · exact Nat.lt_trans (hb j hj) (Nat.not_le.1 hle)
        · rcases List.mem_cons.1 hj with rfl | hj
          · exact hi ▸ Nat.not_le.1 hle
          · exact Nat.lt_of_le_of_lt (ha j hj) (Nat.not_le.1 hle)

/-- The item that a state reduces is one that is not waiting. -/
theorem reduction_mem {items : List Item} {p : Nat} (h : reduction g items = some p) :
    ∃ i ∈ items, i.next? g = none ∧ i.prod = p := by
  have := foldl_longest (g := g) (finished g items)
  rw [← reduction_eq, h] at this
  obtain ⟨before, i, after, heq, hi, -, -⟩ := this
  obtain ⟨hmem, hnext⟩ := mem_finished.1 (heq ▸ List.mem_append_right _ (List.mem_cons_self ..))
  exact ⟨i, hmem, hnext, hi⟩

/-! ## Items of a state -/

/-- Whether a state of an automaton has an item. -/
def Has (a : Automaton) (q : Nat) (i : Item) : Prop :=
  ∃ s, a.states[q]? = some s ∧ i ∈ s.closure.keys

theorem Processed.valid (h : a.Shaped g strength) (hp : a.Processed s) (hs : a.states[q]? = some s)
    {i : Item} (hi : i ∈ s.closure.keys) : Valid g i := by
  obtain ⟨kernel, hk, hcl, -⟩ := hp.closed
  rw [h.basis] at hcl
  obtain ⟨x, hx⟩ := SortedMap.exists_find?_of_mem_keys hi
  refine IsClosure.valid hcl (fun e he => ?_) (i, _) (mem_items.2 ⟨x, hx, rfl⟩)
  exact h.valid q s hs e.1 (hk ▸ List.mem_map_of_mem he)

/-- An item of a state is in the kernel, or others of the state wait for its head. -/
theorem Processed.reason (h : a.Shaped g strength) (hp : a.Processed s) {i : Item}
    (hi : i ∈ s.closure.keys) : i ∈ s.kernel.keys ∨ i.Predicted g s.closure.keys := by
  obtain ⟨kernel, hk, hcl, -⟩ := hp.closed
  have := hcl.reason i (by rwa [items_keys])
  rwa [hk, items_keys, h.basis] at this

/-- A state with items has been processed. -/
theorem Sound.processed_of_mem (h : a.Sound g strength) (hs : a.states[q]? = some s) {i : Item}
    (hi : i ∈ s.closure.keys) : a.Processed s := by
  rcases h.ready q s hs with hu | hp
  · rw [hu] at hi
    exact absurd hi List.not_mem_nil
  · exact hp

/-- A state with transitions has been processed. -/
theorem Sound.processed_of_goTo (h : a.Sound g strength) (hs : a.states[q]? = some s) {sym q' : Nat}
    (hg : s.goTo.find? sym = some q') : a.Processed s := by
  rcases h.ready q s hs with hu | hp
  · rw [hu] at hg
    simp at hg
  · exact hp

/-- A state with a reduction has been processed. -/
theorem Sound.processed_of_reduce (h : a.Sound g strength) (hs : a.states[q]? = some s) {p : Nat}
    (hr : s.reduce = some p) : a.Processed s := by
  rcases h.ready q s hs with hu | hp
  · rw [hu] at hr
    cases hr
  · exact hp

end Automaton

/-! ## Tables -/

/-- The transition of a state on a symbol. -/
def Table.goto? (t : Table) (q sym : Nat) : Option Nat :=
  (t.row? q).bind fun row => row.goto? sym

/-- The reduction of a state. -/
def Table.reduce? (t : Table) (q : Nat) : Option Reduction :=
  (t.row? q).bind Row.reduce

theorem Table.goto?_of_row {t : Table} {q : Nat} {row : Row} (h : t.row? q = some row) (sym : Nat) :
    t.goto? q sym = row.goto? sym := by
  rw [goto?, h]
  rfl

theorem Table.reduce?_of_row {t : Table} {q : Nat} {row : Row} (h : t.row? q = some row) :
    t.reduce? q = row.reduce := by
  rw [reduce?, h]
  rfl

/-- A table with items behind its rows. -/
structure Table.Backed (g : Grammar) (t : Table) (has : Nat → Item → Prop) : Prop where
  start : 0 < t.rows.size
  target : ∀ q sym q', t.goto? q sym = some q' → q' < t.rows.size ∧ q' ≠ 0
  valid : ∀ q i, has q i → i.prod < g.productions.size ∨ i.prod = 0
  origin : ∀ i, has 0 i → i.dot = 0
  /-- An item with the dot behind a symbol comes from the other side of the transition. -/
  behind : ∀ q sym q' i, t.goto? q sym = some q' → has q' i → 0 < i.dot →
    ∃ j, has q j ∧ j.next? g = some sym ∧ i = j.advance
  /-- What is reduced has been met as a whole. -/
  reduce : ∀ q r, t.reduce? q = some r →
    r = g.reductionBy r.prod ∧ has q ⟨r.prod, (g.body r.prod).length⟩
  /-- Where a production may start, its head can be pushed. -/
  head : ∀ q p, has q ⟨p, 0⟩ → p ≠ 0 → ∃ q', t.goto? q (g.head p) = some q'
  /-- The start production starts in the first state only, if nothing waits for its head. -/
  start_only : (∀ p, g.start ∉ g.body p) → ∀ q, has q ⟨0, 0⟩ → q = 0

namespace Automaton

variable {a : Automaton} {g : Grammar} {strength : Strength} {q : Nat} {s : State}

theorem row?_table (a : Automaton) (q : Nat) :
    a.table.row? q = a.states[q]?.map (State.row a.grammar) := by
  simp [Table.row?, table]

theorem goto?_table {sym q' : Nat} : a.table.goto? q sym = some q' ↔
    ∃ s, a.states[q]? = some s ∧ s.goTo.find? sym = some q' := by
  rw [Table.goto?, row?_table]
  cases a.states[q]? <;> simp [State.row, Row.goto?]

theorem reduce?_table {r : Reduction} : a.table.reduce? q = some r ↔
    ∃ s p, a.states[q]? = some s ∧ s.reduce = some p ∧ a.grammar.reductionBy p = r := by
  rw [Table.reduce?, row?_table]
  cases a.states[q]? <;> simp [State.row]

/-- An item that is not waiting has its dot at the end. -/
theorem Valid.dot_eq {i : Item} (h : Valid g i) (hnext : i.next? g = none) :
    i.dot = (g.body i.prod).length :=
  Nat.le_antisymm h.dot (List.getElem?_eq_none_iff.1 hnext)

/-! ## Items behind a table -/

/-- The kernel behind a transition is its target. -/
theorem Sound.edge (h : a.Sound g strength) {sym q' : Nat} (hg : a.table.goto? q sym = some q') :
    ∃ s s', a.states[q]? = some s ∧ a.states[q']? = some s' ∧
      s'.kernel.keys = (target g s.closure sym).keys ∧ ∃ k, k ∈ s'.kernel.keys ∧ 0 < k.dot := by
  obtain ⟨s, hs, hfind⟩ := goto?_table.1 hg
  have hp := h.processed_of_goTo hs hfind
  obtain ⟨s', hs', hk⟩ := hp.edges sym q' hfind
  obtain ⟨hsym, -⟩ := (hp.symbols sym).1 (SortedMap.mem_keys_of_find? hfind)
  obtain ⟨k, hk', hnext⟩ := mem_nextSymbols.1 hsym
  rw [h.grammar_eq] at hk hnext
  refine ⟨s, s', hs, hs', hk.keys, k.advance, ?_, Nat.succ_pos _⟩
  rw [hk.keys]
  exact mem_keys_target.2 ⟨k, hk', hnext, rfl⟩

/-- There are transitions on symbols of bodies only. -/
theorem Sound.mem_body_of_goto? (h : a.Sound g strength) {sym q' : Nat}
    (hg : a.table.goto? q sym = some q') : ∃ p, sym ∈ g.body p := by
  obtain ⟨s, s', -, -, hkeys, k, hk, -⟩ := h.edge hg
  rw [hkeys] at hk
  obtain ⟨j, -, hnext, -⟩ := mem_keys_target.1 hk
  exact ⟨j.prod, List.mem_of_getElem? hnext⟩

theorem Sound.goto?_eq_none (h : a.Sound g strength) {sym : Nat} (hsym : ∀ p, sym ∉ g.body p)
    (q : Nat) : a.table.goto? q sym = none := by
  by_contra hgo
  obtain ⟨q', hgo⟩ := Option.ne_none_iff_exists'.1 hgo
  obtain ⟨p, hp⟩ := h.mem_body_of_goto? hgo
  exact hsym p hp

/-- The kernel of the first state is the start item. -/
theorem Sound.kernel_start (h : a.Sound g strength) (hs : a.states[0]? = some s) {i : Item}
    (hi : i ∈ s.kernel.keys) : i = ⟨0, 0⟩ := by
  obtain ⟨s₀, hs₀, hkeys⟩ := h.start
  obtain rfl := Option.some.inj (hs.symm.trans hs₀)
  rwa [hkeys, List.mem_singleton] at hi

/-- A kernel item with the dot at the start is the start item. -/
theorem Sound.kernel_dot (h : a.Sound g strength) (hs : a.states[q]? = some s) {p : Nat}
    (hi : (⟨p, 0⟩ : Item) ∈ s.kernel.keys) : q = 0 ∧ p = 0 := by
  by_cases hq : q = 0
  · subst hq
    exact ⟨rfl, congrArg Item.prod (h.kernel_start hs hi)⟩
  · exact absurd ((h.behind q s hs hq).2 _ hi) (Nat.lt_irrefl 0)

/-- Precedence rules out terminals only, so there is a transition on any other symbol that an item
    waits for. -/
theorem Sound.exists_goto? (h : a.Sound g strength) {i : Item} {sym : Nat} (hi : a.Has q i)
    (hnext : i.next? g = some sym) (hsym : g.isTerminal sym = false) :
    ∃ q', a.table.goto? q sym = some q' := by
  obtain ⟨s, hs, hi⟩ := hi
  have hp := h.processed_of_mem hs hi
  have hmem : sym ∈ s.goTo.keys := by
    rw [hp.symbols, h.grammar_eq]
    refine ⟨mem_nextSymbols.2 ⟨i, hi, hnext⟩, ?_⟩
    unfold suppressed
    split <;> simp [hsym]
  obtain ⟨q', hq'⟩ := SortedMap.exists_find?_of_mem_keys hmem
  exact ⟨q', goto?_table.2 ⟨s, hs, hq'⟩⟩

/-- Where a production may start, its head can be pushed. -/
theorem Sound.goto?_head (h : a.Sound g strength) {p : Nat} (hi : a.Has q ⟨p, 0⟩) (hne : p ≠ 0) :
    ∃ q', a.table.goto? q (g.head p) = some q' := by
  obtain ⟨s, hs, hi⟩ := hi
  have hp := h.processed_of_mem hs hi
  rcases hp.reason h.toShaped hi with hk | hpred
  · exact absurd (h.kernel_dot hs hk).2 hne
  · obtain ⟨j, hj, hnext⟩ := hpred.awaited
    exact h.exists_goto? ⟨s, hs, hj⟩ hnext (Grammar.isTerminal_eq_false hpred.nonterminal)

/-- What a state reduces is one of its items, with the dot at the end. -/
theorem Sound.has_reduce (h : a.Sound g strength) {r : Reduction} (hr : a.table.reduce? q = some r) :
    r = g.reductionBy r.prod ∧ a.Has q ⟨r.prod, (g.body r.prod).length⟩ := by
  obtain ⟨s, p, hs, hred, rfl⟩ := reduce?_table.1 hr
  have hp := h.processed_of_reduce hs hred
  rw [hp.reduce, h.grammar_eq] at hred
  obtain ⟨i, hi, hnext, rfl⟩ := reduction_mem hred
  rw [h.grammar_eq]
  refine ⟨rfl, s, hs, ?_⟩
  show (⟨i.prod, (g.body i.prod).length⟩ : Item) ∈ s.closure.keys
  rw [← (hp.valid h.toShaped hs hi).dot_eq hnext]
  exact hi

/-- **The closures of an automaton are behind the rows of its table.** -/
theorem Sound.backed (h : a.Sound g strength) : a.table.Backed g a.Has := by
  have hsize : a.table.rows.size = a.states.size := by simp [table]
  refine ⟨?_, fun q sym q' hg => ?_, ?_, ?_, ?_, fun q r => h.has_reduce, fun q p => h.goto?_head, ?_⟩
  · obtain ⟨s, hs, -⟩ := h.start
    rw [hsize]
    exact (Array.getElem?_eq_some_iff.1 hs).1
  · obtain ⟨s, s', hs, hs', -, k, hk, hdot⟩ := h.edge hg
    refine ⟨hsize ▸ (Array.getElem?_eq_some_iff.1 hs').1, ?_⟩
    rintro rfl
    rw [h.kernel_start hs' hk] at hdot
    exact Nat.lt_irrefl 0 hdot
  · rintro q i ⟨s, hs, hi⟩
    exact ((h.processed_of_mem hs hi).valid h.toShaped hs hi).prod
  · rintro i ⟨s, hs, hi⟩
    rcases (h.processed_of_mem hs hi).reason h.toShaped hi with hk | hp
    · rw [h.kernel_start hs hk]
    · exact hp.dot
  · rintro q sym q' i hg ⟨s', hs', hi⟩ hdot
    obtain ⟨s, s'', hs, hs'', hk, -⟩ := h.edge hg
    obtain rfl := Option.some.inj (hs'.symm.trans hs'')
    rcases (h.processed_of_mem hs' hi).reason h.toShaped hi with hmem | hp
    · rw [hk] at hmem
      obtain ⟨j, hj, hnext, rfl⟩ := mem_keys_target.1 hmem
      exact ⟨j, ⟨s, hs, hj⟩, hnext, rfl⟩
    · exact absurd hp.dot (Nat.pos_iff_ne_zero.1 hdot)
  · rintro hstart q ⟨s, hs, hi⟩
    rcases (h.processed_of_mem hs hi).reason h.toShaped hi with hk | hpred
    · exact (h.kernel_dot hs hk).1
    · obtain ⟨j, -, hnext⟩ := hpred.awaited
      exact absurd (List.mem_of_getElem? hnext) (hstart j.prod)

end Automaton

end LayoutLR
