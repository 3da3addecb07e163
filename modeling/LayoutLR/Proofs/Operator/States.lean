/-
  Layout-aware LR toolkit — the states of a grammar of binary operators.

  Such a grammar has a production for each operator and one for numbers.  Its
  automaton has few kinds of states, whatever the operators are; precedence only
  takes away transitions of the states behind a right operand.  There a shift and a
  reduction meet, but both have a precedence, and so there is no conflict.

  * `Grammar.Binary`: the grammars;
  * `Site`, `Site.Kernel`: the kinds of states and their items;
  * `Site.Edge`: where a symbol leads to;
  * `Automaton.exists_stands`: every state is of one of these kinds;
  * `Automaton.conflicts_eq_nil`: no strength finds a conflict.
-/
import LayoutLR.Proofs.Automaton.Skeleton
import LayoutLR.Proofs.Automaton.Conflict

namespace LayoutLR

/-- A grammar of numbers and `n` binary operators; production `p + 1` is that of operator `p`. -/
structure Grammar.Binary (g : Grammar) (e n : Nat) (op : Nat → Nat) : Prop where
  indexed : g.Indexed
  size : g.productions.size = n + 2
  start : g.body 0 = [e, Kind.eof.num]
  start_head : g.head 0 ≠ e
  operators : ∀ p < n, g.head (p + 1) = e ∧ g.body (p + 1) = [e, op p, e]
  numbers : g.head (n + 1) = e ∧ g.body (n + 1) = [Kind.number.num]
  nonterminal : g.isNonterminal e = true
  predefined : ∀ s < Kind.reservedBase, g.isTerminal s = true
  terminal : ∀ p < n, Kind.reservedBase ≤ op p ∧ g.isTerminal (op p) = true
  distinct : ∀ p < n, ∀ q < n, op p = op q → p = q
  precedence : ∀ p < n, ∃ r, g.precedenceOf (op p) = some r ∧
    g.productions[p + 1]?.bind Production.precedence = some r
  boundary : ∀ p, (g.reductionBy p).newlineOnly = false

/-- The kinds of states. -/
inductive Site where
  /-- At the beginning. -/
  | start
  /-- Behind an expression that may be all there is. -/
  | whole
  /-- Behind an operator. -/
  | operator (p : Nat)
  /-- Behind the right operand of an operator. -/
  | operand (p : Nat)
  | number
  /-- Behind the end. -/
  | accepted

namespace Site

variable {n : Nat}

/-- The places of a grammar with `n` operators. -/
def Proper (n : Nat) : Site → Prop
  | operator p | operand p => p < n
  | start | whole | number | accepted => True

/-- The items of the kernel. -/
def Kernel (n : Nat) : Site → Item → Prop
  | start, i => i = ⟨0, 0⟩
  | whole, i => i = ⟨0, 1⟩ ∨ ∃ q < n, i = ⟨q + 1, 1⟩
  | operator p, i => i = ⟨p + 1, 2⟩
  | operand p, i => i = ⟨p + 1, 3⟩ ∨ ∃ q < n, i = ⟨q + 1, 1⟩
  | number, i => i = ⟨n + 1, 1⟩
  | accepted, i => i = ⟨0, 2⟩

/-- Whether an expression comes next. -/
def Waits : Site → Prop
  | start | operator _ => True
  | whole | operand _ | number | accepted => False

/-- All items of the state. -/
def Closed (n : Nat) (pl : Site) (i : Item) : Prop :=
  pl.Kernel n i ∨ pl.Waits ∧ ∃ q ≤ n, i = ⟨q + 1, 0⟩

theorem exists_kernel (n : Nat) : ∀ pl : Site, ∃ i, pl.Kernel n i
  | start => ⟨⟨0, 0⟩, rfl⟩
  | whole => ⟨⟨0, 1⟩, Or.inl rfl⟩
  | operator p => ⟨⟨p + 1, 2⟩, rfl⟩
  | operand p => ⟨⟨p + 1, 3⟩, Or.inl rfl⟩
  | number => ⟨⟨n + 1, 1⟩, rfl⟩
  | accepted => ⟨⟨0, 2⟩, rfl⟩

/-- Where a symbol leads to, precedence apart. -/
inductive Edge (e n : Nat) (op : Nat → Nat) : Site → Nat → Site → Prop
  | whole : Edge e n op start e whole
  | operand {p : Nat} (hp : p < n) : Edge e n op (operator p) e (operand p)
  | number {pl : Site} (hw : pl.Waits) (hp : pl.Proper n) : Edge e n op pl Kind.number.num number
  | first {q : Nat} (hq : q < n) : Edge e n op whole (op q) (operator q)
  | later {p q : Nat} (hp : p < n) (hq : q < n) : Edge e n op (operand p) (op q) (operator q)
  | accepted : Edge e n op whole Kind.eof.num accepted

end Site

namespace Grammar.Binary

variable {g : Grammar} {e n : Nat} {op : Nat → Nat} {p q : Nat}

theorem ne_of_lt (h : g.Binary e n op) {s : Nat} (hs : s < Kind.reservedBase) :
    e ≠ s ∧ ∀ p < n, op p ≠ s := by
  refine ⟨?_, fun p hp => Nat.ne_of_gt (Nat.lt_of_lt_of_le hs (h.terminal p hp).1)⟩
  rintro rfl
  have := h.predefined e hs
  have := h.nonterminal
  simp_all [isTerminal, isNonterminal]

/-- What comes next in an item. -/
theorem next (h : g.Binary e n op) :
    (⟨0, 0⟩ : Item).next? g = some e ∧ (⟨0, 1⟩ : Item).next? g = some Kind.eof.num ∧
      (⟨0, 2⟩ : Item).next? g = none ∧ (⟨n + 1, 0⟩ : Item).next? g = some Kind.number.num ∧
      (⟨n + 1, 1⟩ : Item).next? g = none := by
  simp [Item.next?, h.start, h.numbers.2]

theorem next_operator (h : g.Binary e n op) (hp : p < n) :
    (⟨p + 1, 0⟩ : Item).next? g = some e ∧ (⟨p + 1, 1⟩ : Item).next? g = some (op p) ∧
      (⟨p + 1, 2⟩ : Item).next? g = some e ∧ (⟨p + 1, 3⟩ : Item).next? g = none := by
  simp [Item.next?, (h.operators p hp).2]

/-! ## Closures -/

variable {pl pl' : Site} {sym : Nat} {i j : Item}

open Site in
/-- An item that waits for a symbol takes its dot to the place that the symbol leads to. -/
theorem exists_edge (h : g.Binary e n op) (hpl : pl.Proper n) (hi : pl.Closed n i)
    (hnext : i.next? g = some sym) :
    ∃ pl', Edge e n op pl sym pl' ∧ pl'.Proper n ∧ pl'.Kernel n i.advance := by
  rcases hi with hi | ⟨hw, q, hq, rfl⟩
  · cases pl with
    | start =>
      obtain rfl : i = ⟨0, 0⟩ := hi
      obtain rfl := Option.some.inj (h.next.1.symm.trans hnext)
      exact ⟨whole, .whole, trivial, Or.inl rfl⟩
    | whole =>
      rcases hi with rfl | ⟨q, hq, rfl⟩
      · obtain rfl := Option.some.inj (h.next.2.1.symm.trans hnext)
        exact ⟨accepted, .accepted, trivial, rfl⟩
      · obtain rfl := Option.some.inj ((h.next_operator hq).2.1.symm.trans hnext)
        exact ⟨operator q, .first hq, hq, rfl⟩
    | operator p =>
      obtain rfl : i = ⟨p + 1, 2⟩ := hi
      obtain rfl := Option.some.inj ((h.next_operator hpl).2.2.1.symm.trans hnext)
      exact ⟨operand p, .operand hpl, hpl, Or.inl rfl⟩
    | operand p =>
      rcases hi with rfl | ⟨q, hq, rfl⟩
      · rw [(h.next_operator hpl).2.2.2] at hnext
        cases hnext
      · obtain rfl := Option.some.inj ((h.next_operator hq).2.1.symm.trans hnext)
        exact ⟨operator q, .later hpl hq, hq, rfl⟩
    | number =>
      obtain rfl : i = ⟨n + 1, 1⟩ := hi
      rw [h.next.2.2.2.2] at hnext
      cases hnext
    | accepted =>
      obtain rfl : i = ⟨0, 2⟩ := hi
      rw [h.next.2.2.1] at hnext
      cases hnext
  · rcases Nat.lt_or_eq_of_le hq with hq | rfl
    · obtain rfl := Option.some.inj ((h.next_operator hq).1.symm.trans hnext)
      cases pl with
      | start => exact ⟨whole, .whole, trivial, Or.inr ⟨q, hq, rfl⟩⟩
      | operator p => exact ⟨operand p, .operand hpl, hpl, Or.inr ⟨q, hq, rfl⟩⟩
      | whole | operand | number | accepted => cases hw
    · obtain rfl := Option.some.inj (h.next.2.2.2.1.symm.trans hnext)
      exact ⟨number, .number hw hpl, trivial, rfl⟩

/-- A symbol leads from a place to one other at most. -/
theorem edge_unique (h : g.Binary e n op) {pl'' : Site} {sym' : Nat}
    (he : Site.Edge e n op pl sym pl') (he' : Site.Edge e n op pl sym' pl'') (hs : sym = sym') :
    pl' = pl'' := by
  have hnum := h.ne_of_lt (s := Kind.number.num) (by decide)
  have heof := h.ne_of_lt (s := Kind.eof.num) (by decide)
  cases he with
  | whole =>
    cases he' with
    | whole => rfl
    | number => exact absurd hs hnum.1
  | operand hp =>
    cases he' with
    | operand => rfl
    | number => exact absurd hs hnum.1
  | number hw =>
    cases he' with
    | whole => exact absurd hs.symm hnum.1
    | operand => exact absurd hs.symm hnum.1
    | number => rfl
    | first | later | accepted => cases hw
  | first hq =>
    cases he' with
    | number hw => cases hw
    | first hq' => rw [h.distinct _ hq _ hq' hs]
    | accepted => exact absurd hs (heof.2 _ hq)
  | later hp hq =>
    cases he' with
    | number hw => cases hw
    | later _ hq' => rw [h.distinct _ hq _ hq' hs]
  | accepted =>
    cases he' with
    | number hw => cases hw
    | first hq => exact absurd hs.symm (heof.2 _ hq)
    | accepted => rfl

theorem edge_kernel (h : g.Binary e n op) (he : Site.Edge e n op pl sym pl')
    (hj : pl'.Kernel n j) : ∃ i, pl.Closed n i ∧ i.next? g = some sym ∧ j = i.advance := by
  cases he with
  | whole =>
    rcases hj with rfl | ⟨q, hq, rfl⟩
    · exact ⟨⟨0, 0⟩, Or.inl rfl, h.next.1, rfl⟩
    · exact ⟨⟨q + 1, 0⟩, Or.inr ⟨trivial, q, Nat.le_of_lt hq, rfl⟩, (h.next_operator hq).1, rfl⟩
  | operand hp =>
    rcases hj with rfl | ⟨q, hq, rfl⟩
    · exact ⟨⟨_, 2⟩, Or.inl rfl, (h.next_operator hp).2.2.1, rfl⟩
    · exact ⟨⟨q + 1, 0⟩, Or.inr ⟨trivial, q, Nat.le_of_lt hq, rfl⟩, (h.next_operator hq).1, rfl⟩
  | number hw =>
    obtain rfl : j = ⟨n + 1, 1⟩ := hj
    exact ⟨⟨n + 1, 0⟩, Or.inr ⟨hw, n, Nat.le_refl n, rfl⟩, h.next.2.2.2.1, rfl⟩
  | first hq =>
    obtain rfl : j = ⟨_ + 1, 2⟩ := hj
    exact ⟨⟨_ + 1, 1⟩, Or.inl (Or.inr ⟨_, hq, rfl⟩), (h.next_operator hq).2.1, rfl⟩
  | later _ hq =>
    obtain rfl : j = ⟨_ + 1, 2⟩ := hj
    exact ⟨⟨_ + 1, 1⟩, Or.inl (Or.inr ⟨_, hq, rfl⟩), (h.next_operator hq).2.1, rfl⟩
  | accepted =>
    obtain rfl : j = ⟨0, 2⟩ := hj
    exact ⟨⟨0, 1⟩, Or.inl (Or.inl rfl), h.next.2.1, rfl⟩

/-- Only an expression can be predicted. -/
theorem edge_nonterminal (h : g.Binary e n op) (he : Site.Edge e n op pl sym pl')
    (hnt : g.isNonterminal sym = true) : sym = e ∧ pl.Waits := by
  have hterm {s : Nat} (hs : g.isTerminal s = true) (hs' : g.isNonterminal s = true) : False := by
    simp_all [isTerminal, isNonterminal]
  cases he with
  | whole | operand => exact ⟨rfl, trivial⟩
  | number => exact (hterm (h.predefined _ (by decide)) hnt).elim
  | first hq => exact (hterm (h.terminal _ hq).2 hnt).elim
  | later _ hq => exact (hterm (h.terminal _ hq).2 hnt).elim
  | accepted => exact (hterm (h.predefined _ (by decide)) hnt).elim

theorem head_eq (h : g.Binary e n op) (hp : p ≤ n) : g.head (p + 1) = e := by
  rcases Nat.lt_or_eq_of_le hp with hp | rfl
  · exact (h.operators p hp).1
  · exact h.numbers.1

theorem exists_waiting (h : g.Binary e n op) (hpl : pl.Proper n) (hw : pl.Waits) :
    ∃ i, pl.Kernel n i ∧ i.next? g = some e := by
  cases pl with
  | start => exact ⟨⟨0, 0⟩, rfl, h.next.1⟩
  | operator p => exact ⟨⟨p + 1, 2⟩, rfl, (h.next_operator hpl).2.2.1⟩
  | whole | operand | number | accepted => cases hw

end Grammar.Binary

namespace Automaton

variable {g : Grammar} {e n : Nat} {op : Nat → Nat} {strength : Strength} {pl pl' : Site} {q : Nat}
  {s : State}

/-! ## States -/

/-- A state of some kind. -/
structure Stands (g : Grammar) (strength : Strength) (n q : Nat) (pl : Site) (s : State) : Prop where
  state : (build g strength).states[q]? = some s
  proper : pl.Proper n
  kernel : ∀ i, i ∈ s.kernel.keys ↔ pl.Kernel n i

theorem Stands.processed (hg : g.Binary e n op) (h : Stands g strength n q pl s) :
    (build g strength).Processed s :=
  build_processed hg.indexed h.state

/-- The items of a state are those of its place. -/
theorem Stands.closed (hg : g.Binary e n op) (h : Stands g strength n q pl s) (i : Item) :
    i ∈ s.closure.keys ↔ pl.Closed n i := by
  rw [(build_sound hg.indexed strength).keys_closure (h.processed hg),
    mem_bareClosure hg.indexed s.kernel.keys_nodup]
  constructor
  · intro hi
    induction hi with
    | kernel hi => exact Or.inl ((h.kernel _).1 hi)
    | @predicted i p _ hp hnext hnt ih =>
      obtain ⟨pl', he, -, -⟩ := hg.exists_edge h.proper ih hnext
      obtain ⟨hhead, hw⟩ := hg.edge_nonterminal he hnt
      refine Or.inr ⟨hw, p - 1, ?_, ?_⟩
      · rw [hg.size] at hp
        omega
      · have : p ≠ 0 := by
          rintro rfl
          exact hg.start_head hhead
        rw [Nat.sub_one_add_one this]
  · rintro (hi | ⟨hw, p, hp, rfl⟩)
    · exact .kernel ((h.kernel i).2 hi)
    · obtain ⟨i, hi, hnext⟩ := hg.exists_waiting h.proper hw
      refine .predicted (.kernel ((h.kernel i).2 hi)) ?_ ?_ ?_
      · rw [hg.size]
        omega
      · rw [hnext, hg.head_eq hp]
      · rw [hg.head_eq hp, hg.nonterminal]

theorem stands_start (hg : g.Binary e n op) : ∃ s, Stands g strength n 0 .start s := by
  obtain ⟨s, hs, hk⟩ := (build_sound hg.indexed strength).start
  exact ⟨s, hs, trivial, fun i => by rw [hk, List.mem_singleton]; rfl⟩

/-- A transition leads from place to place. -/
theorem Stands.edge (hg : g.Binary e n op) (h : Stands g strength n q pl s) {sym q' : Nat}
    (hgo : s.goTo.find? sym = some q') :
    ∃ pl' s', Site.Edge e n op pl sym pl' ∧ Stands g strength n q' pl' s' := by
  have hp := h.processed hg
  have hgrammar := (build_sound hg.indexed strength).grammar_eq
  obtain ⟨s', hs', hgrows⟩ := hp.edges sym q' hgo
  have hmem := ((hp.symbols sym).1 (SortedMap.mem_keys_of_find? hgo)).1
  rw [hgrammar] at hmem hgrows
  obtain ⟨i, hi, hnext⟩ := mem_nextSymbols.1 hmem
  obtain ⟨pl', he, hproper, -⟩ := hg.exists_edge h.proper ((h.closed hg i).1 hi) hnext
  refine ⟨pl', s', he, hs', hproper, fun j => ?_⟩
  rw [hgrows.keys, mem_keys_target]
  constructor
  · rintro ⟨i, hi, hnext, rfl⟩
    obtain ⟨pl'', he', -, hk⟩ := hg.exists_edge h.proper ((h.closed hg i).1 hi) hnext
    exact hg.edge_unique he he' rfl ▸ hk
  · intro hj
    obtain ⟨i, hi, hnext, rfl⟩ := hg.edge_kernel he hj
    exact ⟨i, (h.closed hg i).2 hi, hnext, rfl⟩

/-- **Every state is of one of the kinds.** -/
theorem exists_stands (hg : g.Binary e n op) (hs : (build g strength).states[q]? = some s) :
    ∃ pl, Stands g strength n q pl s := by
  have hsound := build_sound hg.indexed strength
  -- kernels are reached one after the other, and each has a state of some kind
  have hreached : ∀ k, Reached g k →
      ∃ q' s' pl, Stands g strength n q' pl s' ∧ s'.kernel.keys = k := by
    intro k hk
    induction hk with
    | start =>
      obtain ⟨s, hs, hk⟩ := hsound.start
      exact ⟨0, s, .start, ⟨hs, trivial, fun i => by rw [hk, List.mem_singleton]; rfl⟩, hk⟩
    | step _ hk' ih =>
      obtain ⟨q₁, s₁, pl₁, h₁, rfl⟩ := ih
      obtain ⟨sym, hsym, rfl⟩ := mem_successors.1 hk'
      have hp := h₁.processed hg
      obtain ⟨q₂, hgo⟩ := SortedMap.exists_find?_of_mem_keys ((hsound.mem_goTo hp).2 hsym)
      obtain ⟨pl₂, s₂, -, h₂⟩ := h₁.edge hg hgo
      refine ⟨q₂, s₂, pl₂, h₂, ?_⟩
      have := hsound.goTo_kernel hp hgo
      rw [getElem?_kernels, h₂.state] at this
      exact Option.some.inj this
  obtain ⟨q', s', pl, h, hk⟩ :=
    hreached _ ((mem_kernels_build hg.indexed).1 (mem_kernels.2 ⟨q, s, hs, rfl⟩))
  exact ⟨pl, hs, h.proper, fun i => by rw [← hk, h.kernel]⟩

end Automaton

/-- The production that is reduced at a place. -/
def Site.reduces (n : Nat) : Site → Option Nat
  | operand p => some (p + 1)
  | number => some (n + 1)
  | accepted => some 0
  | start | whole | operator _ => none

/-- Where something is reduced, only an operator can lead on, behind a right operand. -/
theorem Site.Edge.behind {e n : Nat} {op : Nat → Nat} {pl pl' : Site} {sym i : Nat}
    (he : Site.Edge e n op pl sym pl') (hi : pl.reduces n = some i) :
    ∃ p q, pl = .operand p ∧ q < n ∧ sym = op q := by
  cases he with
  | whole | first | accepted | operand => cases hi
  | number hw =>
    cases pl with
    | start | operator => cases hi
    | whole | operand | number | accepted => cases hw
  | later _ hq => exact ⟨_, _, rfl, hq, rfl⟩

theorem Grammar.Binary.finished {g : Grammar} {e n : Nat} {op : Nat → Nat} {pl : Site} {i : Item}
    (h : g.Binary e n op) (hpl : pl.Proper n) (hi : pl.Closed n i) (hnext : i.next? g = none) :
    pl.reduces n = some i.prod := by
  rcases hi with hi | ⟨hw, q, hq, rfl⟩
  · cases pl with
    | start =>
      obtain rfl : i = ⟨0, 0⟩ := hi
      rw [h.next.1] at hnext
      cases hnext
    | whole =>
      rcases hi with rfl | ⟨q, hq, rfl⟩
      · rw [h.next.2.1] at hnext
        cases hnext
      · rw [(h.next_operator hq).2.1] at hnext
        cases hnext
    | operator p =>
      obtain rfl : i = ⟨p + 1, 2⟩ := hi
      rw [(h.next_operator hpl).2.2.1] at hnext
      cases hnext
    | operand p =>
      rcases hi with rfl | ⟨q, hq, rfl⟩
      · rfl
      · rw [(h.next_operator hq).2.1] at hnext
        cases hnext
    | number =>
      obtain rfl : i = ⟨n + 1, 1⟩ := hi
      rfl
    | accepted =>
      obtain rfl : i = ⟨0, 2⟩ := hi
      rfl
  · rcases Nat.lt_or_eq_of_le hq with hq | rfl
    · rw [(h.next_operator hq).1] at hnext
      cases hnext
    · rw [h.next.2.2.2.1] at hnext
      cases hnext

theorem Grammar.Binary.exists_finished {g : Grammar} {e n : Nat} {op : Nat → Nat} {pl : Site}
    (h : g.Binary e n op) (hpl : pl.Proper n) {p : Nat} (hp : pl.reduces n = some p) :
    ∃ i, pl.Closed n i ∧ i.next? g = none := by
  cases pl with
  | operand p => exact ⟨⟨p + 1, 3⟩, Or.inl (Or.inl rfl), (h.next_operator hpl).2.2.2⟩
  | number => exact ⟨⟨n + 1, 1⟩, Or.inl rfl, h.next.2.2.2.2⟩
  | accepted => exact ⟨⟨0, 2⟩, Or.inl rfl, h.next.2.2.1⟩
  | start | whole | operator => cases hp

namespace Automaton

variable {g : Grammar} {e n : Nat} {op : Nat → Nat} {strength : Strength} {pl pl' : Site} {q : Nat}
  {s : State}

theorem Stands.reduce_eq (hg : g.Binary e n op) (h : Stands g strength n q pl s) :
    s.reduce = pl.reduces n := by
  have hreduce := (h.processed hg).reduce
  rw [(build_sound hg.indexed strength).grammar_eq] at hreduce
  rw [hreduce]
  cases hr : reduction g s.closure.keys with
  | some p =>
    obtain ⟨i, hi, hnext, rfl⟩ := reduction_mem hr
    exact (hg.finished h.proper ((h.closed hg i).1 hi) hnext).symm
  | none =>
    cases hp : pl.reduces n with
    | none => rfl
    | some p =>
      obtain ⟨i, hi, hnext⟩ := hg.exists_finished h.proper hp
      obtain ⟨p', hp'⟩ := exists_reduction ((h.closed hg i).2 hi) hnext
      rw [hr] at hp'
      cases hp'

/-- A symbol leads on unless precedence rules it out. -/
theorem Stands.goes (hg : g.Binary e n op) (h : Stands g strength n q pl s) {sym : Nat}
    (he : Site.Edge e n op pl sym pl') (hfree : suppressed g s.precedence sym = false) :
    ∃ q' s', s.goTo.find? sym = some q' ∧ Stands g strength n q' pl' s' := by
  have hgrammar := (build_sound hg.indexed strength).grammar_eq
  obtain ⟨j, hj⟩ := pl'.exists_kernel n
  obtain ⟨i, hi, hnext, -⟩ := hg.edge_kernel he hj
  have hmem : sym ∈ s.goTo.keys := by
    rw [(h.processed hg).symbols, hgrammar]
    exact ⟨mem_nextSymbols.2 ⟨i, (h.closed hg i).2 hi, hnext⟩, hfree⟩
  obtain ⟨q', hgo⟩ := SortedMap.exists_find?_of_mem_keys hmem
  obtain ⟨pl'', s', he', hs'⟩ := h.edge hg hgo
  exact ⟨q', s', hgo, hg.edge_unique he he' rfl ▸ hs'⟩

/-! ## Conflicts -/

/-- A state with one complete item at most, which is settled against every transition, has no
    conflict. -/
theorem stateConflicts_eq_nil {a : Automaton} (hone : (completeItems a.grammar s).length ≤ 1)
    (hresolved : ∀ x ∈ completeItems a.grammar s, ∀ sym ∈ s.goTo.keys,
      resolved a.grammar x.1.prod sym = true) : a.stateConflicts q s = [] := by
  have hplain (shifts : Bool) : plainConflicts a.grammar shifts q s = [] := by
    have hany : (s.goTo.keys.any fun sym => a.grammar.isTerminal sym &&
        !((completeItems a.grammar s).map fun x => x.1.prod).all fun p =>
          resolved a.grammar p sym) = false := by
      simp only [List.any_eq_false, List.all_map, Bool.and_eq_true, Bool.not_eq_true', not_and,
        Bool.not_eq_false, List.all_eq_true]
      exact fun sym hsym _ x hx => hresolved x hx sym hsym
    simp only [plainConflicts, hany, List.length_map]
    simp [Nat.not_lt_of_le hone]
  have hahead : lookaheadConflicts a.grammar q s [] ((completeItems a.grammar s).map fun x =>
      (x.1.prod, (a.reduceLookahead x.1 x.2).keys)) = [] := by
    match hc : completeItems a.grammar s, hone with
    | [], _ => rfl
    | [x], _ =>
      have hx := hresolved x (by simp [hc])
      simp only [List.map_cons, List.map_nil, lookaheadConflicts, List.append_nil,
        List.flatMap_eq_nil_iff, tokenConflicts, List.lookup_nil]
      intro sym _
      rw [if_neg]
      rintro ⟨-, hgo, hno⟩
      rw [hx sym (SortedMap.contains_iff.1 hgo)] at hno
      cases hno
  unfold stateConflicts
  cases a.strength with
  | lr0 => exact hplain true
  | lr05 => exact hplain false
  | slr | lalr | lr1 => exact hahead

/-- Behind a right operand, precedence settles every operator. -/
theorem Stands.resolved (hg : g.Binary e n op) (h : Stands g strength n q pl s) {p sym : Nat}
    (hp : pl.reduces n = some p) (hsym : sym ∈ s.goTo.keys) : resolved g p sym = true := by
  obtain ⟨q', hgo⟩ := SortedMap.exists_find?_of_mem_keys hsym
  obtain ⟨pl', -, he, -⟩ := h.edge hg hgo
  obtain ⟨p', q, rfl, hq, rfl⟩ := he.behind hp
  cases hp
  obtain ⟨r, -, hr⟩ := hg.precedence _ h.proper
  obtain ⟨r', hr', -⟩ := hg.precedence _ hq
  simp [Automaton.resolved, hr, hr']

/-- **No strength finds a conflict.** -/
theorem conflicts_eq_nil (hg : g.Binary e n op) (strength : Strength) :
    (build g strength).conflicts = [] := by
  have hgrammar := (build_sound hg.indexed strength).grammar_eq
  refine List.eq_nil_iff_forall_not_mem.2 fun c hc => ?_
  obtain ⟨q, s, hs, hc⟩ := mem_conflicts.1 hc
  obtain ⟨pl, h⟩ := exists_stands hg hs
  have hcomplete {x : Item × Handle} (hx : x ∈ completeItems g s) :
      s.closure.find? x.1 = some x.2 ∧ x.1.dot = (g.body x.1.prod).length ∧
        pl.reduces n = some x.1.prod := by
    obtain ⟨hfind, hdot⟩ := mem_completeItems.1 hx
    rw [Item.isComplete, beq_iff_eq] at hdot
    refine ⟨hfind, hdot, hg.finished h.proper ((h.closed hg _).1 (SortedMap.mem_keys_of_find? hfind)) ?_⟩
    rw [Item.next?, hdot]
    exact List.getElem?_eq_none (Nat.le_refl _)
  have hunique {x y : Item × Handle} (hx : x ∈ completeItems g s) (hy : y ∈ completeItems g s) :
      x = y := by
    obtain ⟨hfx, hdx, hpx⟩ := hcomplete hx
    obtain ⟨hfy, hdy, hpy⟩ := hcomplete hy
    have hprod : x.1.prod = y.1.prod := Option.some.inj (hpx.symm.trans hpy)
    have hitem : x.1 = y.1 := by
      rw [← hprod, ← hdx] at hdy
      cases hx' : x.1
      cases hy' : y.1
      simp_all
    rw [hitem] at hfx
    exact Prod.ext hitem (Option.some.inj (hfx.symm.trans hfy))
  have hnodup : (completeItems g s).Nodup := (List.Nodup.of_map _ s.closure.keys_nodup).filter _
  rw [stateConflicts_eq_nil] at hc
  · cases hc
  · rw [hgrammar]
    rcases hi : completeItems g s with _ | ⟨x, _ | ⟨y, rest⟩⟩
    · simp
    · simp
    · have : x = y := hunique (by simp [hi]) (by simp [hi])
      simp [hi, this] at hnodup
  · rw [hgrammar]
    exact fun x hx sym hsym => h.resolved hg (hcomplete hx).2.2 hsym

end Automaton
end LayoutLR
