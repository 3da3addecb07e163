/-
  Layout-aware LR toolkit — the closure of a kernel is the least one.

  Lookahead sets are given to items such that those of a kernel are there, with at least
  their sets, and such that where an item waits for a nonterminal, its productions are there
  as well, with all that may come after them.  The closure is the least way to do so, in
  whatever order the items are looked at.

  * `Lookaheads`, `Pool.lookaheads`: items with sets, and those that a map has;
  * `Grammar.behind`, `Lookaheads.Closed`: what may come after a nonterminal, by
    derivations, and that it is there;
  * `Basis.foreseen`: what comes with a kernel, and what is announced for it;
  * `Basis.foreseen_isLeast`: these sets are the least closed ones;
  * `closure_isLeast`: the closure has these sets.
-/
import Mathlib.Order.CompletePartialOrder
import Mathlib.Order.ConditionallyCompleteLattice.Basic
import LayoutLR.Proofs.Automaton.Lookahead
import LayoutLR.Proofs.Grammar.FirstSets

namespace LayoutLR

/-! ## Sets for items -/

/-- Which items are there, and what may come after each; an item that is not there has `⊥`. -/
abbrev Lookaheads := Item → WithBot (Set Nat)

/-- The items of a map, with the sets that a pool has for them. -/
def Pool.lookaheads (pool : Pool) (m : ItemMap Handle) : Lookaheads := fun i =>
  (m.find? i).elim ⊥ fun h => ({t | t ∈ (pool.get h).keys} : Set Nat)

/-- What may come after the nonterminal `sym`, where `rest` stands between it and `after`: the
    terminals that begin what `rest` derives, and `after` where `rest` derives the empty text;
    a symbol that derives line breaks ends before one by itself. -/
def Grammar.behind (g : Grammar) (sym : Nat) (rest : List Nat) (after : Set Nat) : Set Nat :=
  {t | (g.isTerminal t = true ∧ (∃ form, g.Derives rest (t :: form)) ∨
      g.Derives rest [] ∧ t ∈ after) ∧
    ¬(t = Kind.newline.num ∧ ∃ form, g.Derives [sym] form ∧ Kind.newline.num ∈ form)}

/-- Where an item waits for a nonterminal, its productions are there, with all that may come
    after them. -/
def Lookaheads.Closed (g : Grammar) (a : Lookaheads) : Prop :=
  ∀ (i : Item) (after : Set Nat), a i = after → ∀ p < g.productions.size,
    i.next? g = some (g.head p) → g.isNonterminal (g.head p) = true →
    (g.behind (g.head p) (i.rest g) after : Set Nat) ≤ a ⟨p, 0⟩

/-- Where an item waits for a nonterminal, its productions are there. -/
def Grammar.ClosedItems (g : Grammar) (items : Set Item) : Prop :=
  ∀ i ∈ items, ∀ p < g.productions.size, i.next? g = some (g.head p) →
    g.isNonterminal (g.head p) = true → ⟨p, 0⟩ ∈ items

theorem Pool.lookaheads_ne_bot {pool : Pool} {m : ItemMap Handle} {i : Item} :
    pool.lookaheads m i ≠ ⊥ ↔ i ∈ m.keys := by
  rw [← SortedMap.find?_isSome_iff, Pool.lookaheads]
  cases m.find? i <;> simp

namespace Grammar

variable {g : Grammar} {sym t : Nat} {rest : List Nat} {after after' : Set Nat}

theorem behind_mono (h : ∀ t ∈ after, t ∈ after') (ht : t ∈ g.behind sym rest after) :
    t ∈ g.behind sym rest after' :=
  ⟨ht.1.imp_right fun ⟨hnull, hafter⟩ => ⟨hnull, h t hafter⟩, ht.2⟩

/-- What is added to the sets of productions is what may come after their head. -/
theorem mem_behind_iff (hg : g.WellFormed) {strength : Strength}
    (hl : Strength.lalr.rank ≤ strength.rank) {i : Item} {set : SymSet} :
    t ∈ g.behind sym (i.rest g) {t | t ∈ set.keys} ↔
      t ∈ ((Basis.of g strength).lookahead i sym set).keys := by
  have hfirst : (Basis.of g strength).first = g.firstSets := by
    refine Basis.first_of ?_ g
    cases strength <;> simp_all [Strength.rank, Strength.LooksAhead]
  have hgrammar : (Basis.of g strength).grammar = g := rfl
  have huses : (Basis.of g strength).strength.usesLookahead = true := decide_eq_true hl
  rw [Basis.mem_lookahead, hfirst, hgrammar, mem_firstOfSeq_iff_derives hg,
    firstOfSeq_empty_iff_derives hg, isLineLike_iff_derives hg, and_iff_right huses,
    and_comm (b := t = Kind.newline.num)]
  exact Iff.rfl

end Grammar

namespace Basis

variable {g : Grammar} {strength : Strength} {kernel items : List (Item × SymSet)} {i : Item}
  {t : Nat}

/-! ## What comes with a kernel -/

open Classical in
/-- The items that come with a kernel, with what is announced for them. -/
noncomputable def foreseen (b : Basis) (kernel : List (Item × SymSet)) : Lookaheads := fun i =>
  if i.ComesWith b.grammar (kernel.map Prod.fst) then ({t | b.Announces kernel i t} : Set Nat)
  else ⊥

variable {b : Basis}

theorem foreseen_eq_coe {after : Set Nat} (h : b.foreseen kernel i = after) :
    i.ComesWith b.grammar (kernel.map Prod.fst) ∧ {t | b.Announces kernel i t} = after := by
  rw [foreseen] at h
  split_ifs at h with hi
  · exact ⟨hi, WithBot.coe_injective h⟩
  · cases h

theorem foreseen_ne_bot :
    b.foreseen kernel i ≠ ⊥ ↔ i.ComesWith b.grammar (kernel.map Prod.fst) := by
  rw [foreseen]
  split_ifs with hi <;> simp [hi]

theorem le_foreseen {after : Set Nat} (hi : i.ComesWith b.grammar (kernel.map Prod.fst))
    (h : ∀ t ∈ after, b.Announces kernel i t) :
    (after : WithBot (Set Nat)) ≤ b.foreseen kernel i := by
  rw [foreseen, if_pos hi]
  exact WithBot.coe_le_coe.2 h

/-- A closure that was interned has the sets that are foreseen. -/
theorem IsClosure.lookaheads_eq (h : b.IsClosure kernel items) (pool : Pool) :
    (Automaton.internItems items pool).2.lookaheads (Automaton.internItems items pool).1 =
      b.foreseen kernel := by
  obtain ⟨-, -, hmem⟩ := Automaton.internItems_spec h.nodup pool
  funext i
  rw [Pool.lookaheads, foreseen]
  cases hfind : (Automaton.internItems items pool).1.find? i with
  | none =>
    rw [if_neg, Option.elim_none]
    intro hi
    obtain ⟨e, he, rfl⟩ := List.mem_map.1 (h.mem_iff.2 hi)
    obtain ⟨x, hx, -⟩ := (hmem e.1 e.2).1 he
    rw [hfind] at hx
    cases hx
  | some x =>
    have he := (hmem i _).2 ⟨x, hfind, rfl⟩
    rw [if_pos (h.mem_iff.1 (List.mem_map_of_mem he)), Option.elim_some]
    exact congrArg _ (Set.ext fun t => h.mem_set_iff he)

/-- What is foreseen is closed. -/
theorem foreseen_closed (hg : g.WellFormed) (hl : Strength.lalr.rank ≤ strength.rank) :
    ((Basis.of g strength).foreseen kernel).Closed g := by
  intro i after hi p hp hnext hnt
  obtain ⟨hcomes, rfl⟩ := foreseen_eq_coe hi
  refine le_foreseen (.predicted hcomes hp hnext hnt) fun t ht => ?_
  -- what is behind the nonterminal begins there, or is passed on
  have hlook : t ∈ g.behind (g.head p) (i.rest g) {u | u ∈ (SymSet.ofKeys [t]).keys} ∧
      (Basis.of g strength).Announces kernel i t ∨
      t ∈ g.behind (g.head p) (i.rest g) {u | u ∈ (∅ : SymSet).keys} := by
    obtain ⟨hbegin | ⟨hnull, hafter⟩, hline⟩ := ht
    · exact Or.inr ⟨Or.inl hbegin, hline⟩
    · exact Or.inl ⟨⟨Or.inr ⟨hnull, by simp⟩, hline⟩, hafter⟩
  rcases hlook with ⟨hpasses, hafter⟩ | hopens
  · exact .passes hafter hp hnext hnt ((Grammar.mem_behind_iff hg hl).1 hpasses)
  · exact .opens hcomes hp hnext hnt ((Grammar.mem_behind_iff hg hl).1 hopens)

/-- Items that hold a kernel, with its sets. -/
def Holds (kernel : List (Item × SymSet)) (a : Lookaheads) : Prop :=
  ∀ e ∈ kernel, ({t | t ∈ e.2.keys} : Set Nat) ≤ a e.1

section

variable {a : Lookaheads}

/-- Items that come with a kernel are there wherever its items are. -/
theorem exists_of_comesWith (hk : Holds kernel a) (hclosed : a.Closed g)
    (hi : i.ComesWith g (kernel.map Prod.fst)) : ∃ s : Set Nat, a i = s := by
  induction hi with
  | kernel hi =>
    obtain ⟨e, he, rfl⟩ := List.mem_map.1 hi
    obtain ⟨s, hs, -⟩ := WithBot.coe_le_iff.1 (hk e he)
    exact ⟨s, hs⟩
  | predicted _ hp hnext hnt ih =>
    obtain ⟨s, hs⟩ := ih
    obtain ⟨s', hs', -⟩ := WithBot.coe_le_iff.1 (hclosed _ s hs _ hp hnext hnt)
    exact ⟨s', hs'⟩

/-- What is announced for an item is in any closed set for it. -/
theorem exists_of_announces (hg : g.WellFormed) (hl : Strength.lalr.rank ≤ strength.rank)
    (hk : Holds kernel a) (hclosed : a.Closed g) (ht : (Basis.of g strength).Announces kernel i t) :
    ∃ s : Set Nat, a i = s ∧ t ∈ s := by
  induction ht with
  | kernel he ht =>
    obtain ⟨s, hs, hsub⟩ := WithBot.coe_le_iff.1 (hk _ he)
    exact ⟨s, hs, hsub ht⟩
  | opens hi hp hnext hnt ht =>
    obtain ⟨s, hs⟩ := exists_of_comesWith hk hclosed hi
    obtain ⟨s', hs', hsub⟩ := WithBot.coe_le_iff.1 (hclosed _ s hs _ hp hnext hnt)
    refine ⟨s', hs', hsub (Grammar.behind_mono ?_ ((Grammar.mem_behind_iff hg hl).2 ht))⟩
    simp
  | passes _ hp hnext hnt ht ih =>
    obtain ⟨s, hs, hmem⟩ := ih
    obtain ⟨s', hs', hsub⟩ := WithBot.coe_le_iff.1 (hclosed _ s hs _ hp hnext hnt)
    refine ⟨s', hs', hsub (Grammar.behind_mono ?_ ((Grammar.mem_behind_iff hg hl).2 ht))⟩
    simpa using hmem

/-- **What is foreseen is the least** that holds the kernel and is closed. -/
theorem foreseen_isLeast (hg : g.WellFormed) (hl : Strength.lalr.rank ≤ strength.rank) :
    IsLeast {a : Lookaheads | Holds kernel a ∧ a.Closed g}
      ((Basis.of g strength).foreseen kernel) := by
  refine ⟨⟨fun e he => ?_, foreseen_closed hg hl⟩, fun a ⟨hk, hclosed⟩ i => ?_⟩
  · exact le_foreseen (.kernel (List.mem_map_of_mem he)) fun t ht => .kernel he ht
  · rw [foreseen]
    split_ifs with hi
    · obtain ⟨s, hs⟩ := exists_of_comesWith hk hclosed hi
      rw [hs, WithBot.coe_le_coe]
      intro t ht
      obtain ⟨s', hs', hmem⟩ := exists_of_announces hg hl hk hclosed ht
      rw [hs, WithBot.coe_inj] at hs'
      rwa [hs']
    · exact bot_le

end

/-- The items that come with a kernel are the least closed ones. -/
theorem comesWith_isLeast (g : Grammar) (kernel : List Item) :
    IsLeast {items : Set Item | (∀ i ∈ kernel, i ∈ items) ∧ g.ClosedItems items}
      {i | i.ComesWith g kernel} := by
  refine ⟨⟨fun i hi => .kernel hi, fun i hi p hp hnext hnt => .predicted hi hp hnext hnt⟩, ?_⟩
  rintro items ⟨hk, hclosed⟩ i hi
  induction hi with
  | kernel hi => exact hk _ hi
  | predicted _ hp hnext hnt ih => exact hclosed _ ih _ hp hnext hnt

end Basis

/-! ## Closures of states -/

namespace Automaton

variable {a : Automaton} {g : Grammar} {strength : Strength} {s : State}

theorem lookaheads_le_iff {m : ItemMap Handle} {l : Lookaheads} :
    a.pool.lookaheads m ≤ l ↔ Basis.Holds (a.items m) l := by
  constructor
  · rintro h ⟨i, set⟩ he
    obtain ⟨x, hx, rfl⟩ := mem_items.1 he
    have hi := h i
    rw [Pool.lookaheads, hx, Option.elim_some] at hi
    exact hi
  · intro h i
    rw [Pool.lookaheads]
    cases hx : m.find? i with
    | none => exact bot_le
    | some x => exact h (i, a.set x) (mem_items.2 ⟨x, hx, rfl⟩)

/-- Without lookahead, the sets of a kernel are kept, and the others are empty. -/
theorem foreseen_plain (hl : a.strength.usesLookahead = false) {i : Item}
    (hi : i.ComesWith a.grammar ((a.items s.kernel).map Prod.fst)) :
    a.basis.foreseen (a.items s.kernel) i = a.pool.lookaheads s.kernel i ⊔ (∅ : Set Nat) := by
  have hplain : ∀ t, a.basis.Announces (a.items s.kernel) i t →
      ∃ x, s.kernel.find? i = some x ∧ t ∈ (a.set x).keys := fun t ht => by
    rcases ht.plain with hu | ⟨set, he, ht⟩
    · exact absurd (hu.symm.trans hl) (by decide)
    · obtain ⟨x, hx, rfl⟩ := mem_items.1 he
      exact ⟨x, hx, ht⟩
  rw [Basis.foreseen, if_pos hi, Pool.lookaheads]
  cases hfind : s.kernel.find? i with
  | none =>
    rw [Option.elim_none, bot_sup_eq, WithBot.coe_inj, Set.eq_empty_iff_forall_notMem]
    intro t ht
    obtain ⟨x, hx, -⟩ := hplain t ht
    rw [hfind] at hx
    cases hx
  | some x =>
    rw [Option.elim_some, sup_of_le_left (WithBot.coe_le_coe.2 (Set.empty_subset _)),
      WithBot.coe_inj]
    refine Set.ext fun t => ⟨fun ht => ?_, fun ht => .kernel (mem_items.2 ⟨x, hfind, rfl⟩) ht⟩
    obtain ⟨x', hx', hmem⟩ := hplain t ht
    rw [hfind] at hx'
    cases hx'
    exact hmem

/-- Without lookahead, all sets in the kernels of an automaton are empty. -/
theorem kernel_plain (hindexed : g.Indexed) (hl : strength.usesLookahead = false)
    (hs : s ∈ (build g strength).states) (i : Item) :
    (build g strength).pool.lookaheads s.kernel i ≤ (∅ : Set Nat) := by
  have hshaped := (build_sound hindexed strength).toShaped
  obtain ⟨q, hq⟩ := Array.mem_iff_getElem?.1 hs
  rw [Pool.lookaheads]
  cases hfind : s.kernel.find? i with
  | none => exact bot_le
  | some x =>
    rw [Option.elim_some, WithBot.coe_le_coe]
    intro t ht
    have hu := (hshaped.covered q s hq).plain i x hfind t ht
    rw [hshaped.strength_eq, hl] at hu
    cases hu

/-- **The closure of a kernel is the least one.**  With lookahead, it is the least way to give
    sets to items that holds the kernel and is closed: where an item waits for a nonterminal, its
    productions are there with all that may come after them.  Without, it has the least closed
    set of items, with empty sets but for those of the kernel, which are empty in every automaton.
    The items may be looked at in any order: that comes to an end, and the sets are the same. -/
theorem closure_isLeast {code : List CodeNode} (h : Grammar.read code = .ok g)
    (ha : a.basis = .of g strength)
    (hs : ∀ e ∈ a.items s.kernel, ∀ t ∈ e.2.keys, t < g.symbols.size) :
    (Strength.lalr.rank ≤ strength.rank →
      IsLeast {l : Lookaheads | a.pool.lookaheads s.kernel ≤ l ∧ l.Closed g}
        ((a.closureOf s).2.lookaheads (a.closureOf s).1)) ∧
    (strength.rank < Strength.lalr.rank →
      IsLeast {items : Set Item | (∀ i ∈ s.kernel.keys, i ∈ items) ∧ g.ClosedItems items}
        {i | i ∈ (a.closureOf s).1.keys} ∧
      (∀ i ∈ (a.closureOf s).1.keys, (a.closureOf s).2.lookaheads (a.closureOf s).1 i =
        a.pool.lookaheads s.kernel i ⊔ (∅ : Set Nat)) ∧
      ∀ s' ∈ (build g strength).states, ∀ i,
        (build g strength).pool.lookaheads s'.kernel i ≤ (∅ : Set Nat)) ∧
    ∀ n c, a.basis.Worked ⟨a.items s.kernel, s.kernel.keys⟩ n c →
      n + c.queue.length ≤ a.basis.closureSteps (a.items s.kernel) ∧
      (c.queue = [] → (internItems c.items a.pool).2.lookaheads (internItems c.items a.pool).1 =
        (a.closureOf s).2.lookaheads (a.closureOf s).1) := by
  have hg := Grammar.read_wellFormed h
  have hgrammar : a.grammar = g := by
    rw [grammar, ha]
    rfl
  have hstrength : a.strength = strength := by
    rw [Automaton.strength, ha]
    rfl
  have hkeys : (a.items s.kernel).map Prod.fst = s.kernel.keys := items_keys a s.kernel
  have hn : ((a.items s.kernel).map Prod.fst).Nodup := hkeys ▸ SortedMap.keys_nodup s.kernel
  have hproper : a.basis.Proper := ha ▸ Basis.of_proper hg.indexed strength
  rw [← hgrammar] at hs
  have hlook : (a.closureOf s).2.lookaheads (a.closureOf s).1 =
      a.basis.foreseen (a.items s.kernel) :=
    (Basis.closure_isClosure hproper hn hs).lookaheads_eq a.pool
  have hmem : ∀ i, i ∈ (a.closureOf s).1.keys ↔ i.ComesWith a.grammar s.kernel.keys := fun i => by
    rw [← Pool.lookaheads_ne_bot, hlook, Basis.foreseen_ne_bot, hkeys]
  refine ⟨fun hl => ?_, fun hl => ⟨?_, fun i hi => ?_, fun s' hs' => kernel_plain hg.indexed ?_ hs'⟩,
    fun n c hc => ?_⟩
  · simp only [hlook, lookaheads_le_iff, ha]
    exact Basis.foreseen_isLeast hg hl
  · simp only [hmem, hgrammar]
    exact Basis.comesWith_isLeast g s.kernel.keys
  · rw [hlook]
    refine foreseen_plain ?_ (hkeys ▸ (hmem i).1 hi)
    rw [hstrength]
    exact decide_eq_false (Nat.not_le.2 hl)
  · exact decide_eq_false (Nat.not_le.2 hl)
  · rw [← hkeys] at hc
    refine ⟨hc.bounded hproper hn hs, fun hq => ?_⟩
    rw [hlook]
    exact (hc.isClosure hproper hn hs hq).lookaheads_eq a.pool

/-- A list whose later members may be empty: what may come after the list grows once its own
    production has been looked at. -/
def trailingParts : String :=
  "S -> S A | NUMBER\nA -> STRING |\n"

/-- At the start of the list, its end or a string may come after either production. -/
theorem closure_isLeast_trailingParts : ∃ g s, Grammar.readText trailingParts = .ok g ∧
    (initial (.of g .lalr)).states[0]? = some s ∧
    ((initial (.of g .lalr)).basis.closure ((initial (.of g .lalr)).items s.kernel)).map
      (fun e => (e.1, e.2.keys.map g.name)) =
        [(⟨0, 0⟩, []), (⟨1, 0⟩, ["STRING", "$eof"]), (⟨2, 0⟩, ["STRING", "$eof"])] ∧
    (∀ e ∈ (initial (.of g .lalr)).items s.kernel, ∀ t ∈ e.2.keys, t < g.symbols.size) ∧
    IsLeast {l : Lookaheads | (initial (.of g .lalr)).pool.lookaheads s.kernel ≤ l ∧ l.Closed g}
      (((initial (.of g .lalr)).closureOf s).2.lookaheads
        ((initial (.of g .lalr)).closureOf s).1) := by
  obtain ⟨g, hg, htest⟩ := Grammar.exists_readText trailingParts (fun g =>
    (initial (.of g .lalr)).states[0]?.any fun s =>
      ((initial (.of g .lalr)).basis.closure ((initial (.of g .lalr)).items s.kernel)).map
        (fun e => (e.1, e.2.keys.map g.name)) ==
          [(⟨0, 0⟩, []), (⟨1, 0⟩, ["STRING", "$eof"]), (⟨2, 0⟩, ["STRING", "$eof"])] &&
      ((initial (.of g .lalr)).items s.kernel).all fun e =>
        e.2.keys.all fun t => decide (t < g.symbols.size))
    (by decide +kernel)
  rw [Option.any_eq_true] at htest
  obtain ⟨s, hs, htest⟩ := htest
  rw [Bool.and_eq_true, beq_iff_eq] at htest
  obtain ⟨hclosure, hlt⟩ := htest
  have hkernel : ∀ e ∈ (initial (.of g .lalr)).items s.kernel, ∀ t ∈ e.2.keys,
      t < g.symbols.size := by
    simpa using hlt
  have hbasis := (initial_sound (Grammar.read_wellFormed hg).indexed .lalr).toShaped.basis
  exact ⟨g, s, hg, hs, hclosure, hkernel, (closure_isLeast hg hbasis hkernel).1 (by decide)⟩

end Automaton

end LayoutLR
