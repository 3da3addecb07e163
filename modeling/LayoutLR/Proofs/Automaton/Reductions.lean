/-
  Layout-aware LR toolkit — reductions come to an end.

  A table reduces whatever comes next, so a state may reduce what no token asks
  for.  Reductions with a token in their body use the symbols on the stack up, but
  others may go on for ever.  If each of them is the one that some token asks for,
  they do not: the reductions that lead to the shift of a token are finitely many,
  without conflicts they are the ones that are made, and there are finitely many
  tokens.

  * `Grammar.Gets`, `Grammar.Expects.gets`: a token that may come next is shifted after some
    reductions;
  * `Table.Falls`: what a reduction does to the symbols on a stack;
  * `Grammar.expects_of_reduced`: what may come after a reduction may come before it;
  * `Grammar.Prompt`: reductions without tokens are asked for;
  * `Grammar.wellFounded_falls`: there is no endless row of reductions.
-/
import Mathlib.Order.Filter.AtTopBot.Basic
import Mathlib.Order.Filter.Finite
import Mathlib.Order.WellFounded
import LayoutLR.Proofs.Automaton.Prefixes

namespace LayoutLR

namespace Grammar

open Automaton

variable {g : Grammar} {γ γ' : List Nat} {i : Item} {n p q sym t : Nat}

/-! ## Tokens that can be shifted -/

/-- A token can be shifted after `n` reductions, each of which it may come after. -/
inductive Gets (g : Grammar) (t : Nat) : Nat → List Nat → Prop
  | waits {γ : List Nat} {i : Item} (hi : g.At γ i) (hnext : i.next? g = some t) : Gets g t 0 γ
  | reduce {before : List Nat} {n p : Nat}
      (h : g.Expects ((g.body p).reverse ++ before) ⟨p, (g.body p).length⟩ t)
      (hget : Gets g t n (g.head p :: before)) : Gets g t (n + 1) ((g.body p).reverse ++ before)

/-- A symbol that a token may come after can be made from nothing: the token can be shifted in
    front of the symbol if it can be behind it. -/
def Absorbs (g : Grammar) (t sym : Nat) : Prop :=
  ∀ γ i n, g.At γ i → i.next? g = some sym → i.Next g (g.Expects γ i) t →
    g.Gets t n (sym :: γ) → ∃ n', g.Gets t n' γ

/-- Several such symbols, and what comes behind them. -/
theorem gets_of_absorbs (hg : g.WellFormed) {syms more : List Nat}
    (habsorbs : ∀ s ∈ syms, g.isNullable s = true ∧ g.Absorbs t s) (hi : g.At γ i)
    (hrest : i.remaining g = syms ++ more)
    (hmore : t ∈ (g.firstOfSeq g.firstSets more).1.keys ∨
      (g.firstOfSeq g.firstSets more).2 = true ∧ g.Expects γ i t)
    (h : g.Gets t n (syms.reverse ++ γ)) : ∃ n', g.Gets t n' γ := by
  induction syms generalizing γ i with
  | nil => exact ⟨n, h⟩
  | cons sym syms ih =>
    obtain ⟨⟨hnull, habsorb⟩, habsorbs⟩ := List.forall_mem_cons.1 habsorbs
    have hnext := Item.next?_of_remaining hrest
    have hrest' := Item.rest_of_remaining hrest
    obtain ⟨q, hq⟩ := hi.exists_walk? hg hnext (isTerminal_of_isNullable hg hnull)
    rw [List.reverse_cons, List.append_assoc, List.singleton_append] at h
    have hmore' := hmore.imp_right fun hmore => And.intro hmore.1 (hmore.2.shift hnext hq)
    obtain ⟨n', hget⟩ := ih habsorbs (hi.shift hg hnext hq) hrest' hmore' h
    refine habsorb γ i n' hi hnext ?_ hget
    unfold Item.Next
    rw [hrest', firstOfSeq_empty_iff]
    rcases hmore with hmore | ⟨hempty, hexpects⟩
    · exact Or.inl (mem_firstOfSeq_append.2 (Or.inr ⟨fun s hs => (habsorbs s hs).1, hmore⟩))
    · refine Or.inr ⟨?_, hexpects⟩
      intro s hs
      rcases List.mem_append.1 hs with hs | hs
      · exact (habsorbs s hs).1
      · exact isNullable_of_body hempty s hs

/-- A token that may come after the head may come after the body. -/
theorem Gets.reduce_at (hi : g.Expects γ ⟨p, 0⟩ t)
    (hq : g.canonical.table.walk? ((g.body p).reverse ++ γ) = some q)
    (h : g.Gets t n (g.head p :: γ)) : g.Gets t (n + 1) ((g.body p).reverse ++ γ) :=
  .reduce (hi.whole hq) h

theorem Vanishes.absorbs (hg : g.WellFormed) (h : g.Vanishes sym) : g.Absorbs t sym := by
  induction h with
  | @head p hp hbody ih =>
    intro γ i n hi hnext ht hget
    have hexpects := expects_of_next hi hp hnext ht
    have hnull (s : Nat) (hs : s ∈ g.body p) := (hbody s hs).isNullable hg
    have hrest : (⟨p, 0⟩ : Item).remaining g = g.body p ++ [] := by
      simp [Item.remaining]
    obtain ⟨q, hq, -⟩ := (hexpects.at hg).past hg hrest fun s hs =>
      isTerminal_of_isNullable hg (hnull s hs)
    exact gets_of_absorbs hg (fun s hs => ⟨hnull s hs, ih s hs⟩) (hexpects.at hg) hrest
      (Or.inr ⟨rfl, hexpects⟩) (hget.reduce_at hexpects hq)

theorem absorbs_of_isNullable (hg : g.WellFormed) (h : g.isNullable sym = true) :
    g.isNullable sym = true ∧ g.Absorbs t sym :=
  ⟨h, (vanishes_of_isNullable hg h).absorbs hg⟩

/-- A token that a symbol begins with can be shifted in front of the symbols before it, if these
    may be empty. -/
theorem gets_of_begins (hg : g.WellFormed) {before after : List Nat} (hi : g.At γ i)
    (hrest : i.remaining g = before ++ sym :: after)
    (hbefore : ∀ s ∈ before, g.isNullable s = true) (ht : t ∈ (g.firstSets.of sym).keys)
    (h : ∀ γ i, g.At γ i → i.next? g = some sym → ∃ n, g.Gets t n γ) : ∃ n, g.Gets t n γ := by
  have hat := hi.past hg hrest fun s hs => isTerminal_of_isNullable hg (hbefore s hs)
  have hnext : (i.past before.length).next? g = some sym := by
    have hrest' : (i.past before.length).remaining g = sym :: after := by
      rw [Item.remaining] at hrest ⊢
      rw [Item.past, ← List.drop_drop, hrest, List.drop_left]
    exact Item.next?_of_remaining hrest'
  obtain ⟨n, hget⟩ := h _ _ hat hnext
  exact gets_of_absorbs hg (fun s hs => absorbs_of_isNullable hg (hbefore s hs)) hi hrest
    (Or.inl (mem_firstOfSeq_cons.2 (Or.inl ht))) hget

theorem gets_of_starts (hg : g.WellFormed) (h : g.Starts sym t) (hi : g.At γ i)
    (hnext : i.next? g = some sym) : ∃ n, g.Gets t n γ := by
  induction h generalizing γ i with
  | self _ => exact ⟨0, .waits hi hnext⟩
  | @head p _ _ _ _ hp hbody hbefore hs ih =>
    have hrest : (⟨p, 0⟩ : Item).remaining g = g.body p := rfl
    refine gets_of_begins hg (hi.predict hg hp hnext) (hrest.trans hbody) hbefore
      (hs.mem_firstSets hg) ?_
    intro γ i hi hnext
    exact ih hi hnext

theorem gets_of_first (hg : g.WellFormed) (hi : g.At γ i)
    (ht : t ∈ (g.firstOfSeq g.firstSets (i.remaining g)).1.keys) : ∃ n, g.Gets t n γ := by
  obtain ⟨before, sym, after, hrest, hbefore, hsym⟩ := exists_start ht
  refine gets_of_begins hg hi hrest hbefore hsym ?_
  intro γ i hi hnext
  exact gets_of_starts hg (starts_of_mem_firstSets hg hsym) hi hnext

/-- **What may come after an item can be shifted** when the item has been met as a whole. -/
theorem Expects.gets (hg : g.WellFormed) (h : g.Expects γ i t)
    (hq : g.canonical.table.walk? ((i.remaining g).reverse ++ γ) = some q) :
    ∃ n, g.Gets t n ((i.remaining g).reverse ++ γ) := by
  -- once the head has been pushed, it is up to the item that waits for it
  have hhead {γ : List Nat} {i : Item} {p q t : Nat} (hi : g.At γ i)
      (hp : p < g.productions.size) (hnext : i.next? g = some (g.head p))
      (h : g.Expects γ ⟨p, 0⟩ t)
      (hq : g.canonical.table.walk? (((⟨p, 0⟩ : Item).remaining g).reverse ++ γ) = some q)
      (hget : g.At (g.head p :: γ) i.advance → ∃ n, g.Gets t n (g.head p :: γ)) :
      ∃ n, g.Gets t n (((⟨p, 0⟩ : Item).remaining g).reverse ++ γ) := by
    obtain ⟨q', hq'⟩ := hi.exists_walk? hg hnext (isTerminal_eq_false (hg.head p hp))
    obtain ⟨n, hget⟩ := hget (hi.shift hg hnext hq')
    exact ⟨n + 1, hget.reduce_at h hq⟩
  induction h generalizing q with
  | first hi hp hnext ht =>
    refine hhead hi hp hnext (.first hi hp hnext ht) hq ?_
    intro hadvance
    exact gets_of_first hg hadvance ht
  | @pass γ i p t h hp hnext hempty ih =>
    have hi := h.at hg
    have hempty' := isNullable_of_body hempty
    refine hhead hi hp hnext (.pass h hp hnext hempty) hq ?_
    intro hadvance
    obtain ⟨q', hq', -⟩ := hadvance
    have hrest : i.advance.remaining g = i.rest g ++ [] := (List.append_nil _).symm
    obtain ⟨q'', hq'', -⟩ := (hi.shift hg hnext hq').past hg hrest fun s hs =>
      isTerminal_of_isNullable hg (hempty' s hs)
    have hsplit : (i.remaining g).reverse ++ γ = (i.rest g).reverse ++ g.head p :: γ := by
      rw [Item.remaining_of_next? hnext, List.reverse_cons, List.append_assoc,
        List.singleton_append]
    rw [hsplit] at ih
    obtain ⟨n, hget⟩ := ih hq''
    exact gets_of_absorbs hg (fun s hs => absorbs_of_isNullable hg (hempty' s hs))
      (hi.shift hg hnext hq') hrest (Or.inr ⟨rfl, h.shift hnext hq'⟩) hget
  | @shift γ i sym t _ h hnext _ ih =>
    have hsplit : (i.remaining g).reverse ++ γ = (i.advance.remaining g).reverse ++ sym :: γ := by
      rw [Item.remaining_of_next? hnext, List.reverse_cons, List.append_assoc,
        List.singleton_append]
      rfl
    rw [hsplit] at ih
    exact ih hq

end Grammar

/-! ## Reductions -/

/-- The symbols on a stack before and after the reduction of the state that they lead to. -/
def Table.Falls (g : Grammar) (t : Table) (γ γ' : List Nat) : Prop :=
  ∃ q p before, t.walk? γ = some q ∧ t.reduce? q = some (g.reductionBy p) ∧ p ≠ 0 ∧
    γ = (g.body p).reverse ++ before ∧ γ' = g.head p :: before

namespace Grammar

open Automaton

variable {g : Grammar} {γ γ' before : List Nat} {i : Item} {n p q sym t : Nat}

/-- What a body in which an item waits begins with, begins behind an item in front of the last
    symbol. -/
theorem At.first_behind (hg : g.WellFormed) (hi : g.At (sym :: γ) i)
    (ht : t ∈ (g.firstOfSeq g.firstSets (i.remaining g)).1.keys) :
    ∃ j, g.At γ j ∧ j.next? g = some sym ∧
      t ∈ (g.firstOfSeq g.firstSets (j.rest g)).1.keys := by
  revert ht
  refine hi.induction hg (P := fun i => t ∈ (g.firstOfSeq g.firstSets (i.remaining g)).1.keys → _)
    ?_ ?_
  · intro i hi hkernel ht
    have hdot : 0 < i.dot := by
      rcases hkernel with hdot | ⟨hnil, -⟩
      · exact hdot
      · cases hnil
    obtain ⟨_, _, j, heq, hj, hnext, rfl⟩ := hi.behind hg hdot
    obtain ⟨rfl, rfl⟩ := List.cons.inj heq
    exact ⟨j, hj, hnext, ht⟩
  · intro i p ih hp hnext ht
    refine ih ?_
    rw [Item.remaining_of_next? hnext]
    exact mem_firstOfSeq_cons.2 (Or.inl (mem_firstSets_head hg hp ht))

/-- What may come after an item of which nothing is left but empty symbols may come after the last
    symbol, in front of it. -/
theorem Expects.behind (hg : g.WellFormed) (h : g.Expects (sym :: γ) i t)
    (hempty : ∀ s ∈ i.remaining g, g.isNullable s = true) :
    ∃ j, g.At γ j ∧ j.next? g = some sym ∧ j.Next g (g.Expects γ j) t := by
  -- an item that waits for such a head has nothing else left if its rest is empty too
  have hremaining {i : Item} {p : Nat} (hp : p < g.productions.size)
      (hnext : i.next? g = some (g.head p))
      (hbody : ∀ s ∈ (⟨p, 0⟩ : Item).remaining g, g.isNullable s = true) :
      i.remaining g = g.head p :: i.rest g ∧ g.isNullable (g.head p) = true :=
    ⟨Item.remaining_of_next? hnext, isNullable_head hg hp hbody⟩
  generalize hγ : sym :: γ = δ at h
  induction h with
  | @first _ i _ _ hi hp hnext ht =>
    subst hγ
    obtain ⟨hrest, hnull⟩ := hremaining hp hnext hempty
    obtain ⟨j, hj, hnext', ht'⟩ := hi.first_behind hg (t := _)
      (by rw [hrest]; exact mem_firstOfSeq_cons.2 (Or.inr ⟨hnull, ht⟩))
    exact ⟨j, hj, hnext', Or.inl ht'⟩
  | pass h hp hnext hrest ih =>
    obtain ⟨hsplit, hnull⟩ := hremaining hp hnext hempty
    refine ih ?_ hγ
    rw [hsplit]
    exact List.forall_mem_cons.2 ⟨hnull, isNullable_of_body hrest⟩
  | shift h hnext _ _ =>
    obtain ⟨rfl, rfl⟩ := List.cons.inj hγ
    exact ⟨_, h.at hg, hnext, Or.inr ⟨firstOfSeq_empty_iff.2 hempty, h⟩⟩

/-- **What may come after a reduction may come before it.** -/
theorem expects_of_reduced (hg : g.WellFormed)
    (hq : g.canonical.table.walk? ((g.body p).reverse ++ before) = some q)
    (hr : g.canonical.table.reduce? q = some (g.reductionBy p)) (hne : p ≠ 0)
    (hnext : i.next? g = none) (h : g.Expects (g.head p :: before) i t) :
    g.Expects ((g.body p).reverse ++ before) ⟨p, (g.body p).length⟩ t := by
  have hempty : ∀ s ∈ i.remaining g, g.isNullable s = true := by
    have hnil : i.remaining g = [] := by
      rw [Item.remaining, List.drop_eq_nil_iff]
      exact List.getElem?_eq_none_iff.1 hnext
    simp [hnil]
  obtain ⟨j, hj, hnext, ht⟩ := h.behind hg hempty
  have hp : p < g.productions.size := by
    have hsound := build_sound hg.indexed .lr1
    have hvalid := hsound.backed.valid q _ (hsound.has_reduce hr).2
    exact hvalid.resolve_right hne
  exact (expects_of_next hj hp hnext ht).whole hq

/-! ## Reductions without tokens -/

/-- A production without tokens. -/
def Tokenless (g : Grammar) (p : Nat) : Prop :=
  ∀ s ∈ g.body p, g.isTerminal s = false

/-- Productions without tokens have no precedence. -/
def Unranked (g : Grammar) : Prop :=
  ∀ p < g.productions.size, g.Tokenless p → g.productions[p]?.bind Production.precedence = none

theorem Unranked.precedence (h : g.Unranked) (hp : g.Tokenless p) :
    g.productions[p]?.bind Production.precedence = none := by
  by_cases hlt : p < g.productions.size
  · exact h p hlt hp
  · simp [Nat.not_lt.1 hlt]

/-- A production is the only thing to do before a token.  Only for the line break there is
    something to say: conflicts about it are not reported. -/
def Asked (g : Grammar) (s : State) (p t : Nat) : Prop :=
  t = Kind.newline.num → t ∉ s.goTo.keys ∧ ∀ i ∈ s.closure.keys, i.next? g = none → i.prod = p

/-- Some token asks for each reduction without tokens. -/
def Prompt (g : Grammar) : Prop :=
  ∀ s ∈ g.canonical.states, ∀ p ∈ s.reduce, p ≠ 0 → g.Tokenless p →
    ∃ t ∈ (g.canonical.setOf s.closure ⟨p, (g.body p).length⟩).keys, g.Asked s p t

instance (g : Grammar) (p : Nat) : Decidable (g.Tokenless p) :=
  inferInstanceAs (Decidable (∀ s ∈ g.body p, g.isTerminal s = false))

instance (g : Grammar) : Decidable g.Unranked :=
  inferInstanceAs (Decidable (∀ p < g.productions.size, g.Tokenless p →
    g.productions[p]?.bind Production.precedence = none))

instance (g : Grammar) (s : State) (p t : Nat) : Decidable (g.Asked s p t) :=
  inferInstanceAs (Decidable (t = Kind.newline.num →
    t ∉ s.goTo.keys ∧ ∀ i ∈ s.closure.keys, i.next? g = none → i.prod = p))

instance (g : Grammar) : Decidable g.Prompt :=
  inferInstanceAs (Decidable (∀ s ∈ g.canonical.states, ∀ p ∈ s.reduce, p ≠ 0 → g.Tokenless p →
    ∃ t ∈ (g.canonical.setOf s.closure ⟨p, (g.body p).length⟩).keys, g.Asked s p t))

/-- The next reduction has no tokens, and a token asks for it. -/
def Sure (g : Grammar) (γ : List Nat) (t : Nat) : Prop :=
  ∃ q s p, g.canonical.table.walk? γ = some q ∧ g.canonical.states[q]? = some s ∧
    s.reduce = some p ∧ p ≠ 0 ∧ g.Tokenless p ∧ g.Expects γ ⟨p, (g.body p).length⟩ t ∧
    g.Asked s p t

/-- Without conflicts there are none at full strength. -/
theorem canonical_no_clash (hg : g.WellFormed) (hc : (build g .lalr).conflicts = [])
    (q t : Nat) (kind : ConflictKind) : ¬ g.canonical.Clash q t kind := by
  intro hclash
  have hcol : g.canonical.CollapsesTo (build g .lalr) :=
    build_collapsesTo hg.indexed .lr1 (by decide)
  obtain ⟨q', -, hq'⟩ := hcol.defined q hclash.lt
  have hl : (build g .lalr).strength.LooksAhead :=
    Or.inr (Or.inl (build_sound hg.indexed .lalr).strength_eq)
  exact not_clash hl hc kind (hclash.merged hg.indexed hq')

theorem reduce?_canonical (hg : g.WellFormed) {s : State} (hs : g.canonical.states[q]? = some s) :
    g.canonical.table.reduce? q = some (g.reductionBy p) ↔ s.reduce = some p := by
  have hgr : g.canonical.grammar = g := (build_sound hg.indexed .lr1).grammar_eq
  rw [reduce?_table, hgr]
  constructor
  · rintro ⟨s', p', hs', hred, hby⟩
    obtain rfl := Option.some.inj (hs.symm.trans hs')
    rw [hred, show p' = p from congrArg Reduction.prod hby]
  · intro hred
    exact ⟨s, p, hs, hred, rfl⟩

/-- A state that reduces a production without a precedence has a transition on all that its items
    wait for. -/
theorem mem_goTo_of_unranked (hg : g.WellFormed) {s : State}
    (hs : g.canonical.states[q]? = some s) (hred : s.reduce = some p)
    (hrank : g.productions[p]?.bind Production.precedence = none)
    (hi : i ∈ s.closure.keys) (hnext : i.next? g = some t) : t ∈ s.goTo.keys := by
  have hsound := build_sound hg.indexed .lr1
  have hp := hsound.processed_of_mem hs hi
  have hprec : s.precedence = none := by
    rw [hp.precedence, hred, hsound.grammar_eq]
    exact hrank
  rw [hp.symbols, hsound.grammar_eq, hprec]
  exact ⟨mem_nextSymbols.2 ⟨i, hi, hnext⟩, rfl⟩

/-- **The reduction that is made is the one that leads to the shift of the token.** -/
theorem Sure.step (hg : g.WellFormed) (hfree : ∀ q t kind, ¬ g.canonical.Clash q t kind)
    (hunranked : g.Unranked) (h : g.Sure γ t) (hfall : g.canonical.table.Falls g γ γ')
    (hget : g.Gets t n γ) : ∃ m, n = m + 1 ∧ g.Gets t m γ' := by
  have hgr : g.canonical.grammar = g := (build_sound hg.indexed .lr1).grammar_eq
  obtain ⟨q, s, p, hq, hs, hred, -, hbare, hexpects, hasked⟩ := h
  obtain ⟨q', p', before, hq', hr', -, hγ, rfl⟩ := hfall
  obtain rfl := Option.some.inj (hq.symm.trans hq')
  obtain rfl : p = p' := Option.some.inj (hred.symm.trans ((reduce?_canonical hg hs).1 hr'))
  have hmem {i : Item} (hi : g.At γ i) : i ∈ s.closure.keys := by
    obtain ⟨q', hq', s', hs', hi⟩ := hi
    obtain rfl := Option.some.inj (hq.symm.trans hq')
    obtain rfl := Option.some.inj (hs.symm.trans hs')
    exact hi
  have hcomplete (p : Nat) :
      (⟨p, (g.body p).length⟩ : Item).isComplete g.canonical.grammar = true := by
    rw [hgr]
    simp [Item.isComplete]
  cases hget with
  | waits hi hnext =>
    -- the token could be shifted as well
    have hgo := mem_goTo_of_unranked hg hs hred (hunranked.precedence hbare) (hmem hi) hnext
    by_cases hline : t = Kind.newline.num
    · exact absurd hgo (hasked hline).1
    · obtain ⟨next, hnext⟩ := SortedMap.exists_find?_of_mem_keys hgo
      refine absurd ?_ (hfree q t .shiftReduce)
      refine ⟨_, hcomplete p, hexpects.ahead hg hline hq, hline,
        ⟨next, goto?_table.2 ⟨s, hs, hnext⟩⟩, ?_⟩
      rw [resolved, hgr, hunranked.precedence hbare]
      rfl
  | @reduce below m p' h hget =>
    have hsame : p' = p := by
      by_cases hline : t = Kind.newline.num
      · exact (hasked hline).2 _ (hmem (h.at hg)) (by simp [Item.next?])
      · by_contra hne
        refine hfree q t .reduceReduce ⟨_, _, ?_, hcomplete p', hcomplete p, h.ahead hg hline hq,
          hexpects.ahead hg hline hq⟩
        intro heq
        exact hne (congrArg Item.prod heq)
    subst hsame
    obtain rfl := List.append_cancel_left hγ
    exact ⟨m, rfl, hget⟩

/-- A token that asks for the reduction after the next one asks for the next one. -/
theorem Sure.back (hg : g.WellFormed) (hfall : g.canonical.table.Falls g γ γ') {t' : Nat}
    (h : g.Sure γ t') (h' : g.Sure γ' t) (ht : t ≠ Kind.newline.num) : g.Sure γ t := by
  obtain ⟨q, s, p, hq, hs, hred, hne, hbare, -, -⟩ := h
  obtain ⟨q', p', before, hq', hr, -, rfl, rfl⟩ := hfall
  obtain rfl := Option.some.inj (hq.symm.trans hq')
  obtain rfl : p = p' := Option.some.inj (hred.symm.trans ((reduce?_canonical hg hs).1 hr))
  obtain ⟨_, _, p', -, -, -, -, -, hexpects, -⟩ := h'
  refine ⟨q, s, p, hq, hs, hred, hne, hbare, ?_, fun hline => absurd hline ht⟩
  exact expects_of_reduced hg hq hr hne (i := ⟨p', (g.body p').length⟩) (by simp [Item.next?])
    hexpects

theorem Expects.isTerminal (hg : g.WellFormed) (h : g.Expects γ i t) : g.isTerminal t = true := by
  induction h with
  | first _ _ _ ht =>
    obtain ⟨s, -, hs⟩ := mem_firstOfSeq_sub ht
    exact firstSets_terminal hg.indexed s _ hs
  | pass _ _ _ _ ih => exact ih
  | shift _ _ _ ih => exact ih

theorem Sure.lt (hg : g.WellFormed) (h : g.Sure γ t) : t < g.symbols.size := by
  obtain ⟨_, _, _, -, -, -, -, -, hexpects, -⟩ := h
  exact isTerminal_lt (hexpects.isTerminal hg)

/-! ## Rows of reductions -/

/-- A reduction takes the tokens of its body off the stack. -/
theorem countP_of_falls (hg : g.WellFormed) (h : g.canonical.table.Falls g γ γ') :
    ∃ q p, g.canonical.table.walk? γ = some q ∧
      g.canonical.table.reduce? q = some (g.reductionBy p) ∧ p ≠ 0 ∧
      γ.countP g.isTerminal = (g.body p).countP g.isTerminal + γ'.countP g.isTerminal := by
  obtain ⟨q, p, before, hq, hr, hne, rfl, rfl⟩ := h
  refine ⟨q, p, hq, hr, hne, ?_⟩
  have hsound := build_sound hg.indexed .lr1
  have hvalid := hsound.backed.valid q _ (hsound.has_reduce hr).2
  have hhead : g.isTerminal (g.head p) = false :=
    isTerminal_eq_false (hg.head p (hvalid.resolve_right hne))
  rw [List.countP_append, List.countP_reverse, List.countP_cons_of_neg (by simp [hhead])]

theorem Prompt.sure (hg : g.WellFormed) (hprompt : g.Prompt)
    (h : g.canonical.table.Falls g γ γ')
    (hcount : γ.countP g.isTerminal ≤ γ'.countP g.isTerminal) : ∃ t, g.Sure γ t := by
  obtain ⟨q, p, hq, hr, hne, heq⟩ := countP_of_falls hg h
  have hbare : g.Tokenless p := by
    have hzero : (g.body p).countP g.isTerminal = 0 := by omega
    intro s hs
    simpa using List.countP_eq_zero.1 hzero s hs
  obtain ⟨s, -, hs, -⟩ := reduce?_table.1 hr
  have hred := (reduce?_canonical hg hs).1 hr
  obtain ⟨t, ht, hasked⟩ := hprompt s (Array.mem_of_getElem? hs) p hred hne hbare
  have hahead : g.canonical.Ahead q ⟨p, (g.body p).length⟩ t :=
    (ahead_iff_setOf (by rw [(build_sound hg.indexed .lr1).strength_eq]; decide)).2 ⟨s, hs, ht⟩
  exact ⟨t, q, s, p, hq, hs, hred, hne, hbare, expects_of_ahead hg hq hahead, hasked⟩

section

variable {rows : ℕ → List Nat}

/-- One token cannot ask for every reduction of an endless row. -/
theorem not_sure_forever (hg : g.WellFormed) (hfree : ∀ q t kind, ¬ g.canonical.Clash q t kind)
    (hunranked : g.Unranked) (hrows : ∀ k, g.canonical.table.Falls g (rows k) (rows (k + 1)))
    (h : ∀ k, g.Sure (rows k) t) : False := by
  have hnone (n : Nat) : ∀ k, ¬ g.Gets t n (rows k) := by
    induction n with
    | zero =>
      intro k hget
      obtain ⟨m, hm, -⟩ := (h k).step hg hfree hunranked (hrows k) hget
      cases hm
    | succ n ih =>
      intro k hget
      obtain ⟨m, hm, hget'⟩ := (h k).step hg hfree hunranked (hrows k) hget
      obtain rfl : n = m := Nat.succ.inj hm
      exact ih (k + 1) hget'
  obtain ⟨q, -, p, hq, -, -, -, -, hexpects, -⟩ := h 0
  have hnil : (⟨p, (g.body p).length⟩ : Item).remaining g = [] := by simp [Item.remaining]
  obtain ⟨n, hget⟩ := hexpects.gets hg (q := q) (by rw [hnil]; exact hq)
  rw [hnil] at hget
  exact hnone n 0 hget

open Filter in
/-- Of finitely many numbers one comes up again and again, or the others stop coming up. -/
theorem eventually_or_frequently {τ : ℕ → Nat} (hτ : ∀ k, τ k < n) (x : Nat) :
    (∀ᶠ k in atTop, τ k = x) ∨ ∃ t, t ≠ x ∧ ∃ᶠ k in atTop, τ k = t := by
  by_contra! h
  obtain ⟨hx, hrare⟩ := h
  have hnone : ∀ᶠ k in atTop, ∀ t ∈ {t | t < n}, t ≠ x → τ k ≠ t := by
    rw [eventually_all_finite (Set.finite_lt_nat n)]
    intro t _
    by_cases ht : t = x
    · exact Eventually.of_forall fun k hne => absurd ht hne
    · exact (hrare t ht).mono fun k hk _ => hk
  refine hx (hnone.mono ?_)
  intro k hk
  by_contra hne
  exact hk (τ k) (hτ k) hne rfl

/-- There is no endless row of reductions without tokens. -/
theorem not_tokenless_forever (hg : g.WellFormed)
    (hfree : ∀ q t kind, ¬ g.canonical.Clash q t kind) (hunranked : g.Unranked)
    (hrows : ∀ k, g.canonical.table.Falls g (rows k) (rows (k + 1)))
    (h : ∀ k, ∃ t, g.Sure (rows k) t) : False := by
  choose τ hτ using h
  rcases eventually_or_frequently (fun k => (hτ k).lt hg) Kind.newline.num with hline | ⟨t, ht, hoften⟩
  · -- only the line break asks from some time on
    obtain ⟨N, hN⟩ := Filter.eventually_atTop.1 hline
    have hsure (k : ℕ) : g.Sure (rows (N + k)) Kind.newline.num := by
      rw [← hN (N + k) (Nat.le_add_right N k)]
      exact hτ (N + k)
    exact not_sure_forever hg hfree hunranked (fun k => hrows (N + k)) hsure
  · -- another token asks again and again, and so it always does
    refine not_sure_forever hg hfree hunranked hrows (t := t) ?_
    intro k
    obtain ⟨k', hle, hk'⟩ := Filter.frequently_atTop.1 hoften k
    obtain ⟨d, rfl⟩ := Nat.exists_eq_add_of_le hle
    have hlast : g.Sure (rows (k + d)) t := hk' ▸ hτ (k + d)
    clear hle hk'
    induction d generalizing k with
    | zero => exact hlast
    | succ d ih =>
      refine (hτ k).back hg (hrows k) (ih (k + 1) ?_) ht
      rwa [Nat.add_right_comm]

end

/-- **There is no endless row of reductions**, without conflicts and if reductions without tokens
    have no precedence and are asked for. -/
theorem wellFounded_falls (hg : g.WellFormed) (hc : (build g .lalr).conflicts = [])
    (hunranked : g.Unranked) (hprompt : g.Prompt) :
    WellFounded fun γ' γ => g.canonical.table.Falls g γ γ' := by
  rw [wellFounded_iff_isEmpty_descending_chain]
  refine ⟨?_⟩
  rintro ⟨rows, hrows⟩
  have hmono : Antitone fun k => (rows k).countP g.isTerminal := by
    refine antitone_nat_of_succ_le ?_
    intro k
    obtain ⟨q, p, -, -, -, heq⟩ := countP_of_falls hg (hrows k)
    omega
  -- from some time on the number of tokens on the stack stays the same
  let N := Function.argmin fun k => (rows k).countP g.isTerminal
  have hsure (k : ℕ) : ∃ t, g.Sure (rows (N + k)) t := by
    refine hprompt.sure hg (hrows (N + k)) ?_
    exact (hmono (Nat.le_add_right N k)).trans
      (Function.argmin_le (fun k => (rows k).countP g.isTerminal) (N + k + 1))
  exact not_tokenless_forever hg (canonical_no_clash hg hc) hunranked (fun k => hrows (N + k)) hsure

end Grammar

end LayoutLR
