/-
  Layout-aware LR toolkit — what may come next after some symbols.

  A parser is in the state that the symbols on its stack lead to.  What may come
  after an item there depends on these symbols alone: it begins behind an item
  that waits, or may come after that item, all on the way to the state.  At `LR1`
  the lookahead sets of the state are made of that and nothing else.

  * `Table.walk?`: the state after some symbols;
  * `Grammar.At`: the items there;
  * `Grammar.Expects`: what may come after them;
  * `Grammar.Expects.ahead`, `Grammar.expects_of_ahead`: this is the lookahead at `LR1`, line
    breaks apart.
-/
import LayoutLR.Proofs.Automaton.Exact
import LayoutLR.Proofs.Grammar.Beginnings

namespace LayoutLR

/-! ## States after symbols -/

/-- The state after some symbols, the last one first. -/
def Table.walk? (t : Table) : List Nat → Option Nat
  | [] => some 0
  | sym :: before => (t.walk? before).bind fun q => t.goto? q sym

namespace Table

variable {t : Table} {sym q : Nat} {γ : List Nat}

theorem walk?_cons : t.walk? (sym :: γ) = some q ↔
    ∃ q', t.walk? γ = some q' ∧ t.goto? q' sym = some q :=
  Option.bind_eq_some_iff

theorem walk?_append {after : List Nat} (h : t.walk? (after ++ γ) = some q) :
    ∃ q', t.walk? γ = some q' := by
  induction after generalizing q with
  | nil => exact ⟨q, h⟩
  | cons sym after ih =>
    obtain ⟨q', hq', -⟩ := walk?_cons.1 h
    exact ih hq'

end Table

/-! ## The rest of an item -/

namespace Item

variable {g : Grammar} {i : Item} {sym : Nat} {rest : List Nat}

/-- The symbols after the dot. -/
def remaining (g : Grammar) (i : Item) : List Nat :=
  (g.body i.prod).drop i.dot

/-- The item with the dot `n` symbols further. -/
def past (i : Item) (n : Nat) : Item :=
  ⟨i.prod, i.dot + n⟩

theorem remaining_of_next? (h : i.next? g = some sym) : i.remaining g = sym :: i.rest g := by
  obtain ⟨hlt, rfl⟩ := List.getElem?_eq_some_iff.1 h
  exact List.drop_eq_getElem_cons hlt

theorem next?_of_remaining (h : i.remaining g = sym :: rest) : i.next? g = some sym := by
  rw [next?, ← List.head?_drop]
  exact congrArg List.head? h

theorem rest_of_remaining (h : i.remaining g = sym :: rest) : i.rest g = rest := by
  rw [remaining_of_next? (next?_of_remaining h)] at h
  exact (List.cons.inj h).2

theorem advance_past (i : Item) (n : Nat) : i.advance.past n = i.past (n + 1) := by
  simp only [advance, past, mk.injEq, true_and]
  omega

end Item

namespace Grammar

open Automaton

variable {g : Grammar} {γ : List Nat} {i : Item} {p q sym t : Nat}

/-! ## Items after symbols -/

/-- The automaton of a grammar at full strength. -/
abbrev canonical (g : Grammar) : Automaton :=
  build g .lr1

/-- Whether some symbols lead to a state that has an item. -/
def At (g : Grammar) (γ : List Nat) (i : Item) : Prop :=
  ∃ q, g.canonical.table.walk? γ = some q ∧ g.canonical.Has q i

theorem canonical_complete (hg : g.WellFormed) (q : Nat) (s : State)
    (hs : g.canonical.states[q]? = some s) : s.complete = true :=
  build_complete hg.indexed hs

/-- A state has the items that come with its kernel. -/
theorem mem_closure_iff (hg : g.WellFormed) {s : State} (hs : g.canonical.states[q]? = some s) :
    i ∈ s.closure.keys ↔ i.ComesWith g s.kernel.keys := by
  rw [(build_sound hg.indexed .lr1).keys_closure (build_processed hg.indexed hs),
    mem_bareClosure hg.indexed s.kernel.keys_nodup]

theorem At.predict (hg : g.WellFormed) (hi : g.At γ i) (hp : p < g.productions.size)
    (hnext : i.next? g = some (g.head p)) : g.At γ ⟨p, 0⟩ := by
  obtain ⟨q, hq, hi⟩ := hi
  have hpredict := (build_sound hg.indexed .lr1).predict hg (Or.inr (Or.inr rfl)) (canonical_complete hg)
    hi hp hnext
  exact ⟨q, hq, hpredict.1⟩

theorem At.shift (hg : g.WellFormed) (hi : g.At γ i) (hnext : i.next? g = some sym)
    (hq : g.canonical.table.walk? (sym :: γ) = some q) : g.At (sym :: γ) i.advance := by
  obtain ⟨q₁, hq₁, hi⟩ := hi
  obtain ⟨q₂, hq₂, hgo⟩ := Table.walk?_cons.1 hq
  obtain rfl := Option.some.inj (hq₁.symm.trans hq₂)
  exact ⟨q, hq, ((build_sound hg.indexed .lr1).carries (canonical_complete hg) hgo hi hnext).1⟩

theorem At.exists_walk? (hg : g.WellFormed) (hi : g.At γ i) (hnext : i.next? g = some sym)
    (hsym : g.isTerminal sym = false) : ∃ q, g.canonical.table.walk? (sym :: γ) = some q := by
  obtain ⟨q, hq, hi⟩ := hi
  obtain ⟨q', hgo⟩ := (build_sound hg.indexed .lr1).exists_goto? hi hnext hsym
  exact ⟨q', Table.walk?_cons.2 ⟨q, hq, hgo⟩⟩

/-- An item with the dot behind a symbol was there before the symbol. -/
theorem At.behind (hg : g.WellFormed) (hi : g.At γ i) (hdot : 0 < i.dot) :
    ∃ sym γ' j, γ = sym :: γ' ∧ g.At γ' j ∧ j.next? g = some sym ∧ i = j.advance := by
  have hb := (build_sound hg.indexed .lr1).backed
  obtain ⟨q, hq, hi⟩ := hi
  cases γ with
  | nil =>
    obtain rfl := Option.some.inj hq
    exact absurd (hb.origin i hi) (Nat.pos_iff_ne_zero.1 hdot)
  | cons sym γ =>
    obtain ⟨q', hq', hgo⟩ := Table.walk?_cons.1 hq
    obtain ⟨j, hj, hnext, rfl⟩ := hb.behind q' sym q i hgo hi hdot
    exact ⟨sym, γ, j, rfl, ⟨q', hq', hj⟩, hnext, rfl⟩

/-- The dot is moved over nonterminals. -/
theorem At.past (hg : g.WellFormed) {syms more : List Nat} (hi : g.At γ i)
    (hrest : i.remaining g = syms ++ more) (hsyms : ∀ s ∈ syms, g.isTerminal s = false) :
    g.At (syms.reverse ++ γ) (i.past syms.length) := by
  induction syms generalizing γ i with
  | nil => exact hi
  | cons sym syms ih =>
    obtain ⟨hsym, hsyms⟩ := List.forall_mem_cons.1 hsyms
    have hnext := Item.next?_of_remaining hrest
    obtain ⟨q, hq⟩ := hi.exists_walk? hg hnext hsym
    have hadvance := ih (hi.shift hg hnext hq) (Item.rest_of_remaining hrest) hsyms
    rw [List.reverse_cons, List.append_assoc, List.singleton_append]
    rwa [Item.advance_past] at hadvance

/-- What holds of the items of the kernel, and is passed on to the productions that an item waits
    for, holds of all items after some symbols. -/
theorem At.induction (hg : g.WellFormed) {P : Item → Prop} (hi : g.At γ i)
    (kernel : ∀ i, g.At γ i → 0 < i.dot ∨ γ = [] ∧ i = ⟨0, 0⟩ → P i)
    (predicted : ∀ i p, P i → p < g.productions.size → i.next? g = some (g.head p) → P ⟨p, 0⟩) :
    P i := by
  have hsound := build_sound hg.indexed .lr1
  obtain ⟨q, hq, s, hs, hmem⟩ := hi
  rw [mem_closure_iff hg hs] at hmem
  induction hmem with
  | @kernel i hi =>
    refine kernel i ⟨q, hq, s, hs, (mem_closure_iff hg hs).2 (.kernel hi)⟩ ?_
    obtain ⟨p, d⟩ := i
    cases d with
    | succ d => exact Or.inl (Nat.succ_pos d)
    | zero =>
      obtain ⟨rfl, rfl⟩ := hsound.kernel_dot hs hi
      refine Or.inr ⟨?_, rfl⟩
      cases γ with
      | nil => rfl
      | cons sym γ =>
        obtain ⟨q', -, hgo⟩ := Table.walk?_cons.1 hq
        exact absurd rfl (hsound.backed.target q' sym 0 hgo).2
  | predicted _ hp hnext _ ih => exact predicted _ _ ih hp hnext

/-! ## What may come after items -/

/-- What may come after an item, after some symbols. -/
inductive Expects (g : Grammar) : List Nat → Item → Nat → Prop
  /-- It begins behind an item that waits for the head. -/
  | first {γ : List Nat} {i : Item} {p t : Nat} (hi : g.At γ i) (hp : p < g.productions.size)
      (hnext : i.next? g = some (g.head p))
      (ht : t ∈ (g.firstOfSeq g.firstSets (i.rest g)).1.keys) : Expects g γ ⟨p, 0⟩ t
  /-- It may come after an item that waits for the head, and the rest of it may be empty. -/
  | pass {γ : List Nat} {i : Item} {p t : Nat} (h : Expects g γ i t)
      (hp : p < g.productions.size) (hnext : i.next? g = some (g.head p))
      (hempty : (g.firstOfSeq g.firstSets (i.rest g)).2 = true) : Expects g γ ⟨p, 0⟩ t
  /-- It may come after the item with the dot one symbol back. -/
  | shift {γ : List Nat} {i : Item} {sym t q : Nat} (h : Expects g γ i t)
      (hnext : i.next? g = some sym) (hq : g.canonical.table.walk? (sym :: γ) = some q) :
      Expects g (sym :: γ) i.advance t

theorem Expects.at (hg : g.WellFormed) (h : g.Expects γ i t) : g.At γ i := by
  induction h with
  | first hi hp hnext _ => exact hi.predict hg hp hnext
  | pass _ hp hnext _ ih => exact ih.predict hg hp hnext
  | shift _ hnext hq ih => exact ih.shift hg hnext hq

theorem expects_of_next (hi : g.At γ i) (hp : p < g.productions.size)
    (hnext : i.next? g = some (g.head p)) (h : i.Next g (g.Expects γ i) t) :
    g.Expects γ ⟨p, 0⟩ t := by
  rcases h with ht | ⟨hempty, h⟩
  · exact .first hi hp hnext ht
  · exact .pass h hp hnext hempty

/-- The dot is moved over some symbols. -/
theorem Expects.past {syms more : List Nat} (h : g.Expects γ i t)
    (hrest : i.remaining g = syms ++ more)
    (hq : g.canonical.table.walk? (syms.reverse ++ γ) = some q) :
    g.Expects (syms.reverse ++ γ) (i.past syms.length) t := by
  induction syms generalizing γ i with
  | nil => exact h
  | cons sym syms ih =>
    rw [List.reverse_cons, List.append_assoc, List.singleton_append] at hq ⊢
    obtain ⟨q', hq'⟩ := Table.walk?_append hq
    have hnext := Item.next?_of_remaining hrest
    have hshift := h.shift hnext hq'
    have hadvance := ih hshift (Item.rest_of_remaining hrest) hq
    rwa [Item.advance_past] at hadvance

/-- What may come after a head that is waited for may come after its body. -/
theorem Expects.whole (h : g.Expects γ ⟨p, 0⟩ t)
    (hq : g.canonical.table.walk? ((g.body p).reverse ++ γ) = some q) :
    g.Expects ((g.body p).reverse ++ γ) ⟨p, (g.body p).length⟩ t := by
  have hrest : (⟨p, 0⟩ : Item).remaining g = g.body p ++ [] := by simp [Item.remaining]
  have hpast := h.past hrest hq
  rwa [Item.past, Nat.zero_add] at hpast

theorem ahead_predict (hg : g.WellFormed) (hq : g.canonical.table.walk? γ = some q)
    (hi : g.At γ i) (hp : p < g.productions.size) (hnext : i.next? g = some (g.head p))
    (ht : t ≠ Kind.newline.num) (h : i.Next g (g.canonical.Ahead q i) t) :
    g.canonical.Ahead q ⟨p, 0⟩ t := by
  obtain ⟨q', hq', hi⟩ := hi
  obtain rfl := Option.some.inj (hq.symm.trans hq')
  have hpredict := (build_sound hg.indexed .lr1).predict hg (Or.inr (Or.inr rfl)) (canonical_complete hg)
    hi hp hnext
  exact hpredict.2 t ht h

/-- Line breaks apart, it is in the lookahead of the item. -/
theorem Expects.ahead (hg : g.WellFormed) (h : g.Expects γ i t) (ht : t ≠ Kind.newline.num)
    (hq : g.canonical.table.walk? γ = some q) : g.canonical.Ahead q i t := by
  induction h generalizing q with
  | first hi hp hnext ht' => exact ahead_predict hg hq hi hp hnext ht (Or.inl ht')
  | pass h hp hnext hempty ih =>
    exact ahead_predict hg hq (h.at hg) hp hnext ht (Or.inr ⟨hempty, ih ht hq⟩)
  | shift h hnext _ ih =>
    obtain ⟨q', hq', hgo⟩ := Table.walk?_cons.1 hq
    have hahead := ih ht hq'
    have hcarries := (build_sound hg.indexed .lr1).carries (canonical_complete hg) hgo hahead.has hnext
    exact hcarries.2 _ hahead

/-- Nothing may come after the start production: nothing waits for its head. -/
theorem prod_ne_zero_of_ahead (hg : g.WellFormed) (h : g.canonical.Ahead q i t) : i.prod ≠ 0 := by
  obtain ⟨s, hs, ht⟩ := (ahead_iff_setOf (by rw [(build_sound hg.indexed .lr1).strength_eq]; decide)).1 h
  have hstart {i : Item} {p : Nat} (hnext : i.next? g = some (g.head p)) : p ≠ 0 := by
    rintro rfl
    exact hg.start i.prod (List.mem_of_getElem? hnext)
  refine bounded_build (L := fun _ i _ => i.prod ≠ 0) hg.indexed ⟨?_, ?_, ?_⟩ hs ht
  · intro _ i p _ _ _ _ hnext _ _
    exact hstart hnext
  · intro _ i p _ _ _ hnext _ _
    exact hstart hnext
  · intro _ i _ _ hi _ _
    exact hi

/-- What may come after the items of a state is made of what may come after its kernel. -/
theorem expects_of_kernel (hg : g.WellFormed) {s : State}
    (hq : g.canonical.table.walk? γ = some q) (hs : g.canonical.states[q]? = some s)
    (hkernel : ∀ j ∈ s.kernel.keys, t ∈ (g.canonical.setOf s.kernel j).keys → g.Expects γ j t)
    (ht : t ∈ (g.canonical.setOf s.closure i).keys) : g.Expects γ i t := by
  have hcl := (build_processed hg.indexed hs).isClosure (canonical_complete hg q s hs)
  rw [(build_sound hg.indexed .lr1).basis] at hcl
  have hat {i : Item} (hi : i.ComesWith g ((g.canonical.items s.kernel).map Prod.fst)) :
      g.At γ i := by
    rw [items_keys] at hi
    exact ⟨q, hq, s, hs, (mem_closure_iff hg hs).2 hi⟩
  obtain ⟨set, hmem, hset⟩ := mem_setOf_iff_items.1 ht
  have hannounced := (hcl.mem_set_iff hmem).1 hset
  clear ht hmem hset
  induction hannounced with
  | kernel he ht =>
    refine hkernel _ ?_ (mem_setOf_iff_items.2 ⟨_, he, ht⟩)
    rw [← items_keys g.canonical s.kernel]
    exact List.mem_map_of_mem he
  | opens hi hp hnext _ ht =>
    obtain ⟨-, ht, -⟩ := Basis.mem_lookahead.1 ht
    rw [first_of_usesLookahead g rfl] at ht
    rcases ht with ht | ⟨-, ht⟩
    · exact .first (hat hi) hp hnext ht
    · simp at ht
  | passes hi hp hnext _ ht ih =>
    obtain ⟨-, ht, -⟩ := Basis.mem_lookahead.1 ht
    rw [first_of_usesLookahead g rfl] at ht
    rcases ht with ht | ⟨hempty, -⟩
    · exact .first (hat hi.comesWith) hp hnext ht
    · exact .pass (ih hkernel) hp hnext hempty

/-- **The lookahead at `LR1` is what may come after an item.** -/
theorem expects_of_ahead (hg : g.WellFormed) (hq : g.canonical.table.walk? γ = some q)
    (h : g.canonical.Ahead q i t) : g.Expects γ i t := by
  have hsound := build_sound hg.indexed .lr1
  have hset {q : Nat} {i : Item} : g.canonical.Ahead q i t ↔
      ∃ s, g.canonical.states[q]? = some s ∧ t ∈ (g.canonical.setOf s.closure i).keys :=
    ahead_iff_setOf (by rw [hsound.strength_eq]; decide)
  induction γ generalizing q i with
  | nil =>
    -- the first state has the start item only
    obtain ⟨s, hs, ht⟩ := hset.1 h
    refine expects_of_kernel hg hq hs ?_ ht
    intro j hj htj
    obtain rfl := Option.some.inj hq
    have hahead := hset.2 ⟨s, hs, (setOf_kernel hg hs hj).2 htj⟩
    exact absurd (congrArg Item.prod (hsound.kernel_start hs hj)) (prod_ne_zero_of_ahead hg hahead)
  | cons sym γ ih =>
    obtain ⟨s, hs, ht⟩ := hset.1 h
    refine expects_of_kernel hg hq hs ?_ ht
    intro j _ htj
    obtain ⟨q', hq', hgo⟩ := Table.walk?_cons.1 hq
    obtain ⟨s', hs', hfind⟩ := goto?_table.1 hgo
    obtain ⟨k, rfl, hnext, hk⟩ := mem_kernel_behind hg.indexed hs' hs hfind htj
    exact .shift (ih hq' (hset.2 ⟨s', hs', hk⟩)) hnext hq

end Grammar

end LayoutLR
