/-
  Layout-aware LR toolkit — what the absence of conflicts means.

  With lookahead, complete items claim tokens one after the other, and a token
  that is claimed twice is a conflict, as is a token that could be shifted as
  well.  Without conflicts every token is claimed once.  The table has one
  reduction for each state all the same: that of the complete item with the
  longest body.

  * `Automaton.reduction_spec`, `Automaton.Sound.exists_reduce`: the reduction of a state among
    its complete items;
  * `Automaton.Clash`, `Automaton.clash_of_mem_conflicts`, `Automaton.Clash.exists_conflict`:
    what is reported with lookahead;
  * `Automaton.complete_unique`: at most one item is reduced before a token.
-/
import LayoutLR.Automaton.Conflict
import LayoutLR.Proofs.Automaton.Table

namespace LayoutLR

/-- Whether an automaton is built with lookahead of some sort. -/
def Strength.LooksAhead (strength : Strength) : Prop :=
  strength = .slr ∨ strength = .lalr ∨ strength = .lr1

namespace Automaton

variable {a : Automaton} {g : Grammar} {strength : Strength} {q : Nat} {s : State}

/-! ## The reduction of a state -/

/-- The order in which complete items are preferred: the longest body first, then the first
    production. -/
def Precedes (g : Grammar) (p p' : Nat) : Prop :=
  (g.body p').length < (g.body p).length ∨ (g.body p').length = (g.body p).length ∧ p ≤ p'

theorem Precedes.antisymm {p p' : Nat} (h : Precedes g p p') (h' : Precedes g p' p) : p = p' := by
  unfold Precedes at h h'
  omega

/-- A state reduces the complete item that precedes the others. -/
theorem reduction_spec {m : ItemMap Handle} {p : Nat} (h : reduction g m.keys = some p) :
    ∃ i ∈ m.keys, i.next? g = none ∧ i.prod = p ∧
      ∀ j ∈ m.keys, j.next? g = none → Precedes g p j.prod := by
  have hlongest := foldl_longest (g := g) (finished g m.keys)
  rw [← reduction_eq, h] at hlongest
  obtain ⟨before, i, after, heq, rfl, hbefore, hafter⟩ := hlongest
  have hmem (j : Item) (hj : j ∈ before ++ i :: after) : j ∈ m.keys ∧ j.next? g = none :=
    mem_finished.1 (heq ▸ hj)
  have hsorted : (before ++ i :: after).Pairwise fun j k => compare j k = .lt :=
    heq ▸ m.increasing.sublist List.filter_sublist
  have hi := hmem i (by simp)
  refine ⟨i, hi.1, hi.2, rfl, fun j hj hnext => ?_⟩
  have hj' : j ∈ before ++ i :: after := heq ▸ mem_finished.2 ⟨hj, hnext⟩
  rcases List.mem_append.1 hj' with hj' | hj'
  · exact Or.inl (hbefore j hj')
  rcases List.mem_cons.1 hj' with rfl | hj'
  · exact Or.inr ⟨rfl, Nat.le_refl _⟩
  · have hlt : compare i j = .lt :=
      (List.pairwise_cons.1 (List.pairwise_append.1 hsorted).2.1).1 j hj'
    have hle := (Item.isLE_iff i j).1 (by rw [hlt]; rfl)
    rcases Nat.lt_or_eq_of_le (hafter j hj') with hlen | hlen
    · exact Or.inl hlen
    · exact Or.inr ⟨hlen, by omega⟩

theorem exists_reduction {items : List Item} {i : Item} (hi : i ∈ items) (hnext : i.next? g = none) :
    ∃ p, reduction g items = some p := by
  cases h : reduction g items with
  | some p => exact ⟨p, rfl⟩
  | none =>
    have hlongest := foldl_longest (g := g) (finished g items)
    rw [← reduction_eq, h] at hlongest
    have hmem := mem_finished.2 ⟨hi, hnext⟩
    rw [show finished g items = [] from hlongest] at hmem
    cases hmem

/-! ## Claims -/

/-- Whether an item is complete is whether it waits. -/
theorem Valid.isComplete_iff {i : Item} (h : Valid g i) :
    i.isComplete g = true ↔ i.next? g = none := by
  rw [Item.isComplete, beq_iff_eq]
  constructor
  · intro hdot
    exact List.getElem?_eq_none_iff.2 (Nat.le_of_eq hdot.symm)
  · exact h.dot_eq

theorem mem_completeItems {i : Item} {h : Handle} :
    (i, h) ∈ completeItems g s ↔ s.closure.find? i = some h ∧ i.isComplete g = true := by
  rw [completeItems, List.mem_filter, SortedMap.find?_eq_some_iff]

/-- A state with complete items reduces the one that precedes the others. -/
theorem Sound.exists_reduce (h : a.Sound g strength) (hs : a.states[q]? = some s)
    {e : Item × Handle} (he : e ∈ completeItems g s) :
    ∃ k x, (k, x) ∈ completeItems g s ∧ s.reduce = some k.prod ∧
      ∀ e' ∈ completeItems g s, Precedes g k.prod e'.1.prod := by
  have hmem {e' : Item × Handle} (he' : e' ∈ completeItems g s) :
      e'.1 ∈ s.closure.keys ∧ e'.1.isComplete g = true := by
    obtain ⟨hfind, hcomplete⟩ := mem_completeItems.1 he'
    exact ⟨SortedMap.mem_keys_of_find? hfind, hcomplete⟩
  have hp := h.processed_of_mem hs (hmem he).1
  have hvalid (j : Item) (hj : j ∈ s.closure.keys) : Valid g j := hp.valid h.toShaped hs hj
  have hnext {e' : Item × Handle} (he' : e' ∈ completeItems g s) : e'.1.next? g = none :=
    (hvalid e'.1 (hmem he').1).isComplete_iff.1 (hmem he').2
  obtain ⟨p, hred⟩ := exists_reduction (hmem he).1 (hnext he)
  obtain ⟨k, hk, hknext, rfl, hbest⟩ := reduction_spec hred
  obtain ⟨x, hx⟩ := SortedMap.exists_find?_of_mem_keys hk
  refine ⟨k, x, mem_completeItems.2 ⟨hx, (hvalid k hk).isComplete_iff.2 hknext⟩, ?_,
    fun e' he' => hbest e'.1 (hmem he').1 (hnext he')⟩
  rw [hp.reduce, h.grammar_eq, hred]

/-- What may come after an item of a state. -/
def Ahead (a : Automaton) (q : Nat) (i : Item) (x : Nat) : Prop :=
  ∃ s h, a.states[q]? = some s ∧ s.closure.find? i = some h ∧ x ∈ (a.reduceLookahead i h).keys

/-! ## Conflicts before a token -/

theorem mem_conflicts {c : Conflict} : c ∈ a.conflicts ↔
    ∃ (q : Nat) (s : State), a.states[q]? = some s ∧ c ∈ a.stateConflicts q s := by
  simp only [conflicts, List.mem_flatten, Array.mem_toList_iff, Array.mem_iff_getElem?,
    Array.getElem?_mapIdx, Option.map_eq_some_iff]
  constructor
  · rintro ⟨l, ⟨q, s, hs, rfl⟩, hc⟩
    exact ⟨q, s, hs, hc⟩
  · rintro ⟨q, s, hs, hc⟩
    exact ⟨_, ⟨q, s, hs, rfl⟩, hc⟩

theorem mem_tokenConflicts {claimed : List (Nat × Nat)} {prod sym : Nat} {c : Conflict} :
    c ∈ tokenConflicts g q s claimed prod sym ↔
      (sym ≠ Kind.newline.num ∧ sym ∈ s.goTo.keys ∧ resolved g prod sym = false) ∧
          c = ⟨.shiftReduce, q, some sym, [prod]⟩ ∨
        ∃ other, claimed.lookup sym = some other ∧
          c = ⟨.reduceReduce, q, some sym, [other, prod]⟩ := by
  unfold tokenConflicts
  rw [List.mem_append]
  refine or_congr ?_ ?_
  · rw [← SortedMap.contains_iff]
    split <;> simp [*]
  · cases claimed.lookup sym <;> simp

/-- The tokens that some items are reduced before, each with the production. -/
def claims (l : List (Nat × List Nat)) : List (Nat × Nat) :=
  l.flatMap fun e => e.2.map fun sym => (sym, e.1)

theorem exists_lookup_claims {l : List (Nat × List Nat)} {sym : Nat} :
    (∃ other, (claims l).lookup sym = some other) ↔ ∃ e ∈ l, sym ∈ e.2 := by
  rw [← Option.ne_none_iff_exists', ne_eq, List.lookup_eq_none_iff]
  simp only [claims, List.mem_flatMap, List.mem_map]
  constructor
  · intro h
    by_contra hnot
    refine h ?_
    rintro _ ⟨e, he, sym', hsym', rfl⟩
    rw [bne_iff_ne]
    rintro rfl
    exact hnot ⟨e, he, hsym'⟩
  · rintro ⟨e, he, hsym⟩ h
    have := h _ ⟨e, he, sym, hsym, rfl⟩
    simp at this

/-- Every item comes into conflict with what those before it have claimed. -/
theorem mem_lookaheadConflicts {l : List (Nat × List Nat)} {claimed : List (Nat × Nat)}
    {c : Conflict} : c ∈ lookaheadConflicts g q s claimed l ↔
      ∃ before e after, l = before ++ e :: after ∧
        ∃ sym ∈ e.2, c ∈ tokenConflicts g q s (claimed ++ claims before) e.1 sym := by
  induction l generalizing claimed with
  | nil => simp [lookaheadConflicts]
  | cons x l ih =>
    rw [lookaheadConflicts, List.mem_append, List.mem_flatMap, ih]
    constructor
    · rintro (h | ⟨before, e, after, rfl, h⟩)
      · exact ⟨[], x, l, rfl, by simpa [claims] using h⟩
      · exact ⟨x :: before, e, after, rfl, by simpa [claims] using h⟩
    · rintro ⟨before, e, after, heq, h⟩
      cases before with
      | nil =>
        obtain ⟨rfl, rfl⟩ := List.cons.inj heq
        exact Or.inl (by simpa [claims] using h)
      | cons y before =>
        obtain ⟨rfl, rfl⟩ := List.cons.inj heq
        exact Or.inr ⟨before, e, after, rfl, by simpa [claims] using h⟩

/-- Why there is a conflict in a state before a token: a complete item is to be reduced that
    could be shifted over, or two are to be reduced. -/
def Clash (a : Automaton) (q t : Nat) : ConflictKind → Prop
  | .shiftReduce => ∃ i : Item, i.isComplete a.grammar = true ∧ a.Ahead q i t ∧
      t ≠ Kind.newline.num ∧ (∃ q', a.table.goto? q t = some q') ∧
      resolved a.grammar i.prod t = false
  | .reduceReduce => ∃ i j : Item, i ≠ j ∧ i.isComplete a.grammar = true ∧
      j.isComplete a.grammar = true ∧ a.Ahead q i t ∧ a.Ahead q j t

theorem stateConflicts_of_looksAhead (hl : a.strength.LooksAhead) : a.stateConflicts q s =
    lookaheadConflicts a.grammar q s [] ((completeItems a.grammar s).map fun e =>
      (e.1.prod, (a.reduceLookahead e.1 e.2).keys)) := by
  unfold stateConflicts
  rcases hl with hl | hl | hl <;> rw [hl]

/-- The conflicts of a state, item by item. -/
theorem mem_stateConflicts (hl : a.strength.LooksAhead) {c : Conflict} :
    c ∈ a.stateConflicts q s ↔ ∃ before e after, completeItems a.grammar s = before ++ e :: after ∧
      ∃ t ∈ (a.reduceLookahead e.1 e.2).keys, c ∈ tokenConflicts a.grammar q s
        (claims (before.map fun e => (e.1.prod, (a.reduceLookahead e.1 e.2).keys))) e.1.prod t := by
  rw [stateConflicts_of_looksAhead hl, mem_lookaheadConflicts]
  constructor
  · rintro ⟨before, e, after, heq, t, ht, hc⟩
    obtain ⟨l, l', hsplit, rfl, hrest⟩ := List.map_eq_append_iff.1 heq
    obtain ⟨x, l'', rfl, rfl, -⟩ := List.map_eq_cons_iff.1 hrest
    exact ⟨l, x, l'', hsplit, t, ht, by simpa using hc⟩
  · rintro ⟨before, e, after, heq, t, ht, hc⟩
    exact ⟨_, _, _, by rw [heq, List.map_append, List.map_cons], t, ht, by simpa using hc⟩

theorem Ahead.exists_complete {i : Item} {t : Nat} (hs : a.states[q]? = some s) (h : a.Ahead q i t)
    (hi : i.isComplete a.grammar = true) :
    ∃ x, (i, x) ∈ completeItems a.grammar s ∧ t ∈ (a.reduceLookahead i x).keys := by
  obtain ⟨s', x, hs', hx, ht⟩ := h
  obtain rfl := Option.some.inj (hs.symm.trans hs')
  exact ⟨x, mem_completeItems.2 ⟨hx, hi⟩, ht⟩

/-- What is reported with lookahead is a clash. -/
theorem clash_of_mem_conflicts (hl : a.strength.LooksAhead) {c : Conflict} (hc : c ∈ a.conflicts) :
    ∃ t, c.lookahead = some t ∧ a.Clash c.state t c.kind := by
  obtain ⟨q, s, hs, hc⟩ := mem_conflicts.1 hc
  obtain ⟨before, ⟨i, x⟩, after, heq, t, ht, hc⟩ := (mem_stateConflicts hl).1 hc
  have hahead {e : Item × Handle} (he : e ∈ completeItems a.grammar s)
      (ht : t ∈ (a.reduceLookahead e.1 e.2).keys) :
      e.1.isComplete a.grammar = true ∧ a.Ahead q e.1 t := by
    obtain ⟨hfind, hcomplete⟩ := mem_completeItems.1 he
    exact ⟨hcomplete, s, e.2, hs, hfind, ht⟩
  have hi := hahead (e := (i, x)) (by simp [heq]) ht
  rcases mem_tokenConflicts.1 hc with ⟨⟨hne, hgo, hres⟩, rfl⟩ | ⟨other, hother, rfl⟩
  · obtain ⟨q', hq'⟩ := SortedMap.exists_find?_of_mem_keys hgo
    exact ⟨t, rfl, i, hi.1, hi.2, hne, ⟨q', goto?_table.2 ⟨s, hs, hq'⟩⟩, hres⟩
  · obtain ⟨_, hmem, ht'⟩ := exists_lookup_claims.1 ⟨other, hother⟩
    obtain ⟨⟨j, y⟩, hj, rfl⟩ := List.mem_map.1 hmem
    have hj' := hahead (e := (j, y)) (by simp [heq, hj]) ht'
    refine ⟨t, rfl, i, j, ?_, hi.1, hj'.1, hi.2, hj'.2⟩
    -- the items of a state are all different
    have hnodup : ((completeItems a.grammar s).map Prod.fst).Nodup :=
      (List.filter_sublist.map Prod.fst).nodup s.closure.keys_nodup
    rw [heq, List.map_append, List.map_cons, List.nodup_append] at hnodup
    exact (hnodup.2.2 j (List.mem_map.2 ⟨_, hj, rfl⟩) i (by simp)).symm

/-- One of two members comes before the other. -/
theorem exists_earlier {α : Type} {x y : α} {l : List α} (hx : x ∈ l) (hy : y ∈ l) (hne : x ≠ y) :
    ∃ before z after, l = before ++ z :: after ∧ (z = x ∧ y ∈ before ∨ z = y ∧ x ∈ before) := by
  obtain ⟨before, after, rfl⟩ := List.append_of_mem hx
  rcases List.mem_append.1 hy with hy | hy
  · exact ⟨before, x, after, rfl, Or.inl ⟨rfl, hy⟩⟩
  · rcases List.mem_cons.1 hy with rfl | hy
    · exact absurd rfl hne
    · obtain ⟨middle, after, rfl⟩ := List.append_of_mem hy
      exact ⟨before ++ x :: middle, y, after, by simp, Or.inr ⟨rfl, by simp⟩⟩

/-- A clash is reported. -/
theorem Clash.exists_conflict (hl : a.strength.LooksAhead) {t : Nat} {kind : ConflictKind}
    (h : a.Clash q t kind) :
    ∃ c ∈ a.conflicts, c.kind = kind ∧ c.state = q ∧ c.lookahead = some t := by
  cases kind with
  | shiftReduce =>
    obtain ⟨i, hcomplete, hahead, hne, ⟨q', hq'⟩, hres⟩ := h
    obtain ⟨s, hs, hgo⟩ := goto?_table.1 hq'
    obtain ⟨x, hx, ht⟩ := hahead.exists_complete hs hcomplete
    obtain ⟨before, after, heq⟩ := List.append_of_mem hx
    refine ⟨⟨.shiftReduce, q, some t, [i.prod]⟩, mem_conflicts.2 ⟨q, s, hs, ?_⟩, rfl, rfl, rfl⟩
    refine (mem_stateConflicts hl).2 ⟨before, (i, x), after, heq, t, ht, mem_tokenConflicts.2 ?_⟩
    exact Or.inl ⟨⟨hne, SortedMap.mem_keys_of_find? hgo, hres⟩, rfl⟩
  | reduceReduce =>
    obtain ⟨i, j, hne, hi, hj, hahead, hahead'⟩ := h
    have ⟨s, _, hs, _⟩ := hahead
    obtain ⟨x, hx, ht⟩ := hahead.exists_complete hs hi
    obtain ⟨y, hy, ht'⟩ := hahead'.exists_complete hs hj
    obtain ⟨before, e, after, heq, hlater⟩ :=
      exists_earlier hx hy fun h => hne (congrArg Prod.fst h)
    have hclaimed : ∃ e' ∈ before, t ∈ (a.reduceLookahead e'.1 e'.2).keys := by
      rcases hlater with ⟨-, h⟩ | ⟨-, h⟩
      · exact ⟨_, h, ht'⟩
      · exact ⟨_, h, ht⟩
    have hte : t ∈ (a.reduceLookahead e.1 e.2).keys := by
      rcases hlater with ⟨rfl, -⟩ | ⟨rfl, -⟩
      · exact ht
      · exact ht'
    obtain ⟨e', he', hte'⟩ := hclaimed
    have hmem := List.mem_map_of_mem
      (f := fun e : Item × Handle => (e.1.prod, (a.reduceLookahead e.1 e.2).keys)) he'
    obtain ⟨other, hother⟩ := exists_lookup_claims.2 ⟨_, hmem, hte'⟩
    refine ⟨⟨.reduceReduce, q, some t, [other, e.1.prod]⟩, mem_conflicts.2 ⟨q, s, hs, ?_⟩,
      rfl, rfl, rfl⟩
    exact (mem_stateConflicts hl).2 ⟨before, e, after, heq, t, hte,
      mem_tokenConflicts.2 (Or.inr ⟨other, hother, rfl⟩)⟩

theorem not_clash (hl : a.strength.LooksAhead) (hc : a.conflicts = []) {t : Nat}
    (kind : ConflictKind) : ¬ a.Clash q t kind := by
  intro h
  obtain ⟨c, hmem, -⟩ := h.exists_conflict hl
  rw [hc] at hmem
  cases hmem

/-- Without conflicts at most one complete item is reduced before a token. -/
theorem complete_unique (hl : a.strength.LooksAhead) (hc : a.conflicts = [])
    (hs : a.states[q]? = some s) {e e' : Item × Handle} {t : Nat}
    (he : e ∈ completeItems a.grammar s) (he' : e' ∈ completeItems a.grammar s)
    (ht : t ∈ (a.reduceLookahead e.1 e.2).keys) (ht' : t ∈ (a.reduceLookahead e'.1 e'.2).keys) :
    e' = e := by
  obtain ⟨hfind, hcomplete⟩ := mem_completeItems.1 he
  obtain ⟨hfind', hcomplete'⟩ := mem_completeItems.1 he'
  have hitem : e'.1 = e.1 := by
    by_contra hne
    exact not_clash hl hc .reduceReduce ⟨e'.1, e.1, hne, hcomplete', hcomplete,
      ⟨s, e'.2, hs, hfind', ht'⟩, ⟨s, e.2, hs, hfind, ht⟩⟩
  rw [hitem, hfind] at hfind'
  exact Prod.ext hitem (Option.some.inj hfind').symm

/-- Without conflicts a token that an item is reduced before is not shifted, unless precedence
    settles it. -/
theorem resolved_of_goTo (hl : a.strength.LooksAhead) (hc : a.conflicts = [])
    (hs : a.states[q]? = some s) {e : Item × Handle} {t : Nat}
    (he : e ∈ completeItems a.grammar s) (ht : t ∈ (a.reduceLookahead e.1 e.2).keys)
    (hne : t ≠ Kind.newline.num) (hgo : t ∈ s.goTo.keys) :
    resolved a.grammar e.1.prod t = true := by
  obtain ⟨hfind, hcomplete⟩ := mem_completeItems.1 he
  obtain ⟨q', hq'⟩ := SortedMap.exists_find?_of_mem_keys hgo
  by_contra hres
  exact not_clash hl hc .shiftReduce ⟨e.1, hcomplete, ⟨s, e.2, hs, hfind, ht⟩, hne,
    ⟨q', goto?_table.2 ⟨s, hs, hq'⟩⟩, by simpa using hres⟩

end Automaton

end LayoutLR
