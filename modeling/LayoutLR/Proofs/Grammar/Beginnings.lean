/-
  Layout-aware LR toolkit — what symbols begin with.

  Which symbols derive the empty text, and which tokens they begin with, is worked
  out in rounds until nothing changes.  So there is a reason for every member of
  these sets: a body whose symbols are in the set already, or the symbols in front
  of which all derive the empty text.

  * `Grammar.Vanishes`, `Grammar.vanishes_of_isNullable`: symbols that derive the empty text;
  * `Grammar.Starts`, `Grammar.starts_of_mem_firstSets`: what symbols begin with;
  * `Grammar.exists_start`: what a sequence begins with.
-/
import LayoutLR.Proofs.Grammar.WellFormed

namespace LayoutLR

namespace Grammar

variable {g : Grammar}

/-! ## Sequences -/

theorem mem_firstOfSeq_cons {first : SymSets} {s t : Nat} {rest : List Nat} :
    t ∈ (g.firstOfSeq first (s :: rest)).1.keys ↔
      t ∈ (first.of s).keys ∨ g.isNullable s = true ∧ t ∈ (g.firstOfSeq first rest).1.keys := by
  rw [Grammar.firstOfSeq]
  split
  · rename_i hs
    simp [hs]
  · rename_i hs
    simp [hs]

theorem firstOfSeq_cons_empty {first : SymSets} {s : Nat} {rest : List Nat} :
    (g.firstOfSeq first (s :: rest)).2 = true ↔
      g.isNullable s = true ∧ (g.firstOfSeq first rest).2 = true := by
  rw [Grammar.firstOfSeq]
  split
  · rename_i hs
    simp [hs]
  · rename_i hs
    simp [hs]

theorem isNullable_of_body {symbols : List Nat} {first : SymSets}
    (h : (g.firstOfSeq first symbols).2 = true) : ∀ s ∈ symbols, g.isNullable s = true := by
  induction symbols with
  | nil => simp
  | cons s symbols ih =>
    obtain ⟨hs, hrest⟩ := firstOfSeq_cons_empty.1 h
    exact List.forall_mem_cons.2 ⟨hs, ih hrest⟩

theorem firstOfSeq_empty_iff {symbols : List Nat} {first : SymSets} :
    (g.firstOfSeq first symbols).2 = true ↔ ∀ s ∈ symbols, g.isNullable s = true := by
  refine ⟨isNullable_of_body, fun h => ?_⟩
  induction symbols with
  | nil => rfl
  | cons s symbols ih =>
    obtain ⟨hs, hrest⟩ := List.forall_mem_cons.1 h
    exact firstOfSeq_cons_empty.2 ⟨hs, ih hrest⟩

/-- A sequence begins like one of its symbols, and those in front of it derive the empty text. -/
theorem exists_start {first : SymSets} {t : Nat} {symbols : List Nat}
    (h : t ∈ (g.firstOfSeq first symbols).1.keys) : ∃ before s after,
      symbols = before ++ s :: after ∧ (∀ x ∈ before, g.isNullable x = true) ∧
      t ∈ (first.of s).keys := by
  induction symbols with
  | nil => simp [firstOfSeq] at h
  | cons s symbols ih =>
    rcases mem_firstOfSeq_cons.1 h with hs | ⟨hs, h⟩
    · exact ⟨[], s, symbols, rfl, by simp, hs⟩
    · obtain ⟨before, s', after, rfl, hbefore, ht⟩ := ih h
      exact ⟨s :: before, s', after, rfl, List.forall_mem_cons.2 ⟨hs, hbefore⟩, ht⟩

/-- A sequence begins like its front, and like the rest where the front derives the empty
    text. -/
theorem mem_firstOfSeq_append {first : SymSets} {t : Nat} {before after : List Nat} :
    t ∈ (g.firstOfSeq first (before ++ after)).1.keys ↔
      t ∈ (g.firstOfSeq first before).1.keys ∨
        (∀ s ∈ before, g.isNullable s = true) ∧ t ∈ (g.firstOfSeq first after).1.keys := by
  induction before with
  | nil => simp [firstOfSeq]
  | cons s before ih =>
    rw [List.cons_append, mem_firstOfSeq_cons, ih, mem_firstOfSeq_cons, List.forall_mem_cons]
    tauto

/-! ## The empty text -/

theorem isNullable_iff (hg : g.WellFormed) {s : Nat} (hs : s < g.symbols.size) :
    g.isNullable s = true ↔ s ∈ g.nullableSymbols.keys := by
  have hmark : g.markSymbols.isNullable s = g.nullableSymbols.contains s := by
    simp [Grammar.isNullable, Grammar.markSymbols, hs]
  rw [← SortedMap.contains_iff, ← hmark, hg.marked]

/-- A production, as one of the grammar's. -/
theorem exists_production {p : Nat} (hp : p < g.productions.size) :
    ∃ q ∈ g.productions, q.head = g.head p ∧ q.body = g.body p := by
  refine ⟨g.productions[p], Array.getElem_mem hp, ?_⟩
  simp [Grammar.head, Grammar.body, hp]

/-- A production has a number. -/
theorem exists_number {q : Production} (hq : q ∈ g.productions) :
    ∃ p < g.productions.size, g.head p = q.head ∧ g.body p = q.body := by
  obtain ⟨p, hp, rfl⟩ := Array.mem_iff_getElem.1 hq
  exact ⟨p, hp, by simp [Grammar.head, hp], by simp [Grammar.body, hp]⟩

theorem isNullable_head (hg : g.WellFormed) {p : Nat} (hp : p < g.productions.size)
    (h : ∀ s ∈ g.body p, g.isNullable s = true) : g.isNullable (g.head p) = true := by
  obtain ⟨q, hq, hhead, hbody⟩ := exists_production hp
  rw [isNullable_iff hg (isNonterminal_lt (hg.head p hp)), ← hhead]
  refine nullable_closed hq ?_
  intro s hs
  rw [hbody] at hs
  have hlt := (hg.body p s hs).elim isTerminal_lt isNonterminal_lt
  exact (isNullable_iff hg hlt).1 (h s hs)

/-- Symbols that derive the empty text. -/
inductive Vanishes (g : Grammar) : Nat → Prop
  | head {p : Nat} (hp : p < g.productions.size) (hbody : ∀ s ∈ g.body p, Vanishes g s) :
      Vanishes g (g.head p)

/-- **There is a reason why a symbol is nullable.** -/
theorem vanishes_of_isNullable (hg : g.WellFormed) {s : Nat} (hs : g.isNullable s = true) :
    g.Vanishes s := by
  have hlt : s < g.symbols.size := by
    by_contra hs'
    simp [isNullable, Nat.not_lt.1 hs'] at hs
  have hmem := (isNullable_iff hg hlt).1 hs
  refine settle_induction (P := fun set => ∀ s ∈ SortedMap.keys set, g.Vanishes s)
    (fun set hset => headRound_forall (fun set hset p hp hall => ?_) hset) _ _ (by simp) s hmem
  -- a round adds a head only for a body whose symbols vanish
  obtain ⟨n, hn, hhead, hbody⟩ := exists_number hp
  rw [← hhead]
  refine .head hn fun x hx => hset x ?_
  rw [hbody] at hx
  exact SortedMap.contains_iff.1 (List.all_eq_true.1 hall x hx)

theorem Vanishes.isNullable (hg : g.WellFormed) {s : Nat} (h : g.Vanishes s) :
    g.isNullable s = true := by
  induction h with
  | head hp _ ih => exact isNullable_head hg hp ih

theorem isTerminal_of_isNullable (hg : g.WellFormed) {s : Nat} (hs : g.isNullable s = true) :
    g.isTerminal s = false := by
  obtain ⟨hp, -⟩ := vanishes_of_isNullable hg hs
  exact isTerminal_eq_false (hg.head _ hp)

/-! ## Beginnings -/

theorem mem_firstSets_head (hg : g.WellFormed) {p t : Nat} (hp : p < g.productions.size)
    (ht : t ∈ (g.firstOfSeq g.firstSets (g.body p)).1.keys) :
    t ∈ (g.firstSets.of (g.head p)).keys := by
  obtain ⟨q, hq, hhead, hbody⟩ := exists_production hp
  rw [← hhead]
  refine firstSets_closed hg.indexed hq ?_ t (hbody ▸ ht)
  rw [hhead]
  exact isNonterminal_lt (hg.head p hp)

/-- Symbols that begin with a token: the token itself, and heads with a body in which what
    stands in front of such a symbol derives the empty text. -/
inductive Starts (g : Grammar) : Nat → Nat → Prop
  | self {t : Nat} (ht : g.isTerminal t = true) : Starts g t t
  | head {p s t : Nat} {before after : List Nat} (hp : p < g.productions.size)
      (hbody : g.body p = before ++ s :: after) (hbefore : ∀ x ∈ before, g.isNullable x = true)
      (hs : Starts g s t) : Starts g (g.head p) t

/-- A round adds what there is a reason for. -/
theorem firstRound_starts (ps : List Production) (hps : ∀ p ∈ ps, p ∈ g.productions)
    {first : SymSets} (h : ∀ s, ∀ t ∈ (first.of s).keys, g.Starts s t) :
    ∀ s, ∀ t ∈ ((ps.foldl g.firstStep first).of s).keys, g.Starts s t := by
  induction ps generalizing first with
  | nil => exact h
  | cons p ps ih =>
    refine ih (fun q hq => hps q (by simp [hq])) ?_
    intro s t ht
    rw [firstStep, SymSets.of_grow] at ht
    split at ht
    · rename_i hs
      obtain ⟨rfl, -⟩ := hs
      rcases (SortedMap.mem_keys_union _ _ _).1 ht with ht | ht
      · exact h p.head t ht
      · obtain ⟨before, x, after, heq, hbefore, hx⟩ := exists_start ht
        obtain ⟨n, hn, hhead, hbody⟩ := exists_number (hps p (by simp))
        rw [← hhead]
        exact .head hn (hbody.trans heq) hbefore (h x t hx)
    · exact h s t ht

/-- **There is a reason why a symbol begins with a token.** -/
theorem starts_of_mem_firstSets (hg : g.WellFormed) {s t : Nat}
    (ht : t ∈ (g.firstSets.of s).keys) : g.Starts s t := by
  refine settle_induction (P := fun first => ∀ s, ∀ t ∈ (SymSets.of first s).keys, g.Starts s t)
    (fun first hfirst => ?_) _ _ (fun s t ht => ?_) s t ht
  · rw [firstRound_eq]
    exact firstRound_starts _ (by simp) hfirst
  · obtain ⟨rfl, hterm⟩ := (mem_terminalSets hg.indexed).1 ht
    exact .self hterm

theorem Starts.mem_firstSets (hg : g.WellFormed) {s t : Nat} (h : g.Starts s t) :
    t ∈ (g.firstSets.of s).keys := by
  induction h with
  | self ht => exact mem_firstSets_terminal hg.indexed ht
  | head hp hbody hbefore _ ih =>
    refine mem_firstSets_head hg hp ?_
    rw [hbody]
    exact mem_firstOfSeq_append.2 (Or.inr ⟨hbefore, mem_firstOfSeq_cons.2 (Or.inl ih)⟩)

end Grammar

end LayoutLR
