/-
  Layout-aware LR toolkit — the analyses of a grammar are closed under their rules.

  Rounds are repeated until a round adds nothing.  Sets only grow and have room
  for finitely many symbols, so that the given number of rounds is enough; and a
  round that adds nothing as a whole adds nothing for any production.

  * `settle_fixed`: enough rounds lead to a fixed point;
  * `nullable_closed`: a head with a body of nullable symbols is nullable;
  * `firstSets_closed`: a head begins like its bodies;
  * `followSets_inside`, `followSets_end`: what stands behind a symbol in a body follows it, and
    what follows a head follows the end of its bodies.
-/
import Mathlib.Data.List.Nodup
import LayoutLR.Proofs.Grammar.Assembly
import LayoutLR.Proofs.Sorted.Map

namespace LayoutLR

/-! ## Fixed points -/

/-- Enough rounds lead to a fixed point: `bound` limits the measure, which stays the same
    only if nothing changes. -/
theorem settle_fixed {α : Type} {measure : α → Nat} {round : α → α} {P : α → Prop} {bound : Nat}
    (keep : ∀ a, P a → P (round a)) (le : ∀ a, P a → measure a ≤ measure (round a))
    (eq : ∀ a, P a → measure (round a) = measure a → round a = a)
    (limit : ∀ a, P a → measure a ≤ bound) :
    ∀ n a, P a → bound < n + measure a →
      P (settle measure round n a) ∧
        round (settle measure round n a) = settle measure round n a
  | 0, a, ha, hn => by
    have := limit a ha
    omega
  | n + 1, a, ha, hn => by
    unfold settle
    dsimp only
    split
    · rename_i h
      have hr := eq a ha h
      exact ⟨keep a ha, by rw [hr, hr]⟩
    · rename_i h
      have := le a ha
      exact settle_fixed keep le eq limit n (round a) (keep a ha) (by omega)

/-- What a round preserves holds in the end. -/
theorem settle_induction {α : Type} {measure : α → Nat} {round : α → α} {P : α → Prop}
    (keep : ∀ a, P a → P (round a)) : ∀ n a, P a → P (settle measure round n a)
  | 0, _, ha => ha
  | n + 1, a, ha => by
    unfold settle
    dsimp only
    split
    · exact keep a ha
    · exact settle_induction keep n _ (keep a ha)

/-- If steps that never lose anything lead back to the start, then each of them leaves it as
    it is. -/
theorem foldl_fixed {α β : Type} (le : α → α → Prop) {f : α → β → α}
    (refl : ∀ a, le a a) (trans : ∀ {a b c}, le a b → le b c → le a c)
    (antisymm : ∀ {a b}, le a b → le b a → a = b) (grow : ∀ a b, le a (f a b)) :
    ∀ (l : List β) (a : α), l.foldl f a = a → ∀ b ∈ l, f a b = a := by
  have le_foldl (l : List β) (a : α) : le a (l.foldl f a) := by
    induction l generalizing a with
    | nil => exact refl a
    | cons b l ih => exact trans (grow a b) (ih (f a b))
  intro l
  induction l with
  | nil => simp
  | cons b l ih =>
    intro a h
    rw [List.foldl_cons] at h
    have hb : f a b = a := by
      have := le_foldl l (f a b)
      rw [h] at this
      exact antisymm this (grow a b)
    rw [hb] at h
    intro c hc
    rcases List.mem_cons.1 hc with rfl | hc
    · exact hb
    · exact ih a h c hc

/-! ## Families of sets -/

namespace SymSets

variable {a b c : SymSets}

/-- Families of one size, the sets of the first within those of the second. -/
structure Le (a b : SymSets) : Prop where
  size_eq : a.size = b.size
  sub : ∀ s, ∀ t ∈ (a.of s).keys, t ∈ (b.of s).keys

theorem Le.refl (a : SymSets) : a.Le a :=
  ⟨rfl, fun _ _ h => h⟩

theorem Le.trans (h : a.Le b) (h' : b.Le c) : a.Le c :=
  ⟨h.size_eq.trans h'.size_eq, fun s t ht => h'.sub s t (h.sub s t ht)⟩

theorem Le.antisymm (h : a.Le b) (h' : b.Le a) : a = b := by
  refine Array.ext h.size_eq fun s hs hs' => ?_
  have e : a.of s = b.of s := SymSet.ext fun t => ⟨h.sub s t, h'.sub s t⟩
  simpa [of, hs, hs'] using e

theorem memberCount_eq (a : SymSets) :
    a.memberCount = total ((List.range a.size).map fun s => (a.of s).size) := by
  rw [memberCount]
  congr 1
  refine List.ext_getElem (by simp) fun s hs _ => ?_
  have hs' : s < a.size := by simpa using hs
  simp [of, hs']

theorem Le.memberCount_le (h : a.Le b) : a.memberCount ≤ b.memberCount := by
  rw [memberCount_eq, memberCount_eq, h.size_eq]
  exact total_map_le fun s _ => SortedMap.size_le_of_keys_subset (h.sub s)

/-- A family that grew has more members. -/
theorem Le.eq_of_memberCount (h : a.Le b) (hc : b.memberCount = a.memberCount) : b = a := by
  refine (h.antisymm ⟨h.size_eq.symm, fun s t ht => ?_⟩).symm
  by_cases hs : s < b.size
  · refine SortedMap.mem_keys_of_size_eq (h.sub s) ?_ ht
    have hle := SortedMap.size_le_of_keys_subset (h.sub s)
    by_contra hne
    rw [memberCount_eq, memberCount_eq, h.size_eq] at hc
    have := total_map_lt (fun s _ => SortedMap.size_le_of_keys_subset (h.sub s))
      (List.mem_range.2 hs) (Nat.lt_of_le_of_ne hle (Ne.symm hne))
    omega
  · simp [of, Nat.not_lt.1 hs] at ht

theorem of_modify (a : SymSets) (s s' : Nat) (f : SymSet → SymSet) :
    SymSets.of (a.modify s f) s' = if s' = s ∧ s < a.size then f (a.of s) else a.of s' := by
  unfold of
  rw [Array.getElem?_modify]
  by_cases h : s = s'
  · subst h
    by_cases hs : s < a.size
    · simp [hs]
    · simp [hs]
  · have h' : ¬ s' = s := fun e => h e.symm
    simp [h, h']

theorem of_grow (a : SymSets) (s s' : Nat) (more : SymSet) :
    (a.grow s more).of s' = if s' = s ∧ s < a.size then (a.of s).union more else a.of s' :=
  a.of_modify s s' _

theorem grow_le (a : SymSets) (s : Nat) (more : SymSet) : a.Le (a.grow s more) := by
  refine ⟨by simp [grow], fun s' t ht => ?_⟩
  rw [of_grow]
  split
  · rename_i h
    rw [SortedMap.mem_keys_union, ← h.1]
    exact Or.inl ht
  · exact ht

/-- What is added to a set and changes nothing was there before. -/
theorem mem_of_grow_eq {s : Nat} {more : SymSet} (h : a.grow s more = a) (hs : s < a.size) :
    ∀ t ∈ more.keys, t ∈ (a.of s).keys := by
  intro t ht
  have e := of_grow a s s more
  rw [h, if_pos ⟨rfl, hs⟩] at e
  rw [e, SortedMap.mem_keys_union]
  exact Or.inr ht

theorem growFrom_le (a : SymSets) (s s' : Nat) : a.Le (a.growFrom s s') := by
  unfold growFrom
  split
  · exact Le.refl a
  · exact grow_le a s _

theorem mem_of_growFrom_eq {s s' : Nat} (h : a.growFrom s s' = a) (hs : s < a.size) :
    ∀ t ∈ (a.of s').keys, t ∈ (a.of s).keys := by
  unfold growFrom at h
  split at h
  · rename_i hsame
    exact fun t ht => hsame ▸ ht
  · exact mem_of_grow_eq h hs

/-- A family of sets of symbols of one sort. -/
def Only (P : Nat → Prop) (a : SymSets) : Prop :=
  ∀ s, ∀ t ∈ (a.of s).keys, P t

theorem Only.grow {P : Nat → Prop} (h : a.Only P) (s : Nat) {more : SymSet}
    (hm : ∀ t ∈ more.keys, P t) : (a.grow s more).Only P := by
  intro s' t ht
  rw [of_grow] at ht
  split at ht
  · rcases (SortedMap.mem_keys_union _ _ _).1 ht with ht | ht
    · exact h s t ht
    · exact hm t ht
  · exact h s' t ht

theorem Only.growFrom {P : Nat → Prop} (h : a.Only P) (s s' : Nat) : (a.growFrom s s').Only P := by
  unfold SymSets.growFrom
  split
  · exact h
  · exact h.grow s (h s')

/-- A family of `n` sets with symbols below `n`. -/
structure Within (n : Nat) (a : SymSets) : Prop where
  size_eq : a.size = n
  lt : ∀ s, ∀ t ∈ (a.of s).keys, t < n

theorem Within.le {n : Nat} (h : a.Within n) (hle : a.Le b) (hb : b.Only (· < n)) : b.Within n :=
  ⟨hle.size_eq.symm.trans h.size_eq, hb⟩

theorem Within.memberCount_le {n : Nat} (h : a.Within n) : a.memberCount ≤ n * n := by
  have := total_map_le_mul (l := List.range a.size) fun s _ =>
    SymSet.size_le_of_forall_lt (h.lt s)
  rw [memberCount_eq]
  simpa [h.size_eq] using this

end SymSets

namespace Grammar

variable {g : Grammar}

/-! ## Empty text and line breaks -/

theorem headRound_eq (rule : SymSet → List Nat → Bool) (s : SymSet) :
    g.headRound rule s = g.productions.toList.foldl
      (fun s p => if rule s p.body then s.add p.head else s) s := by
  rw [headRound, Array.foldl_toList]

theorem headStep_sub (rule : SymSet → List Nat → Bool) (s : SymSet) (p : Production) :
    ∀ t ∈ s.keys, t ∈ (if rule s p.body then s.add p.head else s : SymSet).keys := by
  intro t ht
  split
  · rw [SymSet.mem_keys_add]
    exact Or.inr ht
  · exact ht

/-- A round adds heads only. -/
theorem headRound_spec (rule : SymSet → List Nat → Bool) (s : SymSet) :
    (∀ t ∈ s.keys, t ∈ (g.headRound rule s).keys) ∧
      ∀ t ∈ (g.headRound rule s).keys, t ∈ s.keys ∨ ∃ p ∈ g.productions.toList, p.head = t := by
  rw [headRound_eq]
  generalize g.productions.toList = ps
  induction ps generalizing s with
  | nil => exact ⟨fun t ht => ht, fun t ht => Or.inl ht⟩
  | cons p ps ih =>
    rw [List.foldl_cons]
    obtain ⟨h₁, h₂⟩ := ih (if rule s p.body then s.add p.head else s)
    refine ⟨fun t ht => h₁ t (headStep_sub rule s p t ht), fun t ht => ?_⟩
    rcases h₂ t ht with ht | ⟨q, hq, rfl⟩
    · split at ht
      · rcases SymSet.mem_keys_add.1 ht with rfl | ht
        · exact Or.inr ⟨p, by simp, rfl⟩
        · exact Or.inl ht
      · exact Or.inl ht
    · exact Or.inr ⟨q, by simp [hq], rfl⟩

/-- A round leaves a set as it is that is closed under the rule. -/
theorem headRound_eq_self {rule : SymSet → List Nat → Bool} {s : SymSet}
    (h : ∀ p ∈ g.productions, rule s p.body = true → p.head ∈ s.keys) : g.headRound rule s = s := by
  rw [headRound_eq]
  have hstep : ∀ p ∈ g.productions.toList,
      (if rule s p.body then s.add p.head else s : SymSet) = s := by
    intro p hp
    split
    · rename_i hrule
      have hhead := h p (by simpa using hp) hrule
      refine SymSet.ext fun t => ?_
      rw [SymSet.mem_keys_add, or_iff_right_of_imp fun ht => ht ▸ hhead]
    · rfl
  generalize g.productions.toList = ps at hstep
  induction ps with
  | nil => rfl
  | cons p ps ih =>
    rw [List.foldl_cons, hstep p List.mem_cons_self]
    exact ih fun q hq => hstep q (List.mem_cons_of_mem _ hq)

/-- What the rule preserves holds of every symbol that a round adds. -/
theorem headRound_forall {rule : SymSet → List Nat → Bool} {P : Nat → Prop}
    (hrule : ∀ s : SymSet, (∀ t ∈ s.keys, P t) →
      ∀ p ∈ g.productions, rule s p.body = true → P p.head)
    {s : SymSet} (h : ∀ t ∈ s.keys, P t) : ∀ t ∈ (g.headRound rule s).keys, P t := by
  rw [headRound_eq]
  have hsub : ∀ p ∈ g.productions.toList, p ∈ g.productions := by simp
  generalize g.productions.toList = ps at hsub
  induction ps generalizing s with
  | nil => exact h
  | cons p ps ih =>
    refine ih (fun t ht => ?_) fun q hq => hsub q (List.mem_cons_of_mem _ hq)
    dsimp only at ht
    split at ht
    · rename_i hp
      rcases SymSet.mem_keys_add.1 ht with rfl | ht
      · exact hrule s h p (hsub p List.mem_cons_self) hp
      · exact h t ht
    · exact h t ht

/-- The rounds of a rule that puts heads into a set lead to a set that has its start and is
    closed under the rule. -/
theorem settle_headRound (rule : SymSet → List Nat → Bool) (init : SymSet) :
    let s := settle SortedMap.size (g.headRound rule) (g.productions.size + 1) init
    (∀ t ∈ init.keys, t ∈ s.keys) ∧
      ∀ p ∈ g.productions, rule s p.body = true → p.head ∈ s.keys := by
  let P (s : SymSet) : Prop := (∀ t ∈ init.keys, t ∈ s.keys) ∧
    ∀ t ∈ s.keys, t ∈ init.keys ∨ ∃ p ∈ g.productions.toList, p.head = t
  have limit (s : SymSet) (hs : P s) : s.size ≤ init.size + g.productions.size := by
    have hsub : ∀ t ∈ s.keys, t ∈ init.keys ++ g.productions.toList.map Production.head := by
      intro t ht
      rcases hs.2 t ht with ht | ⟨p, hp, rfl⟩
      · exact List.mem_append_left _ ht
      · exact List.mem_append_right _ (List.mem_map_of_mem hp)
    have := (s.keys_nodup.subperm hsub).length_le
    rw [SortedMap.size_eq_length_keys, SortedMap.size_eq_length_keys]
    simpa using this
  have keep (s : SymSet) (hs : P s) : P (g.headRound rule s) := by
    obtain ⟨h₁, h₂⟩ := headRound_spec (g := g) rule s
    refine ⟨fun t ht => h₁ t (hs.1 t ht), fun t ht => ?_⟩
    rcases h₂ t ht with ht | hp
    · exact hs.2 t ht
    · exact Or.inr hp
  have eq (s : SymSet) (hs : P s) (h : (g.headRound rule s).size = s.size) :
      g.headRound rule s = s :=
    SymSet.ext fun t =>
      ⟨SortedMap.mem_keys_of_size_eq (headRound_spec rule s).1 h, (headRound_spec rule s).1 t⟩
  obtain ⟨hP, hfix⟩ := settle_fixed keep
    (fun s _ => SortedMap.size_le_of_keys_subset (headRound_spec rule s).1) eq limit
    (g.productions.size + 1) init ⟨fun t ht => ht, fun t ht => Or.inl ht⟩ (by omega)
  refine ⟨hP.1, fun p hp hrule => ?_⟩
  -- a round that changes nothing changes nothing for any single production
  rw [headRound_eq] at hfix
  have hstep := foldl_fixed (fun a b : SymSet => ∀ t ∈ a.keys, t ∈ b.keys)
    (fun _ _ h => h) (fun h h' t ht => h' t (h t ht))
    (fun h h' => SymSet.ext fun t => ⟨h t, h' t⟩) (headStep_sub rule) _ _ hfix p (by simpa using hp)
  rw [if_pos hrule] at hstep
  rw [← hstep, SymSet.mem_keys_add]
  exact Or.inl rfl

/-- A head with a body of nullable symbols is nullable. -/
theorem nullable_closed {p : Production} (hp : p ∈ g.productions)
    (h : ∀ s ∈ p.body, s ∈ g.nullableSymbols.keys) : p.head ∈ g.nullableSymbols.keys := by
  refine (settle_headRound (g := g) (fun s body => body.all s.contains) ∅).2 p hp ?_
  rw [List.all_eq_true]
  intro s hs
  exact SortedMap.contains_iff.2 (h s hs)

/-! ## Beginnings -/

/-- A sequence begins like one of its symbols. -/
theorem mem_firstOfSeq_sub {first : SymSets} {t : Nat} : ∀ {seq : List Nat},
    t ∈ (g.firstOfSeq first seq).1.keys → ∃ s ∈ seq, t ∈ (first.of s).keys
  | [], h => by simp [firstOfSeq] at h
  | s :: seq, h => by
    unfold firstOfSeq at h
    split at h
    · rcases (SortedMap.mem_keys_union _ _ _).1 h with h | h
      · exact ⟨s, by simp, h⟩
      · obtain ⟨s', hs', h⟩ := mem_firstOfSeq_sub h
        exact ⟨s', by simp [hs'], h⟩
    · exact ⟨s, by simp, h⟩

/-- The step that adds the beginnings of a body to those of the head. -/
def firstStep (g : Grammar) (first : SymSets) (p : Production) : SymSets :=
  first.grow p.head (g.firstOfSeq first p.body).1

theorem firstRound_eq (first : SymSets) :
    g.productions.foldl (fun first p => first.grow p.head (g.firstOfSeq first p.body).1) first =
      g.productions.toList.foldl g.firstStep first := by
  rw [Array.foldl_toList]
  rfl

theorem firstRound_le (ps : List Production) (first : SymSets) :
    first.Le (ps.foldl g.firstStep first) := by
  induction ps generalizing first with
  | nil => exact SymSets.Le.refl first
  | cons p ps ih => exact (SymSets.grow_le _ _ _).trans (ih (g.firstStep first p))

theorem firstRound_only {P : Nat → Prop} (ps : List Production) {first : SymSets}
    (h : first.Only P) : (ps.foldl g.firstStep first).Only P := by
  induction ps generalizing first with
  | nil => exact h
  | cons p ps ih =>
    refine ih (h.grow _ ?_)
    intro t ht
    obtain ⟨s, -, hs⟩ := mem_firstOfSeq_sub ht
    exact h s t hs

/-- Adding each of some symbols to its own set. -/
theorem mem_foldl_add {s t : Nat} : ∀ (symbols : List Symbol) (sets : SymSets),
    t ∈ (SymSets.of (symbols.foldl (fun sets s => sets.modify s.num fun set => set.add s.num) sets)
        s).keys ↔
      t ∈ (sets.of s).keys ∨ t = s ∧ s < sets.size ∧ ∃ x ∈ symbols, x.num = s
  | [], sets => by simp
  | x :: symbols, sets => by
    rw [List.foldl_cons, mem_foldl_add symbols, SymSets.of_modify, Array.size_modify]
    by_cases hs : s = x.num ∧ x.num < sets.size
    · obtain ⟨rfl, hlt⟩ := hs
      rw [if_pos ⟨rfl, hlt⟩, SymSet.mem_keys_add, or_comm (a := t = x.num), or_assoc]
      refine or_congr_right ⟨?_, fun ht => Or.inl ht.1⟩
      rintro (rfl | ⟨rfl, -⟩) <;> exact ⟨rfl, hlt, x, List.mem_cons_self, rfl⟩
    · rw [if_neg hs]
      refine or_congr_right (and_congr_right fun _ => and_congr_right fun hlt => ?_)
      rw [List.exists_mem_cons_iff, or_iff_right]
      rintro rfl
      exact hs ⟨rfl, hlt⟩

/-- The set of a terminal has the terminal alone, and all others are empty. -/
theorem mem_terminalSets (hi : g.Indexed) {s t : Nat} :
    t ∈ (g.terminalSets.of s).keys ↔ t = s ∧ g.isTerminal s = true := by
  have hempty : t ∉ (SymSets.of (Array.replicate g.symbols.size ∅) s).keys := by
    by_cases hs : s < g.symbols.size <;> simp [SymSets.of, hs]
  rw [terminalSets, mem_foldl_add, or_iff_right hempty, Array.size_replicate]
  refine and_congr_right fun _ => ?_
  simp only [List.mem_filter, Array.mem_toList_iff, beq_iff_eq, isTerminal, kind?,
    Option.map_eq_some_iff]
  constructor
  · rintro ⟨-, x, ⟨hx, hkind⟩, rfl⟩
    obtain ⟨i, hget⟩ := Array.getElem?_of_mem hx
    exact ⟨x, hi.num i x hget ▸ hget, hkind⟩
  · rintro ⟨x, hget, hkind⟩
    exact ⟨(Array.getElem?_eq_some_iff.1 hget).1, x, ⟨Array.mem_of_getElem? hget, hkind⟩,
      hi.num s x hget⟩

theorem isTerminal_lt {s : Nat} (h : g.isTerminal s = true) : s < g.symbols.size := by
  by_contra hs
  simp [isTerminal, kind?, Nat.not_lt.1 hs] at h

theorem isNonterminal_lt {s : Nat} (h : g.isNonterminal s = true) : s < g.symbols.size := by
  by_contra hs
  simp [isNonterminal, kind?, Nat.not_lt.1 hs] at h

theorem isTerminal_eq_false {s : Nat} (h : g.isNonterminal s = true) : g.isTerminal s = false := by
  simp only [isNonterminal, isTerminal, beq_iff_eq] at h ⊢
  rw [h]
  rfl

theorem size_foldl_add (symbols : List Symbol) (sets : SymSets) :
    (symbols.foldl (fun sets s => sets.modify s.num fun set => set.add s.num) sets).size =
      sets.size := by
  induction symbols generalizing sets with
  | nil => rfl
  | cons x symbols ih => rw [List.foldl_cons, ih, Array.size_modify]

theorem terminalSets_within (hi : g.Indexed) : g.terminalSets.Within g.symbols.size := by
  refine ⟨by rw [terminalSets, size_foldl_add, Array.size_replicate], fun s t ht => ?_⟩
  obtain ⟨rfl, hs⟩ := (mem_terminalSets hi).1 ht
  exact isTerminal_lt hs

/-- The sets of the beginnings: they have the terminals, and no round changes them. -/
theorem firstSets_fixed (hi : g.Indexed) :
    (g.terminalSets.Le g.firstSets ∧ g.firstSets.Within g.symbols.size) ∧
      g.productions.toList.foldl g.firstStep g.firstSets = g.firstSets := by
  have hround : (fun first => g.productions.foldl (fun first p =>
      first.grow p.head (g.firstOfSeq first p.body).1) first) =
      fun first => g.productions.toList.foldl g.firstStep first := by
    funext first
    exact firstRound_eq first
  unfold firstSets
  rw [hround]
  refine settle_fixed (P := fun a => g.terminalSets.Le a ∧ a.Within g.symbols.size)
    (fun a ha => ?_) (fun a _ => ?_) (fun a _ h => ?_) (fun a ha => ha.2.memberCount_le) _ _
    ⟨SymSets.Le.refl _, terminalSets_within hi⟩ ?_
  · have hle := firstRound_le (g := g) g.productions.toList a
    exact ⟨ha.1.trans hle, ha.2.le hle (firstRound_only _ ha.2.lt)⟩
  · exact (firstRound_le _ a).memberCount_le
  · exact (firstRound_le _ a).eq_of_memberCount h
  · rw [setRounds]
    omega

theorem firstSets_within (hi : g.Indexed) : g.firstSets.Within g.symbols.size :=
  (firstSets_fixed hi).1.2

/-- A terminal begins itself. -/
theorem mem_firstSets_terminal (hi : g.Indexed) {s : Nat} (h : g.isTerminal s = true) :
    s ∈ (g.firstSets.of s).keys :=
  (firstSets_fixed hi).1.1.sub s s ((mem_terminalSets hi).2 ⟨rfl, h⟩)

/-- A head begins like its bodies. -/
theorem firstSets_closed (hi : g.Indexed) {p : Production} (hp : p ∈ g.productions)
    (hh : p.head < g.symbols.size) :
    ∀ t ∈ (g.firstOfSeq g.firstSets p.body).1.keys, t ∈ (g.firstSets.of p.head).keys := by
  have hstep := foldl_fixed _ SymSets.Le.refl SymSets.Le.trans SymSets.Le.antisymm
    (fun a p => SymSets.grow_le a p.head _) _ _ (firstSets_fixed hi).2 p (by simpa using hp)
  exact SymSets.mem_of_grow_eq hstep (by rwa [(firstSets_within hi).size_eq])

/-- Beginnings are terminals. -/
theorem firstSets_terminal (hi : g.Indexed) : g.firstSets.Only fun t => g.isTerminal t = true := by
  unfold firstSets
  refine settle_induction ?_ _ _ ?_
  · intro first hfirst
    rw [firstRound_eq]
    exact firstRound_only _ hfirst
  · intro s t ht
    obtain ⟨rfl, hs⟩ := (mem_terminalSets hi).1 ht
    exact hs

/-! ## Neighbours -/

theorem followInside_le (first : SymSets) : ∀ (body : List Nat) (follow : SymSets),
    follow.Le (g.followInside first body follow)
  | [], follow => SymSets.Le.refl follow
  | _ :: rest, _ => (SymSets.grow_le _ _ _).trans (followInside_le first rest _)

theorem followInside_only {P : Nat → Prop} {first : SymSets} (hfirst : first.Only P) :
    ∀ (body : List Nat) {follow : SymSets}, follow.Only P → (g.followInside first body follow).Only P
  | [], _, h => h
  | s :: rest, _, h => by
    refine followInside_only hfirst rest (h.grow s fun t ht => ?_)
    obtain ⟨s', -, hs'⟩ := mem_firstOfSeq_sub ht
    exact hfirst s' t hs'

/-- Inside of a body, a symbol is followed by what begins the rest. -/
theorem mem_followInside {first : SymSets} {s t : Nat} {before rest : List Nat}
    (ht : t ∈ (g.firstOfSeq first rest).1.keys) {follow : SymSets} (hs : s < follow.size) :
    t ∈ ((g.followInside first (before ++ s :: rest) follow).of s).keys := by
  induction before generalizing follow with
  | nil =>
    refine (followInside_le first rest _).sub s t ?_
    rw [SymSets.of_grow, if_pos ⟨rfl, hs⟩, SortedMap.mem_keys_union]
    exact Or.inr ht
  | cons s' before ih => exact ih (Nat.lt_of_lt_of_eq hs (SymSets.grow_le follow s' _).size_eq)

theorem followsInside_eq (first : SymSets) : g.followsInside first =
    g.productions.toList.foldl (fun follow p => g.followInside first p.body follow)
      (Array.replicate g.symbols.size ∅) := by
  rw [followsInside, Array.foldl_toList]

/-- There are no members to begin with. -/
theorem not_mem_empty {n s t : Nat} : t ∉ (SymSets.of (Array.replicate n ∅) s).keys := by
  by_cases hs : s < n <;> simp [SymSets.of, hs]

theorem followsInside_only {P : Nat → Prop} {first : SymSets} (hfirst : first.Only P) :
    (g.followsInside first).Only P := by
  rw [followsInside_eq]
  exact List.foldlRecOn _ _ (fun s t ht => absurd ht not_mem_empty)
    fun follow h p _ => followInside_only hfirst p.body h

theorem followInside_foldl_le (first : SymSets) (ps : List Production) (follow : SymSets) :
    follow.Le (ps.foldl (fun follow p => g.followInside first p.body follow) follow) :=
  List.foldlRecOn ps _ (SymSets.Le.refl follow) fun _ h p _ => h.trans (followInside_le first p.body _)

theorem size_followsInside (first : SymSets) : (g.followsInside first).size = g.symbols.size := by
  rw [followsInside_eq, ← (followInside_foldl_le first g.productions.toList _).size_eq,
    Array.size_replicate]

/-- Inside of the bodies, each symbol is followed by what begins the rest. -/
theorem mem_followsInside {first : SymSets} {p : Production} (hp : p ∈ g.productions)
    {before : List Nat} {s t : Nat} {rest : List Nat} (hb : p.body = before ++ s :: rest)
    (hs : s < g.symbols.size) (ht : t ∈ (g.firstOfSeq first rest).1.keys) :
    t ∈ ((g.followsInside first).of s).keys := by
  -- the productions before and behind this one only add to the sets
  obtain ⟨ps, qs, hsplit⟩ := List.append_of_mem (Array.mem_toList_iff.2 hp)
  rw [followsInside_eq, hsplit, List.foldl_append, List.foldl_cons]
  refine (followInside_foldl_le first qs _).sub s t ?_
  rw [hb]
  refine mem_followInside ht ?_
  rwa [← (followInside_foldl_le first ps _).size_eq, Array.size_replicate]

theorem followEnd_le (head : Nat) : ∀ (symbols : List Nat) (follow : SymSets),
    follow.Le (g.followEnd head symbols follow)
  | [], follow => SymSets.Le.refl follow
  | s :: before, follow => by
    rw [followEnd]
    split
    · exact (SymSets.growFrom_le _ _ _).trans (followEnd_le head before _)
    · exact SymSets.growFrom_le _ _ _

theorem followEnd_only {P : Nat → Prop} (head : Nat) : ∀ (symbols : List Nat) {follow : SymSets},
    follow.Only P → (g.followEnd head symbols follow).Only P
  | [], _, h => h
  | s :: before, _, h => by
    rw [followEnd]
    split
    · exact followEnd_only head before (h.growFrom s head)
    · exact h.growFrom s head

/-- A body that changes nothing has what follows its head behind each symbol that nothing but
    the empty text needs to stand behind. -/
theorem followEnd_fixed {head : Nat} {follow : SymSets} : ∀ {symbols : List Nat},
    g.followEnd head symbols follow = follow →
      ∀ {rest : List Nat} {s : Nat} {before : List Nat}, symbols = rest ++ s :: before →
        (∀ x ∈ rest, g.isNullable x = true) → follow.growFrom s head = follow
  | [], _, rest, s, before, hb, _ => by simp at hb
  | s' :: symbols, h, rest, s, before, hb, hrest => by
    have hs' : follow.growFrom s' head = follow := by
      have hle : (follow.growFrom s' head).Le (g.followEnd head (s' :: symbols) follow) := by
        rw [followEnd]
        split
        · exact followEnd_le head symbols _
        · exact SymSets.Le.refl _
      rw [h] at hle
      exact hle.antisymm (SymSets.growFrom_le _ _ _)
    cases rest with
    | nil =>
      obtain ⟨rfl, -⟩ := List.cons.inj hb
      exact hs'
    | cons x rest =>
      obtain ⟨rfl, hsymbols⟩ := List.cons.inj hb
      obtain ⟨hx, hrest⟩ := List.forall_mem_cons.1 hrest
      rw [followEnd, hs', if_pos hx] at h
      exact followEnd_fixed h hsymbols hrest

theorem followRound_eq (follow : SymSets) : g.followRound follow =
    g.productions.toList.foldl (fun follow p => g.followEnd p.head p.body.reverse follow) follow := by
  rw [followRound, Array.foldl_toList]

theorem followRound_le (follow : SymSets) : follow.Le (g.followRound follow) := by
  rw [followRound_eq]
  exact List.foldlRecOn _ _ (SymSets.Le.refl follow) fun _ h p _ =>
    h.trans (followEnd_le p.head p.body.reverse _)

theorem followRound_only {P : Nat → Prop} {follow : SymSets} (h : follow.Only P) :
    (g.followRound follow).Only P := by
  rw [followRound_eq]
  exact List.foldlRecOn _ _ h fun _ h p _ => followEnd_only p.head p.body.reverse h

/-- Neighbours are of the sort that beginnings are. -/
theorem followSets_only {P : Nat → Prop} {first : SymSets} (hfirst : first.Only P) :
    (g.followSets first).Only P :=
  settle_induction (fun _ => followRound_only) _ _ (followsInside_only hfirst)

/-- The sets of the neighbours: they have those inside of the bodies, and no round changes
    them. -/
theorem followSets_fixed {first : SymSets} (hfirst : first.Within g.symbols.size) :
    ((g.followsInside first).Le (g.followSets first) ∧
      (g.followSets first).Within g.symbols.size) ∧
      g.followRound (g.followSets first) = g.followSets first := by
  refine settle_fixed (P := fun a => (g.followsInside first).Le a ∧ a.Within g.symbols.size)
    (fun a ha => ?_) (fun a _ => (followRound_le a).memberCount_le)
    (fun a _ h => (followRound_le a).eq_of_memberCount h) (fun a ha => ha.2.memberCount_le) _ _
    ⟨SymSets.Le.refl _, size_followsInside first, followsInside_only hfirst.lt⟩ ?_
  · have hle := followRound_le (g := g) a
    exact ⟨ha.1.trans hle, ha.2.le hle (followRound_only ha.2.lt)⟩
  · rw [setRounds]
    omega

section

variable {first : SymSets} {p : Production} {before rest : List Nat} {s : Nat}

/-- What begins the rest of a body follows the symbol in front of it. -/
theorem followSets_inside (hfirst : first.Within g.symbols.size) (hp : p ∈ g.productions)
    (hb : p.body = before ++ s :: rest) (hs : s < g.symbols.size) :
    ∀ t ∈ (g.firstOfSeq first rest).1.keys, t ∈ ((g.followSets first).of s).keys :=
  fun t ht => (followSets_fixed hfirst).1.1.sub s t (mem_followsInside hp hb hs ht)

/-- What follows a head follows each symbol of a body where the rest derives the empty text. -/
theorem followSets_end (hfirst : first.Within g.symbols.size) (hp : p ∈ g.productions)
    (hb : p.body = before ++ s :: rest) (hs : s < g.symbols.size)
    (hrest : ∀ x ∈ rest, g.isNullable x = true) :
    ∀ t ∈ ((g.followSets first).of p.head).keys, t ∈ ((g.followSets first).of s).keys := by
  obtain ⟨⟨-, hw⟩, hfix⟩ := followSets_fixed hfirst
  rw [followRound_eq] at hfix
  have hstep := foldl_fixed _ SymSets.Le.refl SymSets.Le.trans SymSets.Le.antisymm
    (fun a p => followEnd_le (g := g) p.head p.body.reverse a) _ _ hfix p (by simpa using hp)
  have hreverse : p.body.reverse = rest.reverse ++ s :: before.reverse := by simp [hb]
  have hsame := followEnd_fixed hstep hreverse fun x hx => hrest x (List.mem_reverse.1 hx)
  exact SymSets.mem_of_growFrom_eq hsame (by rwa [hw.size_eq])

end

end Grammar

end LayoutLR
