/-
  Layout-aware LR toolkit — the levels of a grammar.

  A declaration of precedences starts a level of its own, and everything that it
  declares gets this level with its associativity.  Nothing else gives a symbol a
  precedence.  So the level of a symbol tells how it associates.

  * `Draft.Ranked`: all precedences are from declarations before;
  * `Draft.Borrows`: no symbol gets a precedence;
  * `Grammar.precedence_eq_of_level`: the precedences of one level are the same.
-/
import LayoutLR.Proofs.Grammar.Statements

namespace LayoutLR

namespace Draft

variable {d d' d'' : Draft} {i : Nat} {p q : Precedence}

/-- The precedence of a symbol. -/
def rankOf (d : Draft) (i : Nat) : Option Precedence :=
  (d.mention i).precedence

/-- The levels of all symbols are those of declarations before, each with one associativity. -/
def Ranked (d : Draft) : Prop :=
  ∃ assoc : Nat → Assoc, ∀ i p, d.rankOf i = some p → p.level ≤ d.level ∧ p.assoc = assoc p.level

theorem new_ranked : Draft.new.Ranked := by
  refine ⟨fun _ => .left, fun i p hp => ?_⟩
  have hnone : ∀ m ∈ Draft.new.symbols.toList, m.precedence = none := by decide
  rw [rankOf, mention] at hp
  cases hm : Draft.new.symbols[i]? with
  | none =>
    rw [hm] at hp
    cases hp
  | some m =>
    rw [hm, Option.map_some, Option.getD_some, hnone m (by simpa using Array.mem_of_getElem? hm)] at hp
    cases hp

theorem rankOf_congr (h : d'.symbols = d.symbols) (i : Nat) : d'.rankOf i = d.rankOf i := by
  rw [rankOf, mention, h]
  rfl

theorem rankOf_add (d : Draft) (m : Mention) (i : Nat) :
    (d.add m).2.rankOf i = if i = d.symbols.size then m.precedence else d.rankOf i := by
  rw [rankOf, mention_add, apply_ite Mention.precedence]
  rfl

theorem rankOf_update (hi : i < d.symbols.size) (f : Mention → Mention) (j : Nat) :
    (d.update i f).rankOf j = if i = j then (f (d.mention i)).precedence else d.rankOf j := by
  rw [rankOf, mention_update hi, apply_ite Mention.precedence]
  rfl

/-! ## Bodies and heads -/

/-- No symbol gets a precedence, and no level is started. -/
structure Borrows (d d' : Draft) : Prop where
  level : d'.level = d.level
  rank : ∀ i p, d'.rankOf i = some p → d.rankOf i = some p

theorem Borrows.trans (h : d.Borrows d') (h' : d'.Borrows d'') : d.Borrows d'' :=
  ⟨h'.level.trans h.level, fun i p hp => h.rank i p (h'.rank i p hp)⟩

theorem Ranked.borrows (h : d.Ranked) (hb : d.Borrows d') : d'.Ranked := by
  obtain ⟨assoc, h⟩ := h
  refine ⟨assoc, fun i p hp => ?_⟩
  rw [hb.level]
  exact h i p (hb.rank i p hp)

theorem add_borrows (d : Draft) {m : Mention} (hm : m.precedence = none) : d.Borrows (d.add m).2 := by
  refine ⟨rfl, fun i p hp => ?_⟩
  rw [rankOf_add, hm] at hp
  split at hp
  · cases hp
  · exact hp

theorem update_borrows (hi : i < d.symbols.size) {f : Mention → Mention}
    (hf : ∀ m, (f m).precedence = m.precedence) : d.Borrows (d.update i f) := by
  refine ⟨rfl, fun j p hp => ?_⟩
  rw [rankOf_update hi, hf] at hp
  split at hp
  · rename_i h
    exact h ▸ hp
  · exact hp

theorem alongBodies_borrows : AlongBodies Borrows := by
  have hrefl (d : Draft) : d.Borrows d := ⟨rfl, fun _ _ h => h⟩
  refine ⟨Borrows.trans, fun hs hl => ⟨hl, fun i p hp => rankOf_congr hs i ▸ hp⟩, ?_, ?_⟩
  · intro d name line
    unfold bodySymbol
    split
    · exact add_borrows d rfl
    split
    · exact hrefl d
    · exact hrefl d
  · intro d name line
    unfold literal
    split
    · exact add_borrows d rfl
    · rename_i i hi
      split
      · exact hrefl d
      · dsimp only
        exact update_borrows (find?_lt hi) fun _ => rfl
      · exact hrefl d
      · exact hrefl d

theorem defineHead_borrows (d : Draft) (name : String) (line : Nat) :
    d.Borrows (d.defineHead name line).2 := by
  have hrefl := alongBodies_borrows.refl d
  unfold defineHead
  split
  · exact add_borrows d rfl
  · rename_i i hi
    split
    · dsimp only
      exact update_borrows (find?_lt hi) fun _ => rfl
    · exact hrefl
    · exact hrefl
    · exact hrefl

/-! ## Declarations -/

/-- No symbol gets another precedence than `p`, and no level is started. -/
structure Grants (p : Precedence) (d d' : Draft) : Prop where
  level : d'.level = d.level
  rank : ∀ i q, d'.rankOf i = some q → d.rankOf i = some q ∨ q = p

theorem Grants.trans (h : Grants p d d') (h' : Grants p d' d'') : Grants p d d'' :=
  ⟨h'.level.trans h.level, fun i q hq => (h'.rank i q hq).elim (h.rank i q) Or.inr⟩

theorem Borrows.grants (h : d.Borrows d') (p : Precedence) : Grants p d d' :=
  ⟨h.level, fun i q hq => Or.inl (h.rank i q hq)⟩

theorem declare_grants (d : Draft) (p : Precedence) (name : String) (kind : SymbolKind)
    (line : Nat) : Grants p d (d.declare p name kind line).2 := by
  obtain ⟨d₁, hfirst, hlast⟩ := d.declare_cases p name kind line
  have h₁ : d.Borrows d₁ := by
    rcases hfirst with rfl | ⟨-, rfl⟩
    · exact alongBodies_borrows.refl _
    · exact add_borrows d rfl
  rcases hlast with h | ⟨i, hi, h⟩
  · rw [h]
    exact h₁.grants p
  · rw [h]
    refine ⟨h₁.level, fun j q hq => ?_⟩
    rw [rankOf_update hi] at hq
    split at hq
    · exact Or.inr (Option.some.inj hq).symm
    · exact Or.inl (h₁.rank j q hq)

end Draft

section

variable {d : Draft} {s : Source} {p : Precedence}

theorem declareAll_grants (p : Precedence) : ∀ (d : Draft) (words : List Token),
    Draft.Grants p d (declareAll d p words).2
  | d, [] => (Draft.alongBodies_borrows.refl d).grants p
  | d, t :: rest => by
    have hone := d.declare_grants p t.symbolName (if t.kind = .word then .virtual else .terminal) t.line
    unfold declareAll
    dsimp only
    split
    · rename_i h
      rwa [h] at hone
    · rename_i h
      rw [h] at hone
      exact hone.trans (declareAll_grants p _ rest)

/-- A declaration gives the next level to what it names. -/
theorem declareAll_ranked (h : d.Ranked) (assoc : Assoc) (words : List Token) :
    (declareAll { d with level := d.level + 1 } ⟨d.level + 1, assoc⟩ words).2.Ranked := by
  have hg := declareAll_grants ⟨d.level + 1, assoc⟩ { d with level := d.level + 1 } words
  obtain ⟨old, h⟩ := h
  refine ⟨fun level => if level = d.level + 1 then assoc else old level, fun i p hp => ?_⟩
  rw [hg.level]
  rcases hg.rank i p hp with hp | rfl
  · obtain ⟨hle, hassoc⟩ := h i p hp
    exact ⟨Nat.le_succ_of_le hle, hassoc.trans (if_neg (by omega)).symm⟩
  · exact ⟨Nat.le_refl _, (if_pos rfl).symm⟩

theorem readDirective_ranked (h : d.Ranked) (plain : Bool) :
    (readDirective d s plain).draft.Ranked := by
  have hfields {d' : Draft} (hs : d'.symbols = d.symbols) (hl : d'.level = d.level) : d'.Ranked :=
    h.borrows (Draft.alongBodies_borrows.fields hs hl)
  unfold readDirective
  split
  · exact h
  · exact h
  · rename_i first rest s₁ _
    show (declareWords d plain first rest).2.Ranked
    rcases declareWords_cases d plain first rest with ⟨type, he⟩ | ⟨assoc, he⟩ | ⟨assoc, he⟩
    · rw [he]
      exact hfields rfl rfl
    · rw [he]
      exact h
    · rw [he]
      exact declareAll_ranked h assoc rest

theorem readStatement_ranked (h : d.Ranked) (t : Token) : (readStatement d s t).draft.Ranked := by
  unfold readStatement
  split
  · exact readDirective_ranked h false
  · exact readDirective_ranked h true
  · split
    · exact h.borrows (Draft.alongBodies_borrows.readAlternatives d s _)
    · exact h
  · exact h.borrows (Draft.alongBodies_borrows.readProduction Draft.defineHead_borrows d s t)
  · exact h

theorem readStatements_ranked (h : d.Ranked) (errors : List GrammarError) :
    (readStatements d errors s).draft.Ranked := by
  fun_induction readStatements d errors s with
  | case1 => exact h
  | case2 _ _ _ _ _ _ ih => exact ih h
  | case3 d errors s r _ _ o ih => exact ih (readStatement_ranked h r.1)

end

/-! ## Grammars -/

namespace Grammar

variable {g : Grammar} {s s' : Nat} {p p' : Precedence}

/-- A precedence in a grammar is one in its draft. -/
theorem exists_rankOf {d : Draft} {first : Nat} (h : (d.toGrammar first).precedenceOf s = some p) :
    ∃ i, d.rankOf i = some p := by
  obtain ⟨x, hx, hp⟩ := Option.bind_eq_some_iff.1 h
  rw [symbols_toGrammar] at hx
  obtain ⟨i, -, rfl⟩ := Option.map_eq_some_iff.1 hx
  exact ⟨i, (d.add_borrows rfl).rank i p hp⟩

/-- The precedences of one level are the same. -/
theorem precedence_eq_of_level {code : List CodeNode} (h : Grammar.read code = .ok g)
    (hp : g.precedenceOf s = some p) (hp' : g.precedenceOf s' = some p')
    (hlevel : p.level = p'.level) : p = p' := by
  obtain ⟨assoc, hranked⟩ : (readCode code).draft.Ranked :=
    readStatements_ranked Draft.new_ranked []
  have hassoc {s : Nat} {p : Precedence} (hp : g.precedenceOf s = some p) :
      p.assoc = assoc p.level := by
    obtain ⟨first, -, -, -, rfl⟩ := draft_of_read h
    obtain ⟨i, hi⟩ := exists_rankOf hp
    exact (hranked i p hi).2
  have heq : p.assoc = p'.assoc := by rw [hassoc hp, hassoc hp', hlevel]
  cases p
  cases p'
  exact congr (congrArg Precedence.mk hlevel) heq

end Grammar

end LayoutLR
