/-
  Layout-aware LR toolkit — the flags of symbols are exact.

  Whether a symbol derives the empty text, and whether it derives a line break, is
  found in rounds over the productions.  Rounds add what there is a derivation for;
  and since the result is closed under the rule, a derivation can be followed back
  from what is derived to the symbol it starts with.

  * `Grammar.isNullable_iff_derives`: nullable symbols derive the empty text;
  * `Grammar.isLineLike_iff_derives`: line-like symbols derive a line break;
  * `Grammar.remark_eq`: marking a marked grammar changes nothing.
-/
import LayoutLR.Proofs.Grammar.Beginnings
import LayoutLR.Proofs.Grammar.Derives

namespace LayoutLR

namespace Grammar

variable {g : Grammar} {s : Nat}

/-! ## The empty text -/

theorem Vanishes.derives (h : g.Vanishes s) : g.Derives [s] [] := by
  induction h with
  | head hp _ ih => exact .of_body hp (.nil_of_forall ih)

/-- What derives the empty text has nullable symbols only. -/
theorem isNullable_of_derives (hg : g.WellFormed) {u : List Nat} (h : g.Derives u []) :
    ∀ s ∈ u, g.isNullable s = true := by
  refine h.backward (P := fun u => ∀ s ∈ u, g.isNullable s = true) ?_ (by simp)
  intro p hp before after hall
  rw [List.append_assoc, List.forall_mem_append, List.forall_mem_append] at hall
  obtain ⟨hbefore, hbody, hafter⟩ := hall
  exact List.forall_mem_append.2
    ⟨hbefore, List.forall_mem_cons.2 ⟨isNullable_head hg hp hbody, hafter⟩⟩

theorem derives_of_isNullable (hg : g.WellFormed) (h : g.isNullable s = true) :
    g.Derives [s] [] :=
  (vanishes_of_isNullable hg h).derives

/-- **Nullable symbols are those that derive the empty text.** -/
theorem isNullable_iff_derives (hg : g.WellFormed) :
    g.isNullable s = true ↔ g.Derives [s] [] :=
  ⟨derives_of_isNullable hg, fun h => isNullable_of_derives hg h s (by simp)⟩

/-! ## Line breaks -/

theorem isLineLike_iff (hg : g.WellFormed) (hs : s < g.symbols.size) :
    g.isLineLike s = true ↔ s ∈ g.lineLikeSymbols.keys := by
  have hmark : g.markSymbols.isLineLike s = g.lineLikeSymbols.contains s := by
    simp [Grammar.isLineLike, Grammar.markSymbols, hs]
  rw [← SortedMap.contains_iff, ← hmark, hg.marked]

theorem newline_lt (hg : g.WellFormed) : Kind.newline.num < g.symbols.size :=
  isTerminal_lt (hg.predefined _ (by decide))

theorem isLineLike_newline (hg : g.WellFormed) : g.isLineLike Kind.newline.num = true := by
  rw [isLineLike_iff hg (newline_lt hg)]
  exact (settle_headRound (fun s body => body.any s.contains) _).1 _ (by simp)

/-- A head with a line-like symbol in its body is line-like. -/
theorem isLineLike_head (hg : g.WellFormed) {p : Nat} (hp : p < g.productions.size)
    (hs : s ∈ g.body p) (h : g.isLineLike s = true) : g.isLineLike (g.head p) = true := by
  obtain ⟨q, hq, hhead, hbody⟩ := exists_production hp
  rw [isLineLike_iff hg (isNonterminal_lt (hg.head p hp)), ← hhead]
  refine (settle_headRound (fun s body => body.any s.contains) _).2 q hq ?_
  have hlt := (hg.body p s hs).elim isTerminal_lt isNonterminal_lt
  exact List.any_eq_true.2
    ⟨s, hbody ▸ hs, SortedMap.contains_iff.2 ((isLineLike_iff hg hlt).1 h)⟩

/-- What derives a sequence with a line-like symbol has one. -/
theorem isLineLike_of_derives (hg : g.WellFormed) {u v : List Nat} (h : g.Derives u v)
    (hv : ∃ s ∈ v, g.isLineLike s = true) : ∃ s ∈ u, g.isLineLike s = true := by
  refine h.backward (P := fun u => ∃ s ∈ u, g.isLineLike s = true) ?_ hv
  rintro p hp before after ⟨s, hs, hlike⟩
  rw [List.append_assoc, List.mem_append, List.mem_append] at hs
  rcases hs with hs | hs | hs
  · exact ⟨s, by simp [hs], hlike⟩
  · exact ⟨g.head p, by simp, isLineLike_head hg hp hs hlike⟩
  · exact ⟨s, by simp [hs], hlike⟩

/-- A symbol derives some sequence with the line break in it. -/
def Breaks (g : Grammar) (s : Nat) : Prop :=
  ∃ form, g.Derives [s] form ∧ Kind.newline.num ∈ form

/-- A head with a body in which a symbol derives a line break derives one as well. -/
theorem Breaks.of_body {p : Nat} (hp : p < g.productions.size) (hs : s ∈ g.body p)
    (h : g.Breaks s) : g.Breaks (g.head p) := by
  obtain ⟨form, hderives, hmem⟩ := h
  obtain ⟨before, after, hbody⟩ := List.append_of_mem hs
  refine ⟨before ++ (form ++ after), .of_body hp ?_, by simp [hmem]⟩
  rw [hbody]
  have hrest : g.Derives ([s] ++ after) (form ++ after) := hderives.append .refl
  exact Derives.append .refl hrest

theorem breaks_of_isLineLike (hg : g.WellFormed) (h : g.isLineLike s = true) : g.Breaks s := by
  have hlt : s < g.symbols.size := by
    by_contra hs
    simp [isLineLike, Nat.not_lt.1 hs] at h
  have hmem := (isLineLike_iff hg hlt).1 h
  refine settle_induction (P := fun set => ∀ s ∈ SortedMap.keys set, g.Breaks s)
    (fun set hset => headRound_forall (fun set hset p hp hany => ?_) hset) _ _ ?_ s hmem
  · -- a round adds a head only for a body with a symbol that is there already
    obtain ⟨n, hn, hhead, hbody⟩ := exists_number hp
    obtain ⟨x, hx, hcontains⟩ := List.any_eq_true.1 hany
    rw [← hhead]
    exact .of_body hn (hbody ▸ hx) (hset x (SortedMap.contains_iff.1 hcontains))
  · intro s hs
    obtain rfl : s = Kind.newline.num := by simpa using hs
    exact ⟨[Kind.newline.num], .refl, by simp⟩

/-- **Line-like symbols are those that derive a line break.** -/
theorem isLineLike_iff_derives (hg : g.WellFormed) : g.isLineLike s = true ↔
    ∃ form, g.Derives [s] form ∧ Kind.newline.num ∈ form := by
  refine ⟨breaks_of_isLineLike hg, fun ⟨form, hderives, hmem⟩ => ?_⟩
  obtain ⟨s', hs', hlike⟩ :=
    isLineLike_of_derives hg hderives ⟨_, hmem, isLineLike_newline hg⟩
  obtain rfl := List.mem_singleton.1 hs'
  exact hlike

/-! ## Marking again -/

/-- Marks the symbols of a grammar, where rounds start with the given sets. -/
def markFrom (g : Grammar) (nullable lineLike : SymSet) : Grammar :=
  let rounds := g.productions.size + 1
  let nullable := settle SortedMap.size (g.headRound fun s body => body.all s.contains) rounds
    nullable
  let lineLike := settle SortedMap.size (g.headRound fun s body => body.any s.contains) rounds
    (lineLike.add Kind.newline.num)
  { g with
    symbols := g.symbols.mapIdx fun i s =>
      { s with nullable := nullable.contains i, lineLike := lineLike.contains i } }

/-- The numbers of the symbols that satisfy `p`, in order. -/
def symbolsWhere (g : Grammar) (p : Symbol → Bool) : List Nat :=
  (List.range g.symbols.size).filter fun s => (g.symbols[s]?.map p).getD false

/-- The symbols of a grammar with a flag, as a set. -/
def flagged (g : Grammar) (flag : Symbol → Bool) : SymSet :=
  SymSet.ofKeys (g.symbolsWhere flag)

/-- Marks the symbols of a grammar, going on from the flags that they have. -/
def remark (g : Grammar) : Grammar :=
  g.markFrom (g.flagged Symbol.nullable) (g.flagged Symbol.lineLike)

theorem mem_flagged {flag : Symbol → Bool} :
    s ∈ (g.flagged flag).keys ↔ (g.symbols[s]?.map flag).getD false = true := by
  rw [flagged, SymSet.mem_keys_ofKeys, symbolsWhere, List.mem_filter, List.mem_range,
    and_iff_right_iff_imp]
  intro h
  by_contra hs
  simp [Nat.not_lt.1 hs] at h

/-- Symbols without flags are marked from scratch. -/
theorem remark_of_unmarked (h : ∀ s ∈ g.symbols, s.nullable = false ∧ s.lineLike = false) :
    g.remark = g.markSymbols := by
  have hnone (flag : Symbol → Bool) (hflag : ∀ s ∈ g.symbols, flag s = false) :
      g.flagged flag = ∅ := by
    refine SymSet.ext fun s => ?_
    rw [mem_flagged]
    cases hs : g.symbols[s]? with
    | none => simp
    | some symbol => simp [hflag symbol (Array.mem_of_getElem? hs)]
  rw [remark, hnone _ fun s hs => (h s hs).1, hnone _ fun s hs => (h s hs).2]
  rfl

/-- A round that changes nothing is the last one. -/
theorem settle_of_fixed {α : Type} {measure : α → Nat} {round : α → α} {a : α}
    (h : round a = a) : ∀ n, settle measure round n a = a
  | 0 => rfl
  | n + 1 => by
    unfold settle
    simp [h]

theorem contains_flagged {flag : Symbol → Bool} {symbol : Symbol}
    (hs : g.symbols[s]? = some symbol) : (g.flagged flag).contains s = flag symbol := by
  rw [Bool.eq_iff_iff, SortedMap.contains_iff, mem_flagged, hs]
  rfl

/-- A round adds nothing to the nullable symbols. -/
theorem headRound_nullable (hg : g.WellFormed) :
    g.headRound (fun s body => body.all s.contains) (g.flagged Symbol.nullable) =
      g.flagged Symbol.nullable := by
  refine headRound_eq_self fun q hq hall => mem_flagged.2 ?_
  obtain ⟨p, hp, hhead, hbody⟩ := exists_number hq
  rw [← hhead]
  refine isNullable_head hg hp fun s hs => ?_
  rw [hbody] at hs
  exact mem_flagged.1 (SortedMap.contains_iff.1 (List.all_eq_true.1 hall s hs))

/-- A round adds nothing to the line-like symbols. -/
theorem headRound_lineLike (hg : g.WellFormed) :
    g.headRound (fun s body => body.any s.contains) (g.flagged Symbol.lineLike) =
      g.flagged Symbol.lineLike := by
  refine headRound_eq_self fun q hq hany => mem_flagged.2 ?_
  obtain ⟨p, hp, hhead, hbody⟩ := exists_number hq
  obtain ⟨s, hs, hcontains⟩ := List.any_eq_true.1 hany
  rw [← hhead]
  exact isLineLike_head hg hp (hbody ▸ hs) (mem_flagged.1 (SortedMap.contains_iff.1 hcontains))

/-- **Marking a marked grammar changes nothing.** -/
theorem remark_eq (hg : g.WellFormed) : g.remark = g := by
  have hnewline : (g.flagged Symbol.lineLike).add Kind.newline.num = g.flagged Symbol.lineLike := by
    refine SymSet.ext fun s => ?_
    rw [SymSet.mem_keys_add, or_iff_right_of_imp]
    rintro rfl
    exact mem_flagged.2 (isLineLike_newline hg)
  unfold remark markFrom
  dsimp only
  rw [hnewline, settle_of_fixed (headRound_nullable hg), settle_of_fixed (headRound_lineLike hg)]
  refine congrArg (fun symbols => ({ g with symbols } : Grammar)) (Array.ext_getElem? fun i => ?_)
  rw [Array.getElem?_mapIdx]
  cases hi : g.symbols[i]? with
  | none => rfl
  | some symbol => simp [contains_flagged hi]

/-! ## Grammars that were read -/

/-- **The flags of a grammar that was read are exact:** a symbol is nullable if and only if it
    derives the empty text, it is line-like if and only if it is the line break or derives a
    sequence with one in it, and marking again changes nothing, whether it goes on from the
    flags or starts without any. -/
theorem read_flags_exact {code : List CodeNode} (h : Grammar.read code = .ok g) :
    (∀ s, g.isNullable s = true ↔ g.Derives [s] []) ∧
    (∀ s, g.isLineLike s = true ↔
      s = Kind.newline.num ∨ ∃ form, g.Derives [s] form ∧ Kind.newline.num ∈ form) ∧
    g.remark = g ∧ g.markSymbols = g := by
  have hg := read_wellFormed h
  refine ⟨fun s => isNullable_iff_derives hg, fun s => ?_, remark_eq hg, hg.marked⟩
  rw [isLineLike_iff_derives hg, iff_or_self]
  rintro rfl
  exact ⟨[Kind.newline.num], .refl, by simp⟩

/-- Lines that may be missing, with an end that may be missing as well. -/
def optionalLines : String :=
  "S -> A S | \nA -> B NEWLINE | NUMBER\nB -> \n"

theorem read_flags_exact_optionalLines : ∃ g, Grammar.readText optionalLines = .ok g ∧
    (g.symbolsWhere Symbol.nullable).map g.name = ["S", "B"] ∧
    (g.symbolsWhere Symbol.lineLike).map g.name = ["NEWLINE", "$start", "S", "A"] ∧
    (∀ s, g.isNullable s = true ↔ g.Derives [s] []) ∧
    (∀ s, g.isLineLike s = true ↔
      s = Kind.newline.num ∨ ∃ form, g.Derives [s] form ∧ Kind.newline.num ∈ form) ∧
    g.remark = g ∧ g.markSymbols = g := by
  obtain ⟨g, hg, htest⟩ := exists_readText optionalLines (fun g =>
    (g.symbolsWhere Symbol.nullable).map g.name == ["S", "B"] &&
      (g.symbolsWhere Symbol.lineLike).map g.name == ["NEWLINE", "$start", "S", "A"])
    (by decide +kernel)
  rw [Bool.and_eq_true, beq_iff_eq, beq_iff_eq] at htest
  exact ⟨g, hg, htest.1, htest.2, read_flags_exact hg⟩

end Grammar

end LayoutLR
