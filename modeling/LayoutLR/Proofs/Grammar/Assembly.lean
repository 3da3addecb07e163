/-
  Layout-aware LR toolkit — how a grammar is assembled.

  The productions are entered one after the other, each under its head.  So the list of a
  symbol has the productions with this head in order, and the first of them is kept with the
  symbol.  Nothing else becomes of the symbols, but for their marks.

  * `Grammar.Lists`: the lists after some productions were entered, `Grammar.Lists.enter` what
    one more does to them;
  * `Grammar.Indexed`, `Grammar.assemble_indexed`: what can be looked up in a grammar;
  * `Grammar.getElem?_assemble`: the symbols of an assembled grammar.
-/
import LayoutLR.Grammar.Analysis

namespace LayoutLR

namespace Grammar

variable {g : Grammar} {i p s head : Nat}

/-! ## Entering productions -/

@[simp]
theorem productions_enter (g : Grammar) (i head : Nat) :
    (g.enter i head).productions = g.productions :=
  rfl

@[simp]
theorem size_enter (g : Grammar) (i head : Nat) :
    (g.enter i head).symbols.size = g.symbols.size := by
  simp [enter]

@[simp]
theorem size_byHead_enter (g : Grammar) (i head : Nat) :
    (g.enter i head).byHead.size = g.byHead.size := by
  simp [enter]

theorem productionsOf_enter (hhead : head < g.byHead.size) (i s : Nat) :
    (g.enter i head).productionsOf s =
      if s = head then g.productionsOf s ++ [i] else g.productionsOf s := by
  simp only [productionsOf, enter, Array.getElem?_modify]
  by_cases h : head = s
  · subst h
    simp [hhead]
  · simp [h, Ne.symm h]

theorem firstProduction?_enter (hhead : head < g.symbols.size) (i s : Nat) :
    (g.enter i head).firstProduction? s =
      if s = head then (g.firstProduction? s).or (some i) else g.firstProduction? s := by
  simp only [firstProduction?, enter, Array.getElem?_modify]
  by_cases h : head = s
  · subst h
    simp [hhead]
  · simp [h, Ne.symm h]

/-- The lists of productions by their heads, as far as the number `n`. -/
structure Lists (g : Grammar) (n : Nat) : Prop where
  size : g.byHead.size = g.symbols.size
  mem_iff : ∀ s p, p ∈ g.productionsOf s ↔ p < n ∧ g.productions[p]?.map Production.head = some s
  increasing : ∀ s, (g.productionsOf s).Pairwise (· < ·)
  first : ∀ s, g.firstProduction? s = (g.productionsOf s).head?

/-- The next production is entered. -/
theorem Lists.enter {n : Nat} (h : g.Lists n) (hn : g.productions[n]?.map Production.head = some head)
    (hhead : head < g.symbols.size) : (g.enter n head).Lists (n + 1) := by
  have hlists := productionsOf_enter (h.size ▸ hhead) n
  refine ⟨by simp [h.size], fun s p => ?_, fun s => ?_, fun s => ?_⟩
  · rw [hlists, productions_enter]
    by_cases hs : s = head
    · subst hs
      rw [if_pos rfl, List.mem_append, List.mem_singleton, h.mem_iff, Nat.lt_succ_iff_lt_or_eq,
        or_and_right]
      exact or_congr_right ⟨fun hp => ⟨hp, hp ▸ hn⟩, And.left⟩
    · rw [if_neg hs, h.mem_iff]
      refine ⟨fun hp => ⟨Nat.lt_succ_of_lt hp.1, hp.2⟩, fun hp => ⟨?_, hp.2⟩⟩
      refine Nat.lt_of_le_of_ne (Nat.le_of_lt_succ hp.1) ?_
      rintro rfl
      exact hs (Option.some.inj (hp.2.symm.trans hn))
  · rw [hlists]
    split
    · refine List.pairwise_append.2 ⟨h.increasing s, List.pairwise_singleton _ _, fun p hp q hq => ?_⟩
      rw [List.mem_singleton.1 hq]
      exact ((h.mem_iff s p).1 hp).1
    · exact h.increasing s
  · rw [firstProduction?_enter hhead, hlists, h.first]
    split
    · rw [List.head?_append]
      rfl
    · rfl

/-- Entering all the productions that are left completes the lists. -/
theorem Lists.enterAll {n : Nat} {ps : List Production} (h : g.Lists n)
    (hps : g.productions.toList.drop n = ps) (hheads : ∀ p ∈ ps, p.head < g.symbols.size) :
    (g.enterAll n ps).Lists (n + ps.length) := by
  induction ps generalizing g n with
  | nil => exact h
  | cons p ps ih =>
    have hn : g.productions[n]? = some p := by
      have := congrArg List.head? hps
      rwa [List.head?_drop, Array.getElem?_toList] at this
    have hrest : g.productions.toList.drop (n + 1) = ps := by
      have := congrArg List.tail hps
      rwa [List.tail_drop] at this
    have hhead : g.productions[n]?.map Production.head = some p.head := by
      rw [hn]
      rfl
    have hstep := h.enter hhead (hheads p (by simp))
    have hall := ih hstep (by simpa using hrest) fun q hq => by
      rw [size_enter]
      exact hheads q (by simp [hq])
    rwa [List.length_cons, show n + (ps.length + 1) = n + 1 + ps.length by omega]

@[simp]
theorem productions_enterAll (ps : List Production) (g : Grammar) (i : Nat) :
    (g.enterAll i ps).productions = g.productions := by
  induction ps generalizing g i with
  | nil => rfl
  | cons p ps ih => exact ih _ _

/-- Entering productions changes nothing of the symbols but their first productions. -/
theorem symbols_enterAll (ps : List Production) (g : Grammar) (i s : Nat) :
    (g.enterAll i ps).symbols[s]? = g.symbols[s]?.map fun symbol =>
      { symbol with firstProduction := (g.enterAll i ps).firstProduction? s } := by
  induction ps generalizing g i with
  | nil =>
    rw [enterAll, firstProduction?]
    cases g.symbols[s]? <;> rfl
  | cons p ps ih =>
    rw [enterAll, ih]
    simp only [enter, Array.getElem?_modify]
    split
    · rw [Option.map_map]
      rfl
    · rfl

/-! ## Grammars that are assembled -/

/-- What can be looked up in a grammar: symbols have their places as numbers, and each has the
    list of its productions in order; there is a production number 0. -/
structure Indexed (g : Grammar) : Prop where
  productions_pos : 0 < g.productions.size
  num : ∀ i (s : Symbol), g.symbols[i]? = some s → s.num = i
  mem_iff : ∀ s p, p ∈ g.productionsOf s ↔ p < g.productions.size ∧ g.head p = s
  increasing : ∀ s, (g.productionsOf s).Pairwise (· < ·)
  first : ∀ s, g.firstProduction? s = (g.productionsOf s).head?

theorem Indexed.mem_productionsOf (h : g.Indexed) :
    p ∈ g.productionsOf s ↔ p < g.productions.size ∧ g.head p = s :=
  h.mem_iff s p

theorem getElem?_markSymbols (g : Grammar) (s : Nat) :
    g.markSymbols.symbols[s]? = g.symbols[s]?.map fun symbol =>
      { symbol with
        nullable := g.nullableSymbols.contains s, lineLike := g.lineLikeSymbols.contains s } := by
  rw [markSymbols, Array.getElem?_mapIdx]

@[simp]
theorem productions_markSymbols (g : Grammar) : g.markSymbols.productions = g.productions :=
  rfl

theorem firstProduction?_markSymbols (g : Grammar) (s : Nat) :
    g.markSymbols.firstProduction? s = g.firstProduction? s := by
  rw [firstProduction?, getElem?_markSymbols, firstProduction?]
  cases g.symbols[s]? <;> rfl

/-- Marking symbols does not change the lists. -/
theorem Lists.markSymbols {n : Nat} (h : g.Lists n) : g.markSymbols.Lists n where
  size := by
    have hsize : g.markSymbols.symbols.size = g.symbols.size := Array.size_mapIdx
    exact h.size.trans hsize.symm
  mem_iff := h.mem_iff
  increasing := h.increasing
  first s := (g.firstProduction?_markSymbols s).trans (h.first s)

section

variable {symbols : Array Symbol} {productions : Array Production}

@[simp]
theorem productions_assemble (symbols : Array Symbol) (productions : Array Production) :
    (assemble symbols productions).productions = productions := by
  simp [assemble]

/-- The lists of an assembled grammar have all its productions. -/
theorem assemble_lists (hfirst : ∀ s ∈ symbols, s.firstProduction = none)
    (hheads : ∀ p ∈ productions, p.head < symbols.size) :
    (assemble symbols productions).Lists productions.size := by
  have hnil (s : Nat) : (⟨symbols, productions, .replicate symbols.size []⟩ : Grammar).productionsOf
      s = [] := by
    rw [productionsOf, Array.getElem?_replicate]
    split <;> rfl
  have hbare : (⟨symbols, productions, .replicate symbols.size []⟩ : Grammar).Lists 0 := by
    refine ⟨by simp, fun s p => by simp [hnil], fun s => by simp [hnil], fun s => ?_⟩
    rw [hnil, firstProduction?]
    cases hs : symbols[s]? with
    | none => rfl
    | some symbol => exact hfirst symbol (Array.mem_of_getElem? hs)
  have hall := hbare.enterAll (List.drop_zero (l := productions.toList)) fun p hp =>
    hheads p (by simpa using hp)
  rw [Nat.zero_add, Array.length_toList] at hall
  exact hall.markSymbols

/-- The symbols of an assembled grammar are those it is assembled of, with what is found out
    about them. -/
theorem getElem?_assemble (symbols : Array Symbol) (productions : Array Production) (s : Nat) :
    (assemble symbols productions).symbols[s]? = symbols[s]?.map fun symbol =>
      { symbol with
        firstProduction := (assemble symbols productions).firstProduction? s
        nullable := (assemble symbols productions).isNullable s
        lineLike := (assemble symbols productions).isLineLike s } := by
  have hsymbols : (assemble symbols productions).symbols[s]? = _ :=
    (getElem?_markSymbols _ s).trans (congrArg (Option.map _) (symbols_enterAll _ _ _ s))
  rw [firstProduction?, isNullable, isLineLike, hsymbols]
  cases symbols[s]? <;> rfl

/-- **An assembled grammar has its productions under their heads**, if its symbols have their
    places as numbers. -/
theorem assemble_indexed (hnum : ∀ i (s : Symbol), symbols[i]? = some s → s.num = i)
    (hfirst : ∀ s ∈ symbols, s.firstProduction = none) (hpos : 0 < productions.size)
    (hheads : ∀ p ∈ productions, p.head < symbols.size) :
    (assemble symbols productions).Indexed := by
  have hlists := assemble_lists hfirst hheads
  refine ⟨by simpa using hpos, fun i s hs => ?_, fun s p => ?_, hlists.increasing, hlists.first⟩
  · rw [getElem?_assemble, Option.map_eq_some_iff] at hs
    obtain ⟨symbol, hsymbol, rfl⟩ := hs
    exact hnum i symbol hsymbol
  · rw [hlists.mem_iff, productions_assemble, Grammar.head, productions_assemble]
    refine and_congr_right fun hp => ?_
    simp [Array.getElem?_eq_getElem hp]

end

end Grammar

end LayoutLR
