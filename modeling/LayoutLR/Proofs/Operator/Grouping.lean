/-
  Layout-aware LR toolkit — precedence declarations give the declared trees.

  The grammar that is read from declarations of operators is one of binary
  operators, with the precedences of the declarations.  So at every strength it has
  no conflicts.  Where every level groups to a side, numbers with operators between
  them are parsed to the one tree that the declarations ask for.

  * `Draft.Shows.symbol`, `Draft.Shows.production`: a grammar, from what its draft says;
  * `Declarable.binary`: the grammar that is read has the right form;
  * `declared_trees`: all of it, for all declarations.
-/
import LayoutLR.Proofs.Grammar.Numbering
import LayoutLR.Proofs.Operator.Declaration
import LayoutLR.Proofs.Operator.Parse

namespace LayoutLR

variable {d : Draft} {o : List Mention} {rs : List Production} {level first i : Nat}
  {f : Option Nat} {m : Mention} {r : Production}

/-! ## From a draft to its grammar -/

namespace Draft.Shows

theorem undefinedErrors (h : d.Shows o rs level f) (ho : ∀ m ∈ o, m.kind ≠ none) :
    d.undefinedErrors = [] := by
  rw [Draft.undefinedErrors, List.map_eq_nil_iff, List.filter_eq_nil_iff]
  intro m hm
  have : ({ m.toMention with line := 0 } : Mention) ∈ o := by
    rw [← h.symbols]
    exact List.mem_map_of_mem hm
  simpa using ho _ this

/-- A symbol keeps its name, its role and its precedence. -/
theorem symbol (h : d.Shows o rs level f) (hg : (d.toGrammar first).Renumbers d d.number)
    (hi : o[i]? = some m) : (d.toGrammar first).kind? (d.number i) = some (m.kind.getD .virtual) ∧
      (d.toGrammar first).precedenceOf (d.number i) = m.precedence ∧
      (d.toGrammar first).name (d.number i) = m.name := by
  have hlt : i < d.symbols.size := by
    rw [h.size]
    exact (List.getElem?_eq_some_iff.1 hi).1
  rw [← h.symbols, Draft.outline, List.getElem?_map, Option.map_eq_some_iff] at hi
  obtain ⟨m', hm', rfl⟩ := hi
  rw [Array.getElem?_toList] at hm'
  have hmention : d.mention i = m'.toMention := by rw [Draft.mention, hm']; rfl
  rw [Grammar.kind?, Grammar.precedenceOf, Grammar.name, hg.symbols i hlt, hmention]
  exact ⟨rfl, rfl, rfl⟩

/-- A production comes one later, with the new numbers. -/
theorem production (h : d.Shows o rs level f) (hi : rs[i]? = some r) :
    (d.toGrammar first).head (i + 1) = d.number r.head ∧
      (d.toGrammar first).body (i + 1) = r.body.map d.number ∧
      (d.toGrammar first).productions[i + 1]?.bind Production.precedence = r.precedence ∧
      ((d.toGrammar first).productions[i + 1]?.map Production.boundary) = some r.boundary := by
  rw [← h.productions, Draft.rules, List.getElem?_map, Option.map_eq_some_iff] at hi
  obtain ⟨q, hq, rfl⟩ := hi
  have hget : (d.toGrammar first).productions[i + 1]? =
      some { q with head := d.number q.head, body := q.body.map d.number } := by
    rw [Grammar.getElem?_toGrammar, Draft.allProductions, List.getElem?_cons_succ, hq]
    rfl
  rw [Grammar.head, Grammar.body, hget]
  exact ⟨rfl, rfl, rfl, rfl⟩

theorem finish (h : d.Shows o rs level (some first)) (ho : ∀ m ∈ o, m.kind ≠ none) :
    d.finish [] = .ok (d.toGrammar first) := by
  rw [Draft.finish, h.firstHead]
  dsimp only
  rw [h.undefinedErrors ho]
  rfl

end Draft.Shows

/-! ## The grammar of declarations -/

section

variable {levels : List OperatorLevel} {rules : List (List Char)} {w : List Char} {p : Nat}

/-- What is left of declarations when all is read. -/
def operatorDraft (levels : List OperatorLevel) (rules : List (List Char)) : Draft :=
  (readCode [.ofText (operatorText levels rules).toList]).draft

/-- The grammar of declarations. -/
def operatorGrammar (levels : List OperatorLevel) (rules : List (List Char)) : Grammar :=
  (operatorDraft levels rules).toGrammar (headNumber levels)

/-- The number of an operator in this grammar. -/
def operatorSymbol (levels : List OperatorLevel) (rules : List (List Char)) (w : List Char) : Nat :=
  (operatorDraft levels rules).number (operatorNumber levels w)

theorem kind_allMentions : ∀ m ∈ allMentions levels, m.kind ≠ none := by
  have hnew : ∀ m ∈ Draft.new.outline, m.kind ≠ none := by decide
  intro m hm
  simp only [allMentions, operatorMentions, List.mem_append, List.mem_map, List.mem_singleton] at hm
  rcases hm with (hm | ⟨w, -, rfl⟩) | rfl
  · exact hnew m hm
  · simp [operatorMention]
  · simp

/-- The production of an operator. -/
theorem getElem?_rule (hp : p < rules.length) :
    (rules.map (operatorRule levels) ++ [numberRule levels])[p]? =
      some (operatorRule levels (rules[p])) := by
  rw [List.getElem?_append_left (by simpa using hp)]
  simp [hp]

theorem operatorDraft_good (levels : List OperatorLevel) (rules : List (List Char)) :
    (operatorDraft levels rules).Good :=
  Draft.readCode_good _

namespace Declarable

variable (h : Declarable levels rules)
include h

theorem shows : (operatorDraft levels rules).Shows (allMentions levels)
    (rules.map (operatorRule levels) ++ [numberRule levels]) levels.length
    (some (headNumber levels)) :=
  h.readCode.2

/-- **Declarations can be read.** -/
theorem readText : Grammar.readText (operatorText levels rules) = .ok (operatorGrammar levels rules) := by
  rw [Grammar.readText, Grammar.read, h.readCode.1]
  exact h.shows.finish kind_allMentions

theorem wellFormed : (operatorGrammar levels rules).WellFormed :=
  Grammar.read_wellFormed h.readText

theorem defined : (operatorDraft levels rules).undefinedErrors = [] :=
  h.shows.undefinedErrors kind_allMentions

theorem renumbers : (operatorGrammar levels rules).Renumbers (operatorDraft levels rules)
    (operatorDraft levels rules).number :=
  toGrammar_renumbers h.wellFormed.indexed (operatorDraft_good _ _) h.defined

theorem numbered : (operatorGrammar levels rules).Numbered :=
  Grammar.numbered_of_read h.readText

theorem known : (operatorGrammar levels rules).known.toList =
    (operatorDraft levels rules).started.literals.map
      fun i => ((operatorDraft levels rules).mention i).name :=
  Grammar.known_toGrammar h.wellFormed.indexed (Draft.readCode_named _) (operatorDraft_good _ _)

theorem mem (hp : p < rules.length) : rules[p] ∈ allOperators levels :=
  h.rules.mem_iff.1 (List.getElem_mem hp)

theorem number_ge (hi : Kind.reservedBase ≤ i) (hlt : i < (operatorDraft levels rules).symbols.size) :
    Kind.reservedBase ≤ (operatorDraft levels rules).number i := by
  refine Nat.not_lt.1 fun hn => ?_
  have hsize : Kind.reservedBase ≤ (operatorDraft levels rules).symbols.size := Nat.le_trans hi hlt.le
  have := h.renumbers.inj _ (Nat.lt_of_lt_of_le hn hsize) i hlt (Draft.number_predefined _ hn)
  omega

theorem lt_size (hw : w ∈ allOperators levels) :
    operatorNumber levels w < (operatorDraft levels rules).symbols.size := by
  rw [h.shows.size]
  exact (List.getElem?_eq_some_iff.1 (getElem?_operator hw)).1

/-- What the grammar says about an operator. -/
theorem operator (hw : w ∈ allOperators levels) :
    Kind.reservedBase ≤ operatorSymbol levels rules w ∧
      (operatorGrammar levels rules).isTerminal (operatorSymbol levels rules w) = true ∧
      (operatorGrammar levels rules).precedenceOf (operatorSymbol levels rules w) =
        some (declaredFrom 0 levels w) ∧
      (operatorGrammar levels rules).name (operatorSymbol levels rules w) = String.ofList w := by
  obtain ⟨hkind, hprecedence, hname⟩ := h.shows.symbol h.renumbers (getElem?_operator hw)
  refine ⟨h.number_ge (Nat.le_add_right ..) (h.lt_size hw), ?_, hprecedence, hname⟩
  rw [Grammar.isTerminal]
  exact beq_iff_eq.2 hkind

theorem operatorSymbol_inj {w' : List Char} (hw : w ∈ allOperators levels)
    (hw' : w' ∈ allOperators levels)
    (he : operatorSymbol levels rules w = operatorSymbol levels rules w') : w = w' := by
  have hnumber := h.renumbers.inj _ (h.lt_size hw) _ (h.lt_size hw') he
  exact (List.idxOf_inj hw).1 (Nat.add_left_cancel hnumber)

/-- The production of an operator has the precedence of the operator. -/
theorem operatorRule (hp : p < rules.length) :
    (operatorGrammar levels rules).head (p + 1) =
        (operatorDraft levels rules).number (headNumber levels) ∧
      (operatorGrammar levels rules).body (p + 1) =
        [(operatorDraft levels rules).number (headNumber levels),
          operatorSymbol levels rules rules[p],
          (operatorDraft levels rules).number (headNumber levels)] ∧
      (operatorGrammar levels rules).productions[p + 1]?.bind Production.precedence =
        some (declaredFrom 0 levels rules[p]) ∧
      (operatorGrammar levels rules).productions[p + 1]?.map Production.boundary =
        some .anywhere := by
  obtain ⟨hhead, hbody, hprecedence, hboundary⟩ := h.shows.production (getElem?_rule hp)
  refine ⟨hhead, hbody, hprecedence.trans ?_, hboundary⟩
  simp [LayoutLR.operatorRule, plainRule, bodyPrecedence, getElem?_head,
    getElem?_operator (h.mem hp), operatorMention]

theorem numberRule : (operatorGrammar levels rules).head (rules.length + 1) =
      (operatorDraft levels rules).number (headNumber levels) ∧
    (operatorGrammar levels rules).body (rules.length + 1) = [Kind.number.num] ∧
    (operatorGrammar levels rules).productions[rules.length + 1]?.map Production.boundary =
      some .anywhere := by
  have hlast : (rules.map (LayoutLR.operatorRule levels) ++ [LayoutLR.numberRule levels])[rules.length]? =
      some (LayoutLR.numberRule levels) := by
    rw [List.getElem?_append_right (by simp)]
    simp
  obtain ⟨hhead, hbody, -, hboundary⟩ := h.shows.production hlast
  refine ⟨hhead, hbody.trans ?_, hboundary⟩
  simp [LayoutLR.numberRule, plainRule,
    Draft.number_predefined (operatorDraft levels rules) (i := Kind.number.num) (by decide)]

theorem size : (operatorGrammar levels rules).productions.size = rules.length + 2 := by
  have hrules : (operatorDraft levels rules).productions.size = rules.length + 1 := by
    have := congrArg List.length h.shows.productions
    simpa [Draft.rules] using this
  rw [operatorGrammar, Draft.toGrammar_eq, Grammar.productions_assemble]
  simp [Draft.allProductions, hrules]

theorem boundary (p : Nat) : ((operatorGrammar levels rules).reductionBy p).newlineOnly = false := by
  have hplain (hb : (operatorGrammar levels rules).productions[p]?.map Production.boundary =
      some .anywhere) : ((operatorGrammar levels rules).reductionBy p).newlineOnly = false := by
    obtain ⟨q, hq, hb⟩ := Option.map_eq_some_iff.1 hb
    simp [Grammar.reductionBy, hq, hb]
  cases p with
  | zero => exact hplain (by rw [operatorGrammar, Grammar.getElem?_toGrammar]; rfl)
  | succ p =>
    rcases Nat.lt_trichotomy p rules.length with hp | rfl | hp
    · exact hplain (h.operatorRule hp).2.2.2
    · exact hplain h.numberRule.2.2
    · have : (operatorGrammar levels rules).productions[p + 1]? = none := by
        rw [Array.getElem?_eq_none_iff, h.size]
        omega
      simp [Grammar.reductionBy, this]

/-- **The grammar of declarations is one of binary operators.** -/
theorem binary : (operatorGrammar levels rules).Binary
    ((operatorDraft levels rules).number (headNumber levels)) rules.length
    fun p => operatorSymbol levels rules (rules[p]?.getD []) := by
  have hget {p : Nat} (hp : p < rules.length) : rules[p]?.getD [] = rules[p] := by simp [hp]
  have hhead := h.shows.symbol h.renumbers (getElem?_head levels)
  have hlt : headNumber levels < (operatorDraft levels rules).symbols.size := by
    rw [h.shows.size]
    exact (List.getElem?_eq_some_iff.1 (getElem?_head levels)).1
  refine ⟨h.wellFormed.indexed, h.size, ?_, ?_, fun p hp => ?_, ?_, ?_, h.wellFormed.predefined,
    fun p hp => ?_, fun p hp q hq he => ?_, fun p hp => ?_, h.boundary⟩
  · have hbody : (operatorGrammar levels rules).body 0 =
        [(operatorDraft levels rules).number (headNumber levels),
          (operatorDraft levels rules).number Kind.eof.num] := by
      rw [operatorGrammar, Grammar.body, Grammar.getElem?_toGrammar]
      rfl
    have heof : (operatorDraft levels rules).number Kind.eof.num = Kind.eof.num :=
      Draft.number_predefined _ (by decide)
    rw [hbody, heof]
  · exact (h.renumbers.ne_start _ hlt).symm
  · rw [hget hp]
    exact ⟨(h.operatorRule hp).1, (h.operatorRule hp).2.1⟩
  · exact ⟨h.numberRule.1, h.numberRule.2.1⟩
  · rw [Grammar.isNonterminal]
    exact beq_iff_eq.2 hhead.1
  · rw [hget hp]
    exact ⟨(h.operator (h.mem hp)).1, (h.operator (h.mem hp)).2.1⟩
  · rw [hget hp, hget hq] at he
    have hnodup : rules.Nodup := h.rules.nodup_iff.2 h.distinct
    exact hnodup.getElem_inj_iff.1 (h.operatorSymbol_inj (h.mem hp) (h.mem hq) he)
  · rw [hget hp]
    exact ⟨_, (h.operator (h.mem hp)).2.2.1, (h.operatorRule hp).2.2.1⟩

/-- The literals are the operators. -/
theorem mem_literals {j : Nat} : j ∈ (operatorDraft levels rules).started.literals ↔
    ∃ w ∈ allOperators levels, operatorNumber levels w = j := by
  rw [Draft.mem_literals_started (operatorDraft_good levels rules).counted]
  constructor
  · rintro ⟨hbase, hsize, hkind⟩
    obtain ⟨k, rfl⟩ := Nat.exists_eq_add_of_le hbase
    have hsplit : (allMentions levels)[Kind.reservedBase + k]? =
        (((allOperators levels).map fun w => operatorMention (declaredFrom 0 levels w) w) ++
          [⟨String.ofList expressionName, some .nonterminal, none, none, 0⟩])[k]? := by
      have hnew : Draft.new.outline.length = Kind.reservedBase := rfl
      rw [allMentions, operatorMentions, List.append_assoc,
        List.getElem?_append_right (hnew.symm ▸ Nat.le_add_right ..), hnew, Nat.add_sub_cancel_left]
    rw [h.shows.size] at hsize
    have hm := List.getElem?_eq_getElem hsize
    obtain ⟨-, hkind', -⟩ := h.shows.find? h.nodup hm
    rw [Draft.kindOf, hkind'] at hkind
    rw [hsplit] at hm
    rcases Nat.lt_or_ge k (allOperators levels).length with hk | hk
    · refine ⟨(allOperators levels)[k], List.getElem_mem hk, ?_⟩
      rw [operatorNumber, h.distinct.idxOf_getElem k hk]
    · -- behind the operators there is only the head
      rw [List.getElem?_append_right (by simpa using hk)] at hm
      have := List.mem_singleton.1 (List.mem_of_getElem? hm)
      rw [this] at hkind
      cases hkind
  · rintro ⟨w, hw, rfl⟩
    obtain ⟨-, hkind, -⟩ := h.shows.find? h.nodup (getElem?_operator hw)
    exact ⟨Nat.le_add_right .., h.lt_size hw, hkind⟩

theorem name_operator (hw : w ∈ allOperators levels) :
    ((operatorDraft levels rules).mention (operatorNumber levels w)).name = String.ofList w :=
  Draft.find?_name (h.shows.find? h.nodup (getElem?_operator hw)).1

/-- A known text is an operator, and has the number of its kind of token. -/
theorem exists_operator {i : Nat} (hi : i < (operatorGrammar levels rules).known.size) :
    ∃ w ∈ allOperators levels, operatorSymbol levels rules w = (Kind.reserved i).num := by
  have hlt : i < (operatorDraft levels rules).started.literals.length := by
    rw [← Array.length_toList, h.known, List.length_map] at hi
    exact hi
  have hget := List.getElem?_eq_getElem hlt
  obtain ⟨w, hw, hnumber⟩ := h.mem_literals.1 (List.mem_of_getElem? hget)
  refine ⟨w, hw, ?_⟩
  rw [operatorSymbol, hnumber, (operatorDraft_good _ _).number_literal h.defined hget]
  rfl

/-- The known texts are the operators. -/
theorem known_perm :
    (operatorGrammar levels rules).known.toList.Perm ((allOperators levels).map String.ofList) := by
  have hascending := h.numbered.ascending
  refine (List.perm_ext_iff_of_nodup ?_ ?_).2 fun name => ?_
  · refine hascending.imp fun {a b} hlt => ?_
    rintro rfl
    have hself : compare (Text.bytes a.toList) (Text.bytes a.toList) = .eq := Std.ReflCmp.compare_self
    rw [hself] at hlt
    cases hlt
  · exact h.distinct.map fun _ _ he => String.ofList_injective he
  · rw [h.known, List.mem_map, List.mem_map]
    constructor
    · rintro ⟨j, hj, rfl⟩
      obtain ⟨w, hw, rfl⟩ := h.mem_literals.1 hj
      exact ⟨w, hw, (h.name_operator hw).symm⟩
    · rintro ⟨w, hw, rfl⟩
      exact ⟨_, h.mem_literals.2 ⟨w, hw, rfl⟩, h.name_operator hw⟩

end Declarable

/-! ## Precedences by token -/

theorem level_declaredFrom (k : Nat) (w : List Char) : k < (declaredFrom k levels w).level := by
  induction levels generalizing k with
  | nil => exact Nat.lt_succ_self k
  | cons l levels ih =>
    unfold declaredFrom
    split
    · exact Nat.lt_succ_self k
    · exact Nat.lt_of_succ_lt (ih (k + 1))

/-- Operators of the same level group to the same side. -/
theorem assoc_declaredFrom (k : Nat) {w w' : List Char}
    (h : (declaredFrom k levels w).level = (declaredFrom k levels w').level) :
    (declaredFrom k levels w).assoc = (declaredFrom k levels w').assoc := by
  induction levels generalizing k with
  | nil => rfl
  | cons l levels ih =>
    have hlt (w : List Char) : k + 1 < (declaredFrom (k + 1) levels w).level :=
      level_declaredFrom (k + 1) w
    unfold declaredFrom at h ⊢
    split
    · rename_i hw
      rw [if_pos hw] at h
      split
      · rfl
      · rename_i hw'
        rw [if_neg hw'] at h
        exact absurd h (Nat.ne_of_lt (hlt w'))
    · rename_i hw
      rw [if_neg hw] at h
      split
      · rename_i hw'
        rw [if_pos hw'] at h
        exact absurd h (Nat.ne_of_gt (hlt w))
      · rename_i hw'
        rw [if_neg hw'] at h
        exact ih (k + 1) h

theorem sided_declaredFrom (hsided : ∀ l ∈ levels, l.assoc ≠ .non) (k : Nat) (w : List Char) :
    (declaredFrom k levels w).assoc = .left ∨ (declaredFrom k levels w).assoc = .right := by
  induction levels generalizing k with
  | nil => exact Or.inl rfl
  | cons l levels ih =>
    unfold declaredFrom
    split
    · cases hl : l.assoc with
      | left => exact Or.inl rfl
      | right => exact Or.inr rfl
      | non => exact absurd hl (hsided l List.mem_cons_self)
    · exact ih (fun l hl => hsided l (List.mem_cons_of_mem _ hl)) (k + 1)

/-- The text of an operator as a token of a grammar. -/
def operatorOf (g : Grammar) (t : Token) : List Char :=
  (g.name t.kind.num).toList

/-- The declared precedences of tokens, if all levels group to a side. -/
def declaredPrecedences (g : Grammar) (levels : List OperatorLevel)
    (hsided : ∀ l ∈ levels, l.assoc ≠ .non) : Precedences where
  of t := declaredFrom 0 levels (operatorOf g t)
  same _ _ := assoc_declaredFrom 0
  sided _ := sided_declaredFrom hsided 0 _

/-- The parse tree of an expression: productions are numbered in the order of `rules`. -/
def declaredTree (g : Grammar) (rules : List (List Char)) (e : Expression) : Tree :=
  e.tree (fun t => rules.idxOf (operatorOf g t)) rules.length

/-- A known text is an operator of the grammar. -/
theorem Declarable.operator_token (h : Declarable levels rules)
    (hsided : ∀ l ∈ levels, l.assoc ≠ .non) {t : Token}
    (ht : ∃ i < (operatorGrammar levels rules).known.size, t.kind = .reserved i) :
    (operatorGrammar levels rules).Operator rules.length
      (fun p => operatorSymbol levels rules (rules[p]?.getD []))
      (declaredPrecedences (operatorGrammar levels rules) levels hsided)
      (fun t => rules.idxOf (operatorOf (operatorGrammar levels rules) t)) t := by
  obtain ⟨i, hi, hk⟩ := ht
  obtain ⟨w, hw, hsymbol⟩ := h.exists_operator hi
  have hname : operatorOf (operatorGrammar levels rules) t = w := by
    rw [operatorOf, hk, ← hsymbol, (h.operator hw).2.2.2, String.toList_ofList]
  have hlt : rules.idxOf w < rules.length := List.idxOf_lt_length_of_mem (h.rules.mem_iff.2 hw)
  refine ⟨by rw [hname]; exact hlt, ?_, ?_⟩
  · rw [hname, hk, ← hsymbol]
    simp [hlt]
  · rw [hk, ← hsymbol, (h.operator hw).2.2.1]
    exact congrArg (fun w => some (declaredFrom 0 levels w)) hname.symm

end

/-- **Precedence declarations give the declared trees**, if all levels are `LEFT` or `RIGHT`. -/
theorem declared_trees {levels : List OperatorLevel} {rules : List (List Char)}
    (hsided : ∀ l ∈ levels, l.assoc ≠ .non) (h : Declarable levels rules) :
    ∃ g, Grammar.readText (operatorText levels rules) = .ok g ∧
      g.known.toList.Perm ((allOperators levels).map String.ofList) ∧
      (∀ strength, (Automaton.build g strength).conflicts = []) ∧
      ∀ (first : Token) (rest : List (Token × Token)), first.kind = .number →
        (∀ x ∈ rest, (∃ i < g.known.size, x.1.kind = .reserved i) ∧ x.2.kind = .number) →
        ∃ e : Expression, (e.tokens = Expression.sequence first rest ∧
            e.Grouped (declaredPrecedences g levels hsided)) ∧
          (∀ e' : Expression, e'.tokens = Expression.sequence first rest →
            e'.Grouped (declaredPrecedences g levels hsided) → e' = e) ∧
          ∀ (strength : Strength) (σ V : Type) (acts : Actions σ V) (memory : σ) (input : Input)
            (budget : Nat), input.tokens = Expression.sequence first rest →
            (declaredTree g rules e).count < budget →
            ∃ last, parse (Automaton.build g strength).table acts memory input budget =
                ⟨.finished (some ((declaredTree g rules e).fold acts memory).1), last⟩ ∧
              ∀ n ∈ last.notes, n.isError = false := by
  refine ⟨_, h.readText, h.known_perm, Automaton.conflicts_eq_nil h.binary, ?_⟩
  intro first rest hfirst hrest
  have hfits {e : Expression} (he : e.tokens = Expression.sequence first rest) :=
    Expression.fits_of_tokens he hfirst fun x hx =>
      ⟨h.operator_token hsided (hrest x hx).1, (hrest x hx).2⟩
  obtain ⟨e, htokens, hgrouped⟩ := Expression.exists_grouped
    (declaredPrecedences (operatorGrammar levels rules) levels hsided) first rest
  refine ⟨e, ⟨htokens, hgrouped⟩, fun e' htokens' hgrouped' => ?_, ?_⟩
  · refine hgrouped'.unique (fun o ho => ?_) hgrouped (hfits htokens') (hfits htokens)
      (htokens'.trans htokens.symm)
    obtain ⟨i, hi⟩ := ho.reserved h.binary
    simp [hi]
  · intro strength σ V acts memory input budget hinput hbudget
    exact h.binary.parse strength (hfits htokens) hgrouped (hinput.trans htokens.symm) acts memory
      hbudget

/-- Differences group to the left, and powers below them to the right. -/
def differencesOfPowers : List OperatorLevel :=
  [⟨.left, [['-']]⟩, ⟨.right, [['^']]⟩]

/-- A token that stands nowhere. -/
def loneToken (kind : Kind) : Token :=
  .synthetic kind 0 0

/-- Two differences, then two powers. -/
def powersSubtracted : Expression :=
  let n := .number (loneToken .number)
  .binary (loneToken (.reserved 0)) (.binary (loneToken (.reserved 0)) n n)
    (.binary (loneToken (.reserved 1)) n (.binary (loneToken (.reserved 1)) n n))

theorem declared_trees_powersSubtracted :
    ∃ g, Grammar.readText (operatorText differencesOfPowers [['-'], ['^']]) = .ok g ∧
      g.known = #["-", "^"] ∧ (∀ strength, (Automaton.build g strength).conflicts = []) ∧
      ∀ (strength : Strength) (line col : Nat), ∃ last,
        parse (Automaton.build g strength).table treeActions {} ⟨powersSubtracted.tokens, line, col⟩
            20 = ⟨.finished (some (declaredTree g [['-'], ['^']] powersSubtracted)), last⟩ ∧
          ∀ n ∈ last.notes, n.isError = false := by
  have h : Declarable differencesOfPowers [['-'], ['^']] :=
    ⟨by decide, by decide, by decide, by decide, by decide, by decide⟩
  have hsided : ∀ l ∈ differencesOfPowers, l.assoc ≠ .non := by decide
  obtain ⟨g, hread, hperm, hconf, htrees⟩ := declared_trees hsided h
  have hnumbered := Grammar.numbered_of_read hread
  have hknown : g.known.toList = ["-", "^"] := by
    refine List.Perm.eq_of_pairwise (fun a b _ _ hab hba => ?_) hnumbered.ascending (by decide) hperm
    have hswap : compare (Text.bytes b.toList) (Text.bytes a.toList) =
        (compare (Text.bytes a.toList) (Text.bytes b.toList)).swap := Std.OrientedCmp.eq_swap
    rw [hswap, hab] at hba
    cases hba
  have hknown : g.known = #["-", "^"] := Array.toList_inj.1 hknown
  have hminus : operatorOf g (loneToken (.reserved 0)) = ['-'] := by
    have := hnumbered.reserved 0 (by simp [hknown])
    rw [hknown] at this
    exact congrArg String.toList (Option.some.inj this).symm
  have hpower : operatorOf g (loneToken (.reserved 1)) = ['^'] := by
    have := hnumbered.reserved 1 (by simp [hknown])
    rw [hknown] at this
    exact congrArg String.toList (Option.some.inj this).symm
  have hlow : (declaredPrecedences g differencesOfPowers hsided).of (loneToken (.reserved 0)) =
      ⟨1, .left⟩ := congrArg (declaredFrom 0 differencesOfPowers) hminus
  have hhigh : (declaredPrecedences g differencesOfPowers hsided).of (loneToken (.reserved 1)) =
      ⟨2, .right⟩ := congrArg (declaredFrom 0 differencesOfPowers) hpower
  have hgrouped : powersSubtracted.Grouped (declaredPrecedences g differencesOfPowers hsided) := by
    have hn := Expression.Grouped.number (p := declaredPrecedences g differencesOfPowers hsided)
      (loneToken .number)
    refine .binary (.binary hn hn ?_ ?_) (.binary hn (.binary hn hn ?_ ?_) ?_ ?_) ?_ ?_ <;>
      simp [Expression.operator?, Expression.Below, hlow, hhigh]
  refine ⟨g, hread, hknown, hconf, fun strength line col => ?_⟩
  obtain ⟨e, -, hunique, hparse⟩ := htrees (loneToken .number)
    [(loneToken (.reserved 0), loneToken .number), (loneToken (.reserved 0), loneToken .number),
      (loneToken (.reserved 1), loneToken .number), (loneToken (.reserved 1), loneToken .number)]
    rfl (by simp [hknown, loneToken, Token.synthetic])
  obtain rfl := hunique powersSubtracted rfl hgrouped
  obtain ⟨last, hlast, hquiet⟩ := hparse strength TreeMemory Tree treeActions {}
    ⟨powersSubtracted.tokens, line, col⟩ 20 rfl
    (by simp [declaredTree, powersSubtracted, Expression.tree, Tree.count, Tree.countAll])
  rw [declaredTree, Expression.fold_tree] at hlast
  exact ⟨last, hlast, hquiet⟩

end LayoutLR
