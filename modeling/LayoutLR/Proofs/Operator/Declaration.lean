/-
  Layout-aware LR toolkit — declaring binary operators.

  Lines that declare levels of operators, then a production for each operator and
  one for numbers: such a text can be read.  The operators have the levels of their
  lines, counted from one, and the productions have the precedences of their
  operators.

  * `OperatorLevel`, `operatorText`: the levels, and the text that declares them;
  * `Declarable`: which operators can be declared;
  * `declaredFrom`: the precedence of an operator;
  * `Declarable.readCode`: what the statements leave in a draft.
-/
import LayoutLR.Proofs.Grammar.Reading
import LayoutLR.Proofs.Grammar.Words
import LayoutLR.Proofs.Operator.Expression

namespace LayoutLR

open Scanner

/-- Operators of one level, and how they associate. -/
structure OperatorLevel where
  assoc : Assoc
  operators : List (List Char)

/-- The head of all productions. -/
def expressionName : List Char :=
  ['E']

namespace OperatorLevel

/-- The line that declares a level. -/
def line (l : OperatorLevel) : List Char :=
  '$' :: ' ' :: (l.assoc.keyword.toList ++ l.operators.flatMap fun w => ' ' :: quoted w)

/-- The tokens of this line. -/
def tokens (l : OperatorLevel) : List (Kind × List Char) :=
  (.dollar, ['$']) :: (.word, l.assoc.keyword.toList) ::
    (l.operators.map quoted).map fun w => (.string, w)

end OperatorLevel

/-- The line with the production of an operator. -/
def operatorLine (w : List Char) : List Char :=
  expressionName ++ [' ', '-', '>', ' '] ++ expressionName ++ ' ' :: quoted w ++
    ' ' :: expressionName

/-- The tokens of this line. -/
def operatorTokens (w : List Char) : List (Kind × List Char) :=
  [(.word, expressionName), (.arrow, ['-', '>']), (.word, expressionName), (.string, quoted w),
    (.word, expressionName)]

/-- The line with the production of numbers. -/
def numberLine : List Char :=
  expressionName ++ [' ', '-', '>', ' '] ++ ['N', 'U', 'M', 'B', 'E', 'R']

/-- The tokens of this line. -/
def numberTokens : List (Kind × List Char) :=
  [(.word, expressionName), (.arrow, ['-', '>']), (.word, ['N', 'U', 'M', 'B', 'E', 'R'])]

/-- Levels of operators, then a production for each operator and one for numbers. -/
def operatorText (levels : List OperatorLevel) (rules : List (List Char)) : String :=
  String.ofList ((levels.map OperatorLevel.line ++ rules.map operatorLine ++ [numberLine]).flatMap
    fun line => line ++ ['\n'])

/-- The operators from the lowest level to the highest. -/
def allOperators (levels : List OperatorLevel) : List (List Char) :=
  levels.flatMap OperatorLevel.operators

/-- The precedence of an operator, `k` levels having been declared before. -/
def declaredFrom (k : Nat) : List OperatorLevel → List Char → Precedence
  | [], _ => ⟨k + 1, .left⟩
  | l :: levels, w => if w ∈ l.operators then ⟨k + 1, l.assoc⟩ else declaredFrom (k + 1) levels w

/-- Operators that can be declared, and the order of their productions. -/
structure Declarable (levels : List OperatorLevel) (rules : List (List Char)) : Prop where
  nonempty : levels ≠ []
  lines : ∀ l ∈ levels, l.operators ≠ []
  distinct : (allOperators levels).Nodup
  /-- There is no quote, no backslash and no line break in an operator. -/
  plain : ∀ w ∈ allOperators levels, '\x27' ∉ w ∧ '\\' ∉ w ∧ '\n' ∉ w
  /-- No operator has the name of another symbol. -/
  fresh : ∀ w ∈ allOperators levels,
    String.ofList w ∉ Kind.predefined.filterMap Kind.name? ∧ w ≠ expressionName
  rules : rules.Perm (allOperators levels)

/-! ## Tokens -/

section

variable {first : Bool} {cs rest w : List Char} {c d : Char} {toks : List (Kind × List Char)}

theorem lexes_dollar (h : Lexes grammarConfig false (' ' :: cs) toks rest) :
    Lexes grammarConfig first ('$' :: ' ' :: cs) ((.dollar, ['$']) :: toks) rest := by
  refine h.adjacent [] (by decide) ?_ rfl
  refine lexeme_mark (by decide) (by decide) (by decide) (by simp [comment?]) (by decide) ?_
    (by decide +kernel)
  rw [List.nil_append, markRun]
  simp [show grammarConfig.isMark ' ' = false by decide]

theorem lexes_keyword (assoc : Assoc) (h : Lexes grammarConfig false (' ' :: cs) toks rest) :
    Lexes grammarConfig false (' ' :: (assoc.keyword.toList ++ ' ' :: cs))
      ((.word, assoc.keyword.toList) :: toks) rest := by
  cases assoc with
  | left =>
    exact lexes_word (w := ['E', 'F', 'T']) (by decide) (by decide) (by decide)
      (List.all_eq_true.1 (by decide)) (by decide) (by decide +kernel) h
  | right =>
    exact lexes_word (w := ['I', 'G', 'H', 'T']) (by decide) (by decide) (by decide)
      (List.all_eq_true.1 (by decide)) (by decide) (by decide +kernel) h
  | non =>
    exact lexes_word (w := ['O', 'N']) (by decide) (by decide) (by decide)
      (List.all_eq_true.1 (by decide)) (by decide) (by decide +kernel) h

theorem lexes_head (h : Lexes grammarConfig false (' ' :: cs) toks rest) :
    Lexes grammarConfig first (expressionName ++ ' ' :: cs) ((.word, expressionName) :: toks) rest := by
  refine h.adjacent [] (by decide) ?_ rfl
  exact lexeme_word (by decide) (by decide) (by simp) (by decide) (by decide +kernel)

theorem lexes_strings {ws : List (List Char)}
    (hplain : ∀ w ∈ ws, '\x27' ∉ w ∧ '\\' ∉ w ∧ '\n' ∉ w)
    (h : Lexes grammarConfig false cs toks rest) :
    Lexes grammarConfig false ((ws.flatMap fun w => ' ' :: quoted w) ++ cs)
      ((ws.map quoted).map (fun w => (.string, w)) ++ toks) rest := by
  induction ws with
  | nil => exact h
  | cons w ws ih =>
    obtain ⟨hquote, hslash, hbreak⟩ := hplain w List.mem_cons_self
    rw [List.flatMap_cons, List.append_assoc, List.cons_append]
    exact lexes_string hquote hslash hbreak (ih fun w hw => hplain w (List.mem_cons_of_mem _ hw))

end

/-! ## Lines -/

section

variable {l : OperatorLevel} {w : List Char}

theorem cutsLine_level (hplain : ∀ w ∈ l.operators, '\x27' ∉ w ∧ '\\' ∉ w ∧ '\n' ∉ w)
    (hne : l.operators ≠ []) : CutsLine grammarConfig l.line l.tokens := by
  refine ⟨⟨_, _, rfl, by decide, fun rest => by simp [comment?]⟩, fun rest => ?_, by
    simp [OperatorLevel.tokens]⟩
  have hstrings := lexes_strings hplain (.done false ('\n' :: rest))
  rw [List.append_nil] at hstrings
  -- a blank comes behind the keyword
  obtain ⟨w, ws, hws⟩ := List.exists_cons_of_ne_nil hne
  rw [OperatorLevel.line, OperatorLevel.tokens, List.cons_append, List.cons_append, List.append_assoc]
  refine lexes_dollar ?_
  rw [hws] at hstrings ⊢
  exact lexes_keyword l.assoc hstrings

theorem cutsLine_operator (hplain : '\x27' ∉ w ∧ '\\' ∉ w ∧ '\n' ∉ w) :
    CutsLine grammarConfig (operatorLine w) (operatorTokens w) := by
  refine ⟨⟨_, _, rfl, by decide, fun rest => by simp [comment?]⟩, fun rest => ?_, by
    simp [operatorTokens]⟩
  obtain ⟨hquote, hslash, hbreak⟩ := hplain
  have hlast : Lexes grammarConfig false (' ' :: 'E' :: ([] ++ '\n' :: rest))
      [(.word, expressionName)] ('\n' :: rest) :=
    lexes_word (by decide) (by decide) (by decide) (by simp) (by decide) (by decide +kernel)
      (.done false _)
  have hmiddle := lexes_word (d := ' ') (c := 'E') (w := []) (by decide) (by decide) (by decide)
    (by simp) (by decide) (by decide +kernel) (lexes_string hquote hslash hbreak hlast)
  have : Lexes grammarConfig true _ _ _ := lexes_head (lexes_arrow (by decide) hmiddle)
  simpa [operatorLine, operatorTokens, expressionName] using this

theorem cutsLine_number : CutsLine grammarConfig numberLine numberTokens := by
  refine ⟨⟨_, _, rfl, by decide, fun rest => by simp [comment?]⟩, fun rest => ?_, by
    simp [numberTokens]⟩
  have hlast : Lexes grammarConfig false
      (' ' :: 'N' :: (['U', 'M', 'B', 'E', 'R'] ++ '\n' :: rest))
      [(.word, ['N', 'U', 'M', 'B', 'E', 'R'])] ('\n' :: rest) :=
    lexes_word (by decide) (by decide) (by decide) (List.all_eq_true.1 (by decide)) (by decide)
      (by decide +kernel) (.done false _)
  exact lexes_head (lexes_arrow (by decide) hlast)

end

/-- All lines, with their tokens. -/
theorem Declarable.hands {levels : List OperatorLevel} {rules : List (List Char)}
    (h : Declarable levels rules) {l : OperatorLevel} {ls : List OperatorLevel}
    (hl : levels = l :: ls) :
    (Scanner.ofText grammarConfig (operatorText levels rules).toList).Hands
      (l.tokens ++ ((ls.map OperatorLevel.tokens ++ rules.map operatorTokens ++
        [numberTokens]).flatMap fun toks => breakToken :: toks) ++ [(.eof, [])]) := by
  have hlevel : ∀ l ∈ levels, CutsLine grammarConfig l.line l.tokens := fun l hl =>
    cutsLine_level (fun w hw => h.plain w (List.mem_flatMap.2 ⟨l, hl, hw⟩)) (h.lines l hl)
  have hrule : ∀ w ∈ rules, CutsLine grammarConfig (operatorLine w) (operatorTokens w) :=
    fun w hw => cutsLine_operator (h.plain w (h.rules.mem_iff.1 hw))
  subst hl
  have hlines : ∀ x ∈ ls.map (fun l => (l.line, l.tokens)) ++
      rules.map (fun w => (operatorLine w, operatorTokens w)) ++ [(numberLine, numberTokens)],
      CutsLine grammarConfig x.1 x.2 := by
    intro x hx
    simp only [List.mem_append, List.mem_map, List.mem_singleton] at hx
    rcases hx with (⟨l, hl, rfl⟩ | ⟨w, hw, rfl⟩) | rfl
    · exact hlevel l (List.mem_cons_of_mem _ hl)
    · exact hrule w hw
    · exact cutsLine_number
  have := ofText_flat (hlevel l List.mem_cons_self) hlines rfl
  simpa [operatorText, List.flatMap_append, List.flatMap_map, String.toList_ofList] using this

/-! ## Statements -/

section

variable {levels : List OperatorLevel} {rules : List (List Char)} {o : List Mention}
  {rs : List Production} {k : Nat} {f : Option Nat} {w : List Char}

/-- An operator as a symbol of a draft. -/
def operatorMention (p : Precedence) (w : List Char) : Mention :=
  ⟨String.ofList w, some .terminal, some p, none, 0⟩

theorem level_reads {l : OperatorLevel} (hne : l.operators ≠ [])
    (hn : (o.map Mention.name ++ l.operators.map String.ofList).Nodup) :
    Reads l.tokens (fun d => d.Shows o rs k f)
      (fun d => d.Shows (o ++ l.operators.map (operatorMention ⟨k + 1, l.assoc⟩)) rs (k + 1) f) := by
  have hnames : ((l.operators.map quoted).map fun w => String.ofList (unquote w)) =
      l.operators.map String.ofList := by
    simp [Function.comp_def, unquote_quoted]
  have hone : Reads l.tokens (fun d => d.Shows o rs k f) _ :=
    declaration_reads l.assoc (by simpa using hne) (by rwa [hnames])
  simp only [List.map_map, Function.comp_def, unquote_quoted] at hone
  exact hone

/-- The lines of the levels declare all operators. -/
theorem levels_read (hlines : ∀ l ∈ levels, l.operators ≠ [])
    (hn : (o.map Mention.name ++ (allOperators levels).map String.ofList).Nodup) :
    ReadsAll (levels.map OperatorLevel.tokens) (fun d => d.Shows o rs k f)
      (fun d => d.Shows (o ++ (allOperators levels).map fun w =>
        operatorMention (declaredFrom k levels w) w) rs (k + levels.length) f) := by
  induction levels generalizing o k with
  | nil =>
    simp only [allOperators, List.flatMap_nil, List.map_nil, List.append_nil]
    exact .nil _
  | cons l levels ih =>
    have hsplit : allOperators (l :: levels) = l.operators ++ allOperators levels :=
      List.flatMap_cons
    rw [hsplit, List.map_append, ← List.append_assoc] at hn
    have hdistinct : ∀ w ∈ allOperators levels, w ∉ l.operators := by
      intro w hw hmem
      exact (List.nodup_append.1 hn).2.2 _ (List.mem_append_right _ (List.mem_map_of_mem hmem)) _
        (List.mem_map_of_mem hw) rfl
    have hfirst : (l.operators.map (operatorMention ⟨k + 1, l.assoc⟩)) =
        l.operators.map fun w => operatorMention (declaredFrom k (l :: levels) w) w :=
      List.map_congr_left fun w hw => by rw [declaredFrom, if_pos hw]
    have hrest : ((allOperators levels).map fun w =>
        operatorMention (declaredFrom (k + 1) levels w) w) =
          (allOperators levels).map fun w => operatorMention (declaredFrom k (l :: levels) w) w :=
      List.map_congr_left fun w hw => by rw [declaredFrom, if_neg (hdistinct w hw)]
    have hn' : ((o ++ l.operators.map (operatorMention ⟨k + 1, l.assoc⟩)).map Mention.name ++
        (allOperators levels).map String.ofList).Nodup := by
      simpa [operatorMention, Function.comp_def] using hn
    refine .cons (level_reads (hlines l List.mem_cons_self) (List.nodup_append.1 hn).1) ?_
    rw [hsplit, List.map_append, ← hfirst, ← hrest, ← List.append_assoc, List.length_cons,
      Nat.add_comm levels.length 1, ← Nat.add_assoc]
    exact ih (fun l hl => hlines l (List.mem_cons_of_mem _ hl)) hn'

/-- What the levels leave. -/
def operatorMentions (levels : List OperatorLevel) : List Mention :=
  Draft.new.outline ++ (allOperators levels).map fun w => operatorMention (declaredFrom 0 levels w) w

/-- The number of the head. -/
def headNumber (levels : List OperatorLevel) : Nat :=
  Kind.reservedBase + (allOperators levels).length

/-- The number of an operator. -/
def operatorNumber (levels : List OperatorLevel) (w : List Char) : Nat :=
  Kind.reservedBase + (allOperators levels).idxOf w

/-- All symbols. -/
def allMentions (levels : List OperatorLevel) : List Mention :=
  operatorMentions levels ++ [⟨String.ofList expressionName, some .nonterminal, none, none, 0⟩]

/-- The production of an operator, but for its line. -/
def operatorRule (levels : List OperatorLevel) (w : List Char) : Production :=
  plainRule (allMentions levels) (headNumber levels)
    [headNumber levels, operatorNumber levels w, headNumber levels]

/-- The production of numbers, but for its line. -/
def numberRule (levels : List OperatorLevel) : Production :=
  plainRule (allMentions levels) (headNumber levels) [Kind.number.num]

theorem length_operatorMentions (levels : List OperatorLevel) :
    (operatorMentions levels).length = headNumber levels := by
  simp [operatorMentions, headNumber, show Draft.new.outline.length = Kind.reservedBase from rfl]

theorem Declarable.nodup (h : Declarable levels rules) :
    ((allMentions levels).map Mention.name).Nodup := by
  have hnew : Draft.new.outline.map Mention.name = Kind.predefined.filterMap Kind.name? := rfl
  have hoperators : ((allOperators levels).map fun w => (operatorMention (declaredFrom 0 levels w) w).name) =
      (allOperators levels).map String.ofList := rfl
  simp only [allMentions, operatorMentions, List.map_append, List.map_map, Function.comp_def, hnew,
    hoperators, List.map_cons, List.map_nil]
  refine List.nodup_append.2 ⟨List.nodup_append.2 ⟨by decide, ?_, ?_⟩, List.nodup_singleton _, ?_⟩
  · exact h.distinct.map fun _ _ he => String.ofList_injective he
  · rintro a ha b hb rfl
    obtain ⟨w, hw, rfl⟩ := List.mem_map.1 hb
    exact (h.fresh w hw).1 ha
  · rintro a ha b hb rfl
    rw [List.mem_singleton] at hb
    subst hb
    rcases List.mem_append.1 ha with ha | ha
    · revert ha
      decide
    · obtain ⟨w, hw, he⟩ := List.mem_map.1 ha
      exact (h.fresh w hw).2 (String.ofList_injective he)

theorem getElem?_head (levels : List OperatorLevel) : (allMentions levels)[headNumber levels]? =
    some ⟨String.ofList expressionName, some .nonterminal, none, none, 0⟩ := by
  rw [allMentions, ← length_operatorMentions, List.getElem?_concat_length]

theorem getElem?_operator (hw : w ∈ allOperators levels) :
    (allMentions levels)[operatorNumber levels w]? =
      some (operatorMention (declaredFrom 0 levels w) w) := by
  have hlt := List.idxOf_lt_length_of_mem hw
  have hnew : Draft.new.outline.length = Kind.reservedBase := rfl
  rw [allMentions, operatorNumber, operatorMentions, List.getElem?_append_left (by simp [hnew, hlt]),
    List.getElem?_append_right (by simp [hnew])]
  simp [hnew, hlt]

theorem getElem?_number (levels : List OperatorLevel) : (allMentions levels)[Kind.number.num]? =
    some ⟨"NUMBER", some .terminal, none, none, 0⟩ := rfl

theorem mentions_head (levels : List OperatorLevel) :
    Mentions (allMentions levels) (.word, expressionName) (headNumber levels) :=
  .word (getElem?_head levels) rfl (by simp)

theorem mentions_operator (hw : w ∈ allOperators levels) : List.Forall₂ (Mentions (allMentions levels))
    [(.word, expressionName), (.string, quoted w), (.word, expressionName)]
    [headNumber levels, operatorNumber levels w, headNumber levels] := by
  refine .cons (mentions_head levels) (.cons ?_ (.cons (mentions_head levels) .nil))
  exact .literal (getElem?_operator hw) (by rw [unquote_quoted]; rfl) rfl

/-- Where the head is known, productions of operators are read. -/
theorem rules_read (h : Declarable levels rules) {ws : List (List Char)}
    (hws : ∀ w ∈ ws, w ∈ allOperators levels) :
    ReadsAll (ws.map operatorTokens)
      (fun d => d.Shows (allMentions levels) rs k (some (headNumber levels)))
      (fun d => d.Shows (allMentions levels) (rs ++ ws.map (operatorRule levels)) k
        (some (headNumber levels))) := by
  induction ws generalizing rs with
  | nil =>
    rw [List.map_nil, List.map_nil, List.append_nil]
    exact .nil _
  | cons w ws ih =>
    have hone : Reads (operatorTokens w)
        (fun d => d.Shows (allMentions levels) rs k (some (headNumber levels))) _ :=
      oldHead_reads h.nodup (getElem?_head levels) rfl rfl
        (mentions_operator (hws w List.mem_cons_self))
    rw [List.map_cons, List.map_cons, List.append_cons]
    exact .cons hone (ih fun w hw => hws w (List.mem_cons_of_mem _ hw))

/-- The first production of an operator makes the head known. -/
theorem firstRule_reads (h : Declarable levels rules) (hw : w ∈ allOperators levels) :
    Reads (operatorTokens w) (fun d => d.Shows (operatorMentions levels) [] k none)
      (fun d => d.Shows (allMentions levels) [operatorRule levels w] k
        (some (headNumber levels))) := by
  have hn := h.nodup
  rw [allMentions, List.map_append] at hn
  have hone : Reads (operatorTokens w) (fun d => d.Shows (operatorMentions levels) [] k none) _ :=
    newHead_reads hn (mentions_operator hw)
  rw [length_operatorMentions] at hone
  exact hone

theorem new_shows : Draft.new.Shows Draft.new.outline [] 0 none :=
  ⟨rfl, rfl, rfl, rfl, rfl⟩

/-- What all statements leave in a draft. -/
theorem Declarable.readCode (h : Declarable levels rules) :
    (readCode [.ofText (operatorText levels rules).toList]).errors = [] ∧
      (readCode [.ofText (operatorText levels rules).toList]).draft.Shows (allMentions levels)
        (rules.map (operatorRule levels) ++ [numberRule levels]) levels.length
        (some (headNumber levels)) := by
  obtain ⟨l, ls, hl⟩ := List.exists_cons_of_ne_nil h.nonempty
  obtain ⟨w, ws, hw⟩ : ∃ w ws, rules = w :: ws := by
    refine List.exists_cons_of_ne_nil fun hnil => ?_
    have hall : allOperators levels = [] := List.nil_perm.1 (hnil ▸ h.rules)
    have : l.operators = [] := List.flatMap_eq_nil_iff.1 hall l (hl ▸ List.mem_cons_self)
    exact h.lines l (hl ▸ List.mem_cons_self) this
  have hmem : ∀ w ∈ rules, w ∈ allOperators levels := fun w hw => h.rules.mem_iff.1 hw
  have hn := (List.nodup_append.1 (List.map_append ▸ h.nodup)).1
  -- the levels, the first operator, the others, the numbers
  have hlevels : ReadsAll (levels.map OperatorLevel.tokens)
      (fun d => d.Shows Draft.new.outline [] 0 none)
      (fun d => d.Shows (operatorMentions levels) [] (0 + levels.length) none) :=
    levels_read h.lines (by simpa [operatorMentions, operatorMention, Function.comp_def] using hn)
  have hothers : ReadsAll (ws.map operatorTokens)
      (fun d => d.Shows (allMentions levels) [operatorRule levels w] (0 + levels.length)
        (some (headNumber levels)))
      (fun d => d.Shows (allMentions levels) (rules.map (operatorRule levels)) (0 + levels.length)
        (some (headNumber levels))) := by
    rw [hw, List.map_cons]
    exact rules_read h fun w' hw' => hmem w' (by simp [hw, hw'])
  have hnumber : Reads numberTokens
      (fun d => d.Shows (allMentions levels) (rules.map (operatorRule levels)) (0 + levels.length)
        (some (headNumber levels)))
      (fun d => d.Shows (allMentions levels)
        (rules.map (operatorRule levels) ++ [numberRule levels]) (0 + levels.length)
        (some (headNumber levels))) :=
    oldHead_reads h.nodup (getElem?_head levels) rfl rfl
      (.cons (.word (getElem?_number levels) rfl (by simp)) .nil)
  have hall := (hlevels.append (.cons (firstRule_reads h (hmem w (by simp [hw]))) hothers)).append
    (.cons hnumber (.nil _))
  have hhands : ({ scanner := .ofCode grammarConfig [.ofText (operatorText levels rules).toList] } :
      Source).Hands _ := Source.hands_of_scanner rfl (h.hands hl)
  rw [Nat.zero_add] at hall
  subst hl hw
  rw [List.map_cons, List.cons_append, List.cons_append] at hall
  cases hall with
  | cons hone hrest => exact readStatements_hands hone hrest new_shows [] (by simpa using hhands)

end

end LayoutLR
