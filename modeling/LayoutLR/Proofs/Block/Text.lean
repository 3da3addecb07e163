/-
  Layout-aware LR toolkit — the text of indented statements, and its tokens.

  A statement is a name, alone on its line or with a colon and further statements
  below it, which stand further in.  Where a line is further in than the one before,
  a scanner hands out a line break and the start of a level; where it is further
  out, the end of each level that it leaves comes before the line break.  So each
  statement brings its own tokens, whatever stands around it.

  * `Name`, `Statement`: the data;
  * `Statement.text`, `linesOf`: statements as text;
  * `Statement.tokens`, `tokensBehind`: statements as tokens;
  * `Layout.deeper`, `Layout.back`: from one line to the next;
  * `Scanner.hands_statement`: a scanner hands out the tokens of a statement;
  * `Scanner.tokens_statements`: all tokens of a text.
-/
import LayoutLR.Proofs.Text.Names
import LayoutLR.Proofs.Text.Order
import LayoutLR.Proofs.Token.Scanning

namespace LayoutLR

open Text

/-! ## Statements -/

/-- A name. -/
structure Name where
  text : List Char
  isName : isName text = true

/-- A name, with the statements that are nested below it. -/
inductive Statement where
  | mk (name : Name) (nested : List Statement)

mutual

/-- How many levels are nested below a statement. -/
def Statement.depth : Statement → Nat
  | .mk _ nested => if nested.isEmpty then 0 else depthOf nested + 1

/-- How many levels are nested below some statements. -/
def depthOf : List Statement → Nat
  | [] => 0
  | s :: rest => max s.depth (depthOf rest)

end

mutual

/-- The lines of a statement, the first one from its name on: its name, with a colon if there
    is more, and the lines of what is nested, one level further in. -/
def Statement.text (width level : Nat) : Statement → List Char
  | .mk name nested =>
    name.text ++ (if nested.isEmpty then [] else [':']) ++ '\n' :: linesOf width (level + 1) nested

/-- The lines of some statements, each with the spaces in front of it. -/
def linesOf (width level : Nat) : List Statement → List Char
  | [] => []
  | s :: rest =>
    List.replicate (level * width) ' ' ++ (s.text width level ++ linesOf width level rest)

end

/-- The only known text. -/
abbrev Kind.colon : Kind := .reserved 0

mutual

/-- The tokens of a statement. -/
def Statement.tokens : Statement → List (Kind × List Char)
  | .mk name [] => [(.word, name.text)]
  | .mk name (s :: rest) =>
    (.word, name.text) :: (.colon, [':']) :: (.newline, []) :: (.indent, []) ::
      (s.tokens ++ (tokensBehind rest ++ [(.outdent, [])]))

/-- The tokens of further statements, behind the one before. -/
def tokensBehind : List Statement → List (Kind × List Char)
  | [] => []
  | s :: rest => (.newline, []) :: (s.tokens ++ tokensBehind rest)

end

mutual

theorem Statement.eof_not_mem : ∀ s : Statement, ∀ tok ∈ s.tokens, tok.1 ≠ .eof
  | .mk name [] => by simp [Statement.tokens]
  | .mk name (s :: rest) => by
    have hs := s.eof_not_mem
    have hrest := eof_not_mem_behind rest
    intro tok htok
    simp only [Statement.tokens, List.mem_cons, List.mem_append, List.not_mem_nil, or_false] at htok
    rcases htok with rfl | rfl | rfl | rfl | htok | htok | rfl
    · exact nofun
    · exact nofun
    · exact nofun
    · exact nofun
    · exact hs tok htok
    · exact hrest tok htok
    · exact nofun

theorem eof_not_mem_behind : ∀ rest : List Statement, ∀ tok ∈ tokensBehind rest, tok.1 ≠ .eof
  | [] => by simp [tokensBehind]
  | s :: rest => by
    have hs := s.eof_not_mem
    have hrest := eof_not_mem_behind rest
    intro tok htok
    simp only [tokensBehind, List.mem_cons, List.mem_append] at htok
    rcases htok with rfl | htok | htok
    · exact nofun
    · exact hs tok htok
    · exact hrest tok htok

end

/-! ## Levels -/

namespace Layout

/-- The columns of levels that are each as far in from the one around them. -/
def columns (width : Nat) : Nat → List Nat
  | 0 => []
  | level + 1 => (level + 1) * width :: columns width level

/-- A layout inside such levels, with what waits. -/
def inside (width level outdents : Nat) (newline indent : Bool) : Layout where
  started := true
  inner := columns width level
  outdents
  newline
  indent
  line := 0
  col := 0

/-- The same with nothing waiting. -/
abbrev still (width level : Nat) : Layout :=
  inside width level 0 false false

variable {width level outdents : Nat} {newline indent : Bool}

theorem length_columns (width level : Nat) : (columns width level).length = level := by
  induction level with
  | zero => rfl
  | succ level ih => rw [columns, List.length_cons, ih]

theorem top_inside : (inside width level outdents newline indent).top = level * width := by
  cases level with
  | zero => simp [top, inside, columns]
  | succ level => rfl

/-- A line further in opens a level. -/
theorem deeper (hwidth : 0 < width) (hlevel : level + 1 < maxIndentDepth) :
    (still width level).enter ((level + 1) * width) = inside width (level + 1) 0 true true := by
  have hlt : level * width < (level + 1) * width := by
    rw [Nat.succ_mul]
    omega
  have hlength : (inside width level 0 true false).inner.length + 1 ≠ maxIndentDepth := by
    rw [inside, length_columns]
    exact Nat.ne_of_lt hlevel
  show (inside width level 0 true false).align _ = _
  rw [align, top_inside, if_pos hlt, push, if_neg hlength]
  rfl

theorem takeWhile_columns (hwidth : 0 < width) (level more : Nat) :
    ((columns width (level + more)).takeWhile fun c => decide (level * width < c)).length = more := by
  induction more with
  | zero =>
    cases level with
    | zero => rfl
    | succ level => simp [columns]
  | succ more ih =>
    have hlt : level * width < (level + more + 1) * width :=
      Nat.mul_lt_mul_of_pos_right (by omega) hwidth
    rw [← Nat.add_assoc, columns, List.takeWhile_cons_of_pos (by simpa using hlt), List.length_cons,
      ih]

theorem drop_columns (width level more : Nat) :
    (columns width (level + more)).drop more = columns width level := by
  induction more with
  | zero => rfl
  | succ more ih => rw [← Nat.add_assoc, columns, List.drop_succ_cons, ih]

theorem popLevels_inside (hwidth : 0 < width) (level more : Nat) :
    (inside width (level + more) 0 newline indent).popLevels (level * width) =
      inside width level more newline indent := by
  simp only [popLevels, inside, takeWhile_columns hwidth, drop_columns, Nat.zero_add]

/-- A line further out closes the levels in between. -/
theorem back (hwidth : 0 < width) (level more : Nat) :
    (still width (level + more)).enter (level * width) = inside width level more true false := by
  have hle : ¬ (level + more) * width < level * width :=
    Nat.not_lt.2 (Nat.mul_le_mul_right width (Nat.le_add_right level more))
  show (inside width (level + more) 0 true false).align _ = _
  rw [align, top_inside, if_neg hle, popLevels_inside hwidth]
  dsimp only
  rw [top_inside, if_neg (Nat.lt_irrefl _), if_neg (Nat.lt_irrefl _)]

end Layout

/-! ## Lines -/

/-- How text is cut up where a colon is the only known text. -/
def colonConfig : Config where
  ignored := .comments
  known := #[[':']]

section

variable {c : Char} {cs w rest : List Char} {first : Bool} {toks : List (Kind × List Char)}

theorem comment?_name (h : (isLetter c || c == '_') = true) : comment? colonConfig c cs = none := by
  obtain ⟨hslash, hhash⟩ := not_comment_name h
  simp [comment?, hslash, hhash]

theorem lookup_colonConfig (h : c ≠ ':') : colonConfig.lookup (c :: w) = none := by
  rw [Option.eq_none_iff_forall_ne_some]
  intro i hi
  have htable : Ascending colonConfig.known := List.pairwise_singleton _ _
  have := (search_eq_some_iff htable).1 hi
  have hmem := Array.mem_of_getElem? this
  simp [colonConfig] at hmem
  exact h hmem.1

/-- A name is cut off up to a colon or the end of its line. -/
theorem lexes_name (name : Name) {d : Char} (hd : colonConfig.continuesWord d = false)
    (h : Scanner.Lexes colonConfig false (d :: cs) toks rest) :
    Scanner.Lexes colonConfig first (name.text ++ d :: cs) ((.word, name.text) :: toks) rest := by
  obtain ⟨text, hname⟩ := name
  cases text with
  | nil => cases hname
  | cons c w =>
    rw [isName, Bool.and_eq_true, List.all_eq_true] at hname
    obtain ⟨hc, hw⟩ := hname
    have hno := holds_notInitial hc
    have hcolon : c ≠ ':' := by
      rintro rfl
      exact absurd hno (by decide)
    refine h.adjacent w (isBlank_name hc) (lexeme_word (isDigit_name hc) ?_ ?_ hd ?_) rfl
    · simp [Config.startsWord, colonConfig, hc]
    · intro d hd
      simp [Config.continuesWord, colonConfig, hw d hd]
    · exact lookup_colonConfig hcolon

theorem lexes_plain (name : Name) : Scanner.Lexes colonConfig first (name.text ++ '\n' :: cs)
    [(.word, name.text)] ('\n' :: cs) :=
  lexes_name name (by decide) (.done _ _)

theorem lexes_colon (h : Scanner.Lexes colonConfig false ('\n' :: cs) toks rest) :
    Scanner.Lexes colonConfig false (':' :: '\n' :: cs) ((.colon, [':']) :: toks) rest := by
  refine h.adjacent [] (by decide) ?_ rfl
  refine lexeme_mark (by decide) (by decide) (by decide) (by simp [comment?]) (by decide) ?_
    (by decide +kernel)
  rw [List.nil_append, markRun]
  simp [show colonConfig.isMark '\n' = false by decide]

theorem lexes_opening (name : Name) :
    Scanner.Lexes colonConfig first (name.text ++ ':' :: '\n' :: cs)
      [(.word, name.text), (.colon, [':'])] ('\n' :: cs) :=
  lexes_name name (by decide) (lexes_colon (.done _ _))

end

/-! ## Scanning -/

namespace Scanner

variable {width level : Nat} {s : Scanner} {first : Bool} {rest : List Char}
  {more : List (Kind × List Char)}

/-- The first character of a statement. -/
theorem exists_initial (st : Statement) (width level : Nat) :
    ∃ c cs, st.text width level = c :: cs ∧ (isLetter c || c == '_') = true := by
  obtain ⟨⟨text, hname⟩, nested⟩ := st
  cases text with
  | nil => cases hname
  | cons c w =>
    rw [isName, Bool.and_eq_true] at hname
    exact ⟨c, _, rfl, hname.1⟩

/-- Behind a line break the next statement is met. -/
theorem At.nextLine {l : Layout} {column : Nat} (st : Statement)
    (h : s.At colonConfig first l
      ('\n' :: (List.replicate column ' ' ++ (st.text width level ++ rest))))
    (hp : l.pop? = none) (hs : l.started = true)
    (hmore : ∀ s' : Scanner, s'.At colonConfig true (l.enter column) (st.text width level ++ rest) →
      s'.Hands more) : s.Hands more := by
  obtain ⟨c, cs, htext, hc⟩ := exists_initial st width level
  rw [htext, List.cons_append] at h hmore
  exact h.lineBreak hp hs (isBlank_name hc) (comment?_name hc) hmore

/-- The ends of levels wait, then a line break. -/
theorem At.back {closed : Nat} (h : s.At colonConfig first (.inside width level closed true false) rest)
    (hmore : ∀ s' : Scanner, s'.At colonConfig first (.still width level) rest → s'.Hands more) :
    s.Hands (List.replicate closed (.outdent, []) ++ (.newline, []) :: more) := by
  induction closed generalizing s with
  | zero => exact h.pop rfl rfl hmore
  | succ closed ih => exact h.pop rfl rfl fun s' hs' => ih hs'

/-- A line break waits, then the start of a level. -/
theorem At.deeper (h : s.At colonConfig first (.inside width level 0 true true) rest)
    (hmore : ∀ s' : Scanner, s'.At colonConfig first (.still width level) rest → s'.Hands more) :
    s.Hands ((.newline, []) :: (.indent, []) :: more) := by
  have hindent (s' : Scanner) (hs' : s'.At colonConfig first (.inside width level 0 false true) rest) :
      s'.Hands ((.indent, []) :: more) := hs'.pop rfl rfl hmore
  exact h.pop rfl rfl hindent

mutual

/-- **A scanner hands out the tokens of a statement.**  Levels that are still open behind its
    last line are closed when the next line is met. -/
theorem hands_statement (hwidth : 0 < width) : ∀ (st : Statement) {level : Nat} {s : Scanner}
    {rest : List Char} {more : List (Kind × List Char)}, level + st.depth < maxIndentDepth →
    s.At colonConfig true (.still width level) (st.text width level ++ rest) →
    (∀ (s' : Scanner) (closed : Nat),
      s'.At colonConfig false (.still width (level + closed)) ('\n' :: rest) →
      s'.Hands (List.replicate closed (.outdent, []) ++ more)) →
    s.Hands (st.tokens ++ more)
  | .mk name [], level, s, rest, more, hdepth, h, hmore => by
    have htext : (Statement.mk name []).text width level ++ rest = name.text ++ '\n' :: rest := by
      simp [Statement.text, linesOf]
    rw [htext] at h
    exact h.lexes rfl rfl (lexes_plain name) (List.cons_ne_nil _ _) fun s' hs' => hmore s' 0 hs'
  | .mk name (st :: nested), level, s, rest, more, hdepth, h, hmore => by
    have htext : (Statement.mk name (st :: nested)).text width level ++ rest = name.text ++ ':' ::
        '\n' :: (List.replicate ((level + 1) * width) ' ' ++
          (st.text width (level + 1) ++ (linesOf width (level + 1) nested ++ rest))) := by
      simp [Statement.text, linesOf]
    have hdepth' : level + (max st.depth (depthOf nested) + 1) < maxIndentDepth := by
      simpa [Statement.depth, depthOf] using hdepth
    rw [htext] at h
    show s.Hands ([(.word, name.text), (.colon, [':'])] ++ ((.newline, []) :: (.indent, []) ::
      (st.tokens ++ (tokensBehind nested ++ [(.outdent, [])]) ++ more)))
    refine h.lexes rfl rfl (lexes_opening name) (List.cons_ne_nil _ _) fun s₁ h₁ => ?_
    refine h₁.nextLine st rfl rfl fun s₂ h₂ => ?_
    rw [Layout.deeper hwidth (by omega)] at h₂
    refine h₂.deeper fun s₃ h₃ => ?_
    rw [List.append_assoc, List.append_assoc]
    refine hands_statement hwidth st (by omega) h₃ fun s₄ closed h₄ => ?_
    refine hands_behind hwidth nested (by omega) h₄ fun s₅ closed h₅ => ?_
    -- one of the levels that are left open is that of what is nested here
    rw [Nat.add_right_comm] at h₅
    have := hmore s₅ (closed + 1) h₅
    rwa [List.replicate_succ', List.append_assoc] at this

/-- **A scanner hands out the tokens of further statements**, with the ends of the levels that
    the line before has left open. -/
theorem hands_behind (hwidth : 0 < width) : ∀ (sts : List Statement) {level closed : Nat}
    {s : Scanner} {rest : List Char} {more : List (Kind × List Char)},
    level + depthOf sts < maxIndentDepth →
    s.At colonConfig false (.still width (level + closed))
      ('\n' :: (linesOf width level sts ++ rest)) →
    (∀ (s' : Scanner) (closed : Nat),
      s'.At colonConfig false (.still width (level + closed)) ('\n' :: rest) →
      s'.Hands (List.replicate closed (.outdent, []) ++ more)) →
    s.Hands (List.replicate closed (.outdent, []) ++ (tokensBehind sts ++ more))
  | [], level, closed, s, rest, more, hdepth, h, hmore => by
    exact hmore s closed h
  | st :: sts, level, closed, s, rest, more, hdepth, h, hmore => by
    rw [depthOf] at hdepth
    rw [linesOf, List.append_assoc, List.append_assoc] at h
    refine h.nextLine st rfl rfl fun s₁ h₁ => ?_
    rw [Layout.back hwidth] at h₁
    rw [tokensBehind, List.cons_append, List.append_assoc]
    refine h₁.back fun s₂ h₂ => ?_
    refine hands_statement hwidth st (by omega) h₂ fun s₃ closed h₃ => ?_
    exact hands_behind hwidth sts (by omega) h₃ hmore

end

/-- **All tokens of some statements**, one of them at least. -/
theorem tokens_statements (hwidth : 0 < width) (st : Statement) (sts : List Statement)
    (hdepth : depthOf (st :: sts) < maxIndentDepth) :
    (ofText colonConfig (linesOf width 0 (st :: sts))).tokens.map (fun t => (t.kind, t.text)) =
      st.tokens ++ tokensBehind sts ++ [(.eof, [])] := by
  rw [depthOf] at hdepth
  have hhands : (ofText colonConfig (linesOf width 0 (st :: sts))).Hands
      (st.tokens ++ tokensBehind sts ++ [(.eof, [])]) := by
    obtain ⟨c, cs, htext, hc⟩ := exists_initial st width 0
    rw [linesOf, Nat.zero_mul, htext, List.cons_append, List.append_assoc]
    refine ofText_hands (isBlank_name hc) (comment?_name hc) fun s₁ h₁ => ?_
    rw [← List.cons_append, ← htext] at h₁
    have h₁ : s₁.At colonConfig true (.still width 0) _ := h₁
    refine hands_statement hwidth st (by omega) h₁ fun s₂ closed h₂ => ?_
    rw [← List.append_nil (linesOf width 0 sts)] at h₂
    refine hands_behind hwidth sts (by omega) h₂ fun s₃ closed h₃ => ?_
    refine h₃.ends rfl rfl fun s₄ h₄ => ?_
    rw [show (Layout.still width (0 + closed)).inner.length = 0 + closed from
      Layout.length_columns width _, Nat.zero_add] at h₄
    exact h₄.hands fun _ => rfl
  refine hhands.tokens_eq fun tok htok => ?_
  rcases List.mem_append.1 htok with htok | htok
  · exact st.eof_not_mem tok htok
  · exact eof_not_mem_behind sts tok htok

end Scanner

end LayoutLR
