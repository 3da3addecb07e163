/-
  Layout-aware LR toolkit — scanning text whose lines are known.

  A scanner is described by what it has in front of it and by the layout tokens
  that wait.  A line is cut up token by token, with the characters that follow
  each token in view; a line break opens the next line at the column of its first
  visible character; the end of the text closes the levels.

  * `Scanner.Lexes`: how a part of a line is cut up;
  * `Scanner.At`: where a scanner stands;
  * `Scanner.Hands`: the tokens that a scanner is going to hand out;
  * `Scanner.At.lexes`, `Scanner.At.pop`, `Scanner.At.lineBreak`, `Scanner.At.ends`: what
    comes next.
-/
import Mathlib.Data.List.TakeDrop
import Mathlib.Tactic.SplitIfs
import LayoutLR.Token.Scanner

namespace LayoutLR

open Text

/-! ## Single tokens -/

section

variable {cfg : Config} {first : Bool} {c d : Char} {w rest : List Char}

/-- A word reaches up to the first character that cannot continue it. -/
theorem lexeme_word (hdigit : c.isDigit = false) (hc : cfg.startsWord c = true)
    (hw : ∀ d ∈ w, cfg.continuesWord d = true) (hd : cfg.continuesWord d = false)
    (hlookup : cfg.lookup (c :: w) = none) :
    lexeme cfg first c (w ++ d :: rest) = (.word, w.length) := by
  have hmore : (w ++ d :: rest).takeWhile cfg.continuesWord = w := by
    rw [List.takeWhile_append_of_pos hw, List.takeWhile_cons_of_neg (by simp [hd]), List.append_nil]
  simp [lexeme, hdigit, hc, wordLexeme, hmore, hlookup]

/-- A string reaches up to its quote, if nothing in it means something else. -/
theorem stringMore_closed (hquote : c ∉ w) (hslash : '\\' ∉ w) (hbreak : '\n' ∉ w)
    (hc : c ≠ '\\') (hn : c ≠ '\n') :
    stringMore c (w ++ c :: rest) = (.string, w.length + 1) := by
  induction w with
  | nil =>
    rw [List.nil_append, stringMore.eq_def]
    simp [hc, hn]
  | cons d w ih =>
    simp only [List.mem_cons, not_or] at hquote hslash hbreak
    rw [List.cons_append, stringMore.eq_def]
    simp only [if_neg (Ne.symm hbreak.1), if_neg (Ne.symm hslash.1), if_neg (Ne.symm hquote.1),
      ih hquote.2 hslash.2 hbreak.2, List.length_cons]

theorem lexeme_string (hquote : '\x27' ∉ w) (hslash : '\\' ∉ w) (hbreak : '\n' ∉ w)
    (hc : cfg.startsWord '\x27' = false) :
    lexeme cfg false '\x27' (w ++ '\x27' :: rest) = (.string, w.length + 1) := by
  have hmore : stringMore '\x27' (w ++ '\x27' :: rest) = (.string, w.length + 1) :=
    stringMore_closed hquote hslash hbreak (by decide) (by decide)
  simp [lexeme, hc, Config.isQuote, stringLexeme, hmore, Char.isDigit]

/-- A run of marks that is known as a whole. -/
theorem lexeme_mark {i : Nat} (hdigit : c.isDigit = false) (hword : cfg.startsWord c = false)
    (hquote : Config.isQuote c = false) (hcomment : comment? cfg c (w ++ rest) = none)
    (hc : cfg.isMark c = true) (hrun : markRun cfg (w ++ rest) = w)
    (hknown : knownPrefix? cfg (c :: w) = some (i, w.length + 1)) :
    lexeme cfg first c (w ++ rest) = (.reserved i, w.length) := by
  simp [lexeme, hdigit, hword, hquote, hcomment, hc, markLexeme, hrun, hknown]

end

namespace Scanner

variable {cfg : Config} {s : Scanner} {l l' : Layout} {first : Bool} {cs rest : List Char} {c : Char}
  {toks more : List (Kind × List Char)}

/-! ## Parts of a line -/

/-- Blanks inside a line. -/
def Gap (gap : List Char) : Prop :=
  ∀ c ∈ gap, isBlank c = true ∧ c ≠ '\n'

/-- How text in front of `rest` is cut into tokens, `first` at the first token of a line. -/
inductive Lexes (cfg : Config) : Bool → List Char → List (Kind × List Char) → List Char → Prop
  | done (first : Bool) (rest : List Char) : Lexes cfg first rest [] rest
  | token {first : Bool} {gap cs rest : List Char} {c : Char} {kind : Kind} {n : Nat}
      {toks : List (Kind × List Char)} (hgap : Gap gap) (hc : isBlank c = false)
      (hl : lexeme cfg first c cs = (kind, n)) (hk : cfg.ignored.covers kind = false)
      (h : Lexes cfg false (cs.drop n) toks rest) :
      Lexes cfg first (gap ++ c :: cs) ((kind, c :: cs.take n) :: toks) rest

/-- The text of a token is known, and so is the rest. -/
theorem Lexes.cons {gap : List Char} {kind : Kind} (w : List Char) (hgap : Gap gap)
    (hc : isBlank c = false) (hl : lexeme cfg first c (w ++ cs) = (kind, w.length))
    (hk : cfg.ignored.covers kind = false) (h : Lexes cfg false cs toks rest) :
    Lexes cfg first (gap ++ c :: (w ++ cs)) ((kind, c :: w) :: toks) rest := by
  have h : Lexes cfg false ((w ++ cs).drop w.length) toks rest := by rwa [List.drop_left]
  have := Lexes.token hgap hc hl hk h
  rwa [List.take_left] at this

theorem Lexes.adjacent {kind : Kind} (w : List Char) (hc : isBlank c = false)
    (hl : lexeme cfg first c (w ++ cs) = (kind, w.length)) (hk : cfg.ignored.covers kind = false)
    (h : Lexes cfg false cs toks rest) :
    Lexes cfg first (c :: (w ++ cs)) ((kind, c :: w) :: toks) rest := by
  have hgap : Gap [] := fun c hc => by cases hc
  exact h.cons w hgap hc hl hk

theorem Lexes.spaced {kind : Kind} (w : List Char) (hc : isBlank c = false)
    (hl : lexeme cfg first c (w ++ cs) = (kind, w.length)) (hk : cfg.ignored.covers kind = false)
    (h : Lexes cfg false cs toks rest) :
    Lexes cfg first (' ' :: c :: (w ++ cs)) ((kind, c :: w) :: toks) rest := by
  have hgap : Gap [' '] := fun c hc => by
    rw [List.mem_singleton.1 hc]
    decide
  exact h.cons w hgap hc hl hk

theorem Lexes.eq_of_nil (h : Lexes cfg first cs [] rest) : cs = rest := by
  generalize htoks : [] = toks at h
  cases h with
  | done => rfl
  | token => cases htoks

/-! ## Where a scanner stands -/

/-- A scanner in its last run, which is plain text; `l` is the layout but for its place. -/
structure At (s : Scanner) (cfg : Config) (first : Bool) (l : Layout) (rest : List Char) : Prop where
  config : s.config = cfg
  undone : s.done = false
  node : ∃ node, s.place.ahead = [node] ∧ node.needsStrip = false ∧ node.indent = 0
  text : s.place.cursor.rest = rest
  layout : ∃ line col, s.layout = l.moveTo line col
  lineFirst : s.lineFirst = first

/-- A scanner behind its text, with the ends of some levels waiting. -/
structure Behind (s : Scanner) (cfg : Config) (outdents : Nat) : Prop where
  config : s.config = cfg
  done : s.done = true
  outdents : s.layout.outdents = outdents
  newline : s.layout.newline = false
  indent : s.layout.indent = false

/-- The next tokens of a scanner are these. -/
def Hands (s : Scanner) : List (Kind × List Char) → Prop
  | [] => True
  | x :: toks => ∃ t s', s.nextToken = (t, s') ∧ (t.kind, t.text) = x ∧
      Hands { s' with tooDeep := [] } toks

theorem nextToken_of_scan {t : Token} {s' : Scanner} (h : s.scan = (t, s'))
    (hk : s.config.ignored.covers t.kind = false) : s.nextToken = (t, s') := by
  rw [nextToken, h]
  simp [hk]

theorem pop?_moveTo (l : Layout) (line col : Nat) : (l.moveTo line col).pop? =
    l.pop?.map fun r => (.synthetic r.1.kind line col, r.2.moveTo line col) := by
  unfold Layout.pop?
  rw [apply_ite (Option.map _), apply_ite (Option.map _), apply_ite (Option.map _)]
  rfl

theorem push_moveTo (l : Layout) (line col column : Nat) :
    (l.moveTo line col).push column = (l.push column).moveTo line col := by
  unfold Layout.push
  rw [apply_ite (Layout.moveTo · line col)]
  rfl

theorem enter_moveTo (l : Layout) (line col column : Nat) :
    (l.moveTo line col).enter column = (l.enter column).moveTo line col := by
  unfold Layout.enter Layout.align
  dsimp only
  rw [apply_ite (Layout.moveTo · line col), apply_ite (Layout.moveTo · line col),
    apply_ite (Layout.moveTo · line col), apply_ite (Layout.moveTo · line col),
    ← push_moveTo, ← push_moveTo]
  rfl

theorem started_enter (l : Layout) (column : Nat) : (l.enter column).started = true := by
  unfold Layout.enter Layout.align Layout.push Layout.popLevels
  dsimp only
  split_ifs <;> first | assumption | rfl

theorem At.pop?_eq (h : s.At cfg first l rest) (hp : l.pop? = none) : s.layout.pop? = none := by
  obtain ⟨line, col, hl⟩ := h.layout
  rw [hl, pop?_moveTo, hp]
  rfl

/-- A layout token that waits is handed out. -/
theorem At.pop (h : s.At cfg first l rest) {t : Token} (hp : l.pop? = some (t, l'))
    (hk : cfg.ignored.covers t.kind = false)
    (hmore : ∀ s' : Scanner, s'.At cfg first l' rest → s'.Hands more) :
    s.Hands ((t.kind, []) :: more) := by
  obtain ⟨line, col, hl⟩ := h.layout
  have hscan : s.scan = (.synthetic t.kind line col, { s with layout := l'.moveTo line col }) := by
    rw [scan, hl, pop?_moveTo, hp]
    rfl
  refine ⟨_, _, nextToken_of_scan hscan (h.config ▸ hk), rfl, hmore _ ?_⟩
  exact ⟨h.config, h.undone, h.node, h.text, ⟨line, col, rfl⟩, h.lineFirst⟩

/-! ## Inside a line -/

theorem skipBlanks_rest (cur : Cursor) :
    cur.skipBlanks.rest = cur.rest.dropWhile fun c => isBlank c && c != '\n' := by
  have h : ((cur.rest.takeWhile fun c => isBlank c && c != '\n') ++
      cur.rest.dropWhile fun c => isBlank c && c != '\n').drop _ = _ := List.drop_left
  rw [List.takeWhile_append_dropWhile] at h
  rw [Cursor.skipBlanks, Cursor.advance_rest, h]

theorem dropWhile_gap {gap : List Char} (hgap : Gap gap) (hc : isBlank c = false) :
    (gap ++ c :: cs).dropWhile (fun c => isBlank c && c != '\n') = c :: cs := by
  rw [List.dropWhile_append_of_pos]
  · simp [hc]
  · intro b hb
    simp [(hgap b hb).1, (hgap b hb).2]

theorem ne_newline (hc : isBlank c = false) : c ≠ '\n' := by
  rintro rfl
  exact absurd hc (by decide)

theorem cut_eq {kind : Kind} {n : Nat} (h : lexeme s.config s.lineFirst c cs = (kind, n)) :
    s.cut c cs = (⟨kind, c :: cs.take n, s.place.node, s.place.cursor.pos, s.place.cursor.line,
      s.place.cursor.col⟩,
      { s with
        place := { s.place with cursor := s.place.cursor.advance (n + 1) }
        lineFirst := false }) := by
  rw [Scanner.cut, h]
  rfl

/-- Inside a line, blanks are skipped and the next token is cut off. -/
theorem At.cut {gap : List Char} (h : s.At cfg first l (gap ++ c :: cs)) (hp : l.pop? = none)
    (hs : l.started = true) (hgap : Gap gap) (hc : isBlank c = false) {kind : Kind} {n : Nat}
    (hl : lexeme cfg first c cs = (kind, n)) (hk : cfg.ignored.covers kind = false)
    (hmore : ∀ s' : Scanner, s'.At cfg false l (cs.drop n) → s'.Hands more) :
    s.Hands ((kind, c :: cs.take n) :: more) := by
  have hstarted : s.layout.started = true := by
    obtain ⟨line, col, hl⟩ := h.layout
    rw [hl]
    exact hs
  have hcur : s.place.cursor.skipBlanks.rest = c :: cs := by
    rw [skipBlanks_rest, h.text, dropWhile_gap hgap hc]
  let s₁ : Scanner := { s with place := { s.place with cursor := s.place.cursor.skipBlanks } }
  have hscan : s.scan = s₁.cut c cs := by
    rw [scan, h.pop?_eq hp]
    simp [s₁, h.undone, hstarted, hcur, ne_newline hc]
  have hlex : lexeme s₁.config s₁.lineFirst c cs = (kind, n) := by rw [← hl, ← h.config, ← h.lineFirst]
  rw [cut_eq hlex] at hscan
  refine ⟨_, _, nextToken_of_scan hscan (h.config ▸ hk), rfl, hmore _ ?_⟩
  refine ⟨h.config, h.undone, h.node, ?_, h.layout, rfl⟩
  simp [s₁, hcur]

/-- A part of a line is handed out as it is cut up. -/
theorem At.lexes (h : s.At cfg first l cs) (hp : l.pop? = none) (hs : l.started = true)
    (hlex : Lexes cfg first cs toks rest) (hne : toks ≠ [])
    (hmore : ∀ s' : Scanner, s'.At cfg false l rest → s'.Hands more) :
    s.Hands (toks ++ more) := by
  induction hlex generalizing s with
  | done => exact absurd rfl hne
  | @token _ _ cs rest _ _ n toks hgap hc hl hk hlex ih =>
    refine h.cut hp hs hgap hc hl hk fun s' hs' => ?_
    cases toks with
    | nil => exact hmore s' (hlex.eq_of_nil ▸ hs')
    | cons tok toks => exact ih hs' (List.cons_ne_nil _ _) hmore

/-! ## Between lines -/

theorem advance_spaces (n : Nat) (cur : Cursor) (h : cur.rest = List.replicate n ' ' ++ cs) :
    (cur.advance n).col = cur.col + n := by
  induction n generalizing cur with
  | zero => rfl
  | succ n ih =>
    have hrest : cur.rest = ' ' :: (List.replicate n ' ' ++ cs) := by rw [h, List.replicate_succ]; rfl
    have hstep : cur.step.rest = List.replicate n ' ' ++ cs ∧ cur.step.col = cur.col + 1 := by
      rw [Cursor.step, hrest]
      exact ⟨rfl, rfl⟩
    rw [Cursor.advance, ih _ hstep.1, hstep.2]
    omega

theorem skipBlanks_spaces {n : Nat} {cur : Cursor} (h : cur.rest = List.replicate n ' ' ++ c :: cs)
    (hc : isBlank c = false) : cur.skipBlanks.rest = c :: cs ∧ cur.skipBlanks.col = cur.col + n := by
  have hgap : Gap (List.replicate n ' ') := by
    intro b hb
    rw [(List.mem_replicate.1 hb).2]
    decide
  have htake : (cur.rest.takeWhile fun c => isBlank c && c != '\n') = List.replicate n ' ' := by
    rw [h, List.takeWhile_append_of_pos]
    · simp [hc]
    · intro b hb
      simp [(hgap b hb).1, (hgap b hb).2]
  constructor
  · rw [skipBlanks_rest, h, dropWhile_gap hgap hc]
  · rw [Cursor.skipBlanks, htake, List.length_replicate, advance_spaces _ _ h]

theorem skipComments_visible {cur : Cursor} (h : cur.rest = c :: cs)
    (hcomment : comment? cfg c cs = none) : cur.skipComments cfg = cur := by
  rw [Cursor.skipComments]
  split
  · rfl
  · rename_i c' cs' h'
    obtain ⟨rfl, rfl⟩ : c' = c ∧ cs' = cs := List.cons.inj (h'.symm.trans h)
    rw [hcomment]

/-- The first visible character of a line is found, and its column. -/
theorem nextVisible_line {p : Place} {node : CodeNode} {n : Nat} (hnode : p.ahead = [node])
    (hstrip : node.needsStrip = false) (hindent : node.indent = 0)
    (hrest : p.cursor.rest = List.replicate n ' ' ++ c :: cs) (hc : isBlank c = false)
    (hcomment : comment? cfg c cs = none) :
    ∃ cur : Cursor, p.nextVisible cfg = ({ p with cursor := cur }, some n) ∧ cur.rest = c :: cs := by
  have henter : ∃ cur : Cursor, Place.enterLine cfg node p.cursor = (cur, n) ∧
      cur.rest = c :: cs := by
    have hrest : ({ p.cursor with col := 0 } : Cursor).rest = _ := hrest
    obtain ⟨hskip, hcol⟩ := skipBlanks_spaces hrest hc
    refine ⟨_, ?_, hskip⟩
    simp only [Place.enterLine, hstrip, hindent, Bool.false_eq_true, if_false, Cursor.advance]
    rw [skipComments_visible hskip hcomment, hcol, Nat.zero_add]
  obtain ⟨cur, henter, hcur⟩ := henter
  refine ⟨cur, ?_, hcur⟩
  have hne : p.cursor.rest.isEmpty = false := by simp [hrest]
  unfold Place.nextVisible
  split
  · rename_i h
    rw [hnode] at h
    cases h
  · rename_i node' later h
    obtain ⟨rfl, rfl⟩ : node' = node ∧ later = [] := List.cons.inj (h.symm.trans hnode)
    rw [hne]
    simp only [Bool.false_eq_true, if_false]
    split
    · rename_i h'
      rw [henter, hcur] at h'
      cases h'
    · rename_i c' cs' h'
      rw [henter, hcur] at h'
      cases h'
      rw [if_neg (ne_newline hc), henter]

/-- A scanner that stands at a line with nothing else to do goes on as if the line were open. -/
theorem openLine_at {node : CodeNode} {n : Nat} (hnode : s.place.ahead = [node])
    (hstrip : node.needsStrip = false) (hindent : node.indent = 0)
    (hrest : s.place.cursor.rest = List.replicate n ' ' ++ c :: cs) (hc : isBlank c = false)
    (hcomment : comment? cfg c cs = none) (hconfig : s.config = cfg) (hdone : s.done = false)
    (hlayout : ∃ line col, s.layout = l.moveTo line col) :
    s.openLine.At cfg true (l.enter n) (c :: cs) := by
  obtain ⟨cur, hvisible, hcur⟩ := nextVisible_line hnode hstrip hindent hrest hc hcomment
  obtain ⟨line, col, hl⟩ := hlayout
  subst hconfig
  rw [openLine, hvisible]
  refine ⟨rfl, hdone, ⟨node, hnode, hstrip, hindent⟩, hcur, ⟨cur.line, cur.col, ?_⟩, rfl⟩
  show ((s.layout.moveTo cur.line cur.col).enter n) = _
  rw [hl, ← enter_moveTo]
  rfl

/-- At an open line, the next token is the same whether or not the line is known to be open. -/
theorem At.atLine_eq (h : s.At cfg first l (c :: cs)) (hs : l.started = true)
    (hc : isBlank c = false) : s.atLine = s.scan := by
  have hstarted : s.layout.started = true := by
    obtain ⟨line, col, hl⟩ := h.layout
    rw [hl]
    exact hs
  have hskip : s.place.cursor.skipBlanks = s.place.cursor := by
    simp [Cursor.skipBlanks, h.text, hc, Cursor.advance]
  unfold atLine scan
  cases s.layout.pop? with
  | some r => rfl
  | none =>
    have hundone : ¬ s.done = true := by simp [h.undone]
    simp only [if_neg hundone, hstarted, hskip, h.text, if_neg (ne_newline hc)]
    rfl

theorem hands_congr {s s' : Scanner} (hc : s'.config = s.config) (h : s.scan = s'.scan)
    (hh : s'.Hands toks) : s.Hands toks := by
  cases toks with
  | nil => trivial
  | cons tok toks =>
    obtain ⟨t, s₁, ht, hrest⟩ := hh
    refine ⟨t, s₁, ?_, hrest⟩
    rw [← ht, nextToken, nextToken, h, hc]

/-- Behind a line break the next line is open, its layout tokens waiting. -/
theorem At.lineBreak {n : Nat}
    (h : s.At cfg first l ('\n' :: (List.replicate n ' ' ++ c :: cs))) (hp : l.pop? = none)
    (hs : l.started = true) (hc : isBlank c = false) (hcomment : comment? cfg c cs = none)
    (hmore : ∀ s' : Scanner, s'.At cfg true (l.enter n) (c :: cs) → s'.Hands toks) :
    s.Hands toks := by
  obtain ⟨node, hnode, hstrip, hindent⟩ := h.node
  have hstarted : s.layout.started = true := by
    obtain ⟨line, col, hl⟩ := h.layout
    rw [hl]
    exact hs
  have hskip : s.place.cursor.skipBlanks = s.place.cursor := by
    simp [Cursor.skipBlanks, h.text, Cursor.advance]
  have hleave : s.place.leaveLine = { s.place with cursor := s.place.cursor.step } := by
    rw [Place.leaveLine, h.text]
  have hstep : s.place.cursor.step.rest = List.replicate n ' ' ++ c :: cs := by
    rw [Cursor.step_rest, h.text]
    rfl
  have hopen := openLine_at (s := { s with place := { s.place with cursor := s.place.cursor.step } })
    (l := l) hnode hstrip hindent hstep hc hcomment h.config h.undone h.layout
  have hscan : s.scan =
      ({ s with place := { s.place with cursor := s.place.cursor.step } } : Scanner).openLine.atLine := by
    unfold scan
    rw [h.pop?_eq hp]
    simp [h.undone, hstarted, hskip, h.text, hleave]
  rw [hopen.atLine_eq (started_enter l n) hc] at hscan
  exact hands_congr (hopen.config.trans h.config.symm) hscan (hmore _ hopen)

/-- At the start of a text the first line is open, and nothing waits. -/
theorem ofText_hands {n : Nat} (hc : isBlank c = false) (hcomment : comment? cfg c cs = none)
    (hmore : ∀ s' : Scanner,
      s'.At cfg true { started := true, base := n, line := 0, col := 0 } (c :: cs) → s'.Hands toks) :
    (ofText cfg (List.replicate n ' ' ++ c :: cs)).Hands toks := by
  have hopen := openLine_at (s := ofText cfg (List.replicate n ' ' ++ c :: cs))
    (l := { line := 0, col := 0 }) rfl rfl rfl rfl hc hcomment rfl rfl ⟨1, 0, rfl⟩
  refine hands_congr hopen.config ?_ (hmore _ hopen)
  rw [← hopen.atLine_eq rfl hc]
  rfl

/-! ## The end -/

theorem pop?_eq_none : l.pop? = none ↔ l.outdents = 0 ∧ l.newline = false ∧ l.indent = false := by
  unfold Layout.pop?
  split_ifs with h h' h''
  · simp [Nat.ne_of_gt h]
  · simp [h']
  · simp [h'']
  · simp at h h' h''
    simp [h, h', h'']

theorem nextVisible_end {p : Place} {node : CodeNode} (hnode : p.ahead = [node])
    (hrest : p.cursor.rest = []) : ∃ p', p.nextVisible cfg = (p', none) := by
  refine ⟨p.nextNode p.cursor.line, ?_⟩
  have hahead : (p.nextNode p.cursor.line).ahead = [] := by simp [Place.nextNode, hnode]
  have hnext : (p.nextNode p.cursor.line).nextVisible cfg = (p.nextNode p.cursor.line, none) := by
    rw [Place.nextVisible]
    split
    · rfl
    · rename_i h
      rw [hahead] at h
      cases h
  rw [Place.nextVisible]
  split
  · rename_i h
    rw [hnode] at h
    cases h
  · rw [if_pos (by simp [hrest]), hnext]

theorem Behind.atLine_eq {n : Nat} (h : s.Behind cfg n) : s.atLine = s.scan := by
  unfold atLine scan
  cases s.layout.pop? with
  | some r => rfl
  | none => simp only [h.done, if_true]

/-- Behind the last line break the levels are closed. -/
theorem At.ends (h : s.At cfg first l ['\n']) (hp : l.pop? = none) (hs : l.started = true)
    (hmore : ∀ s' : Scanner, s'.Behind cfg l.inner.length → s'.Hands toks) : s.Hands toks := by
  obtain ⟨node, hnode, -, -⟩ := h.node
  obtain ⟨line, col, hl⟩ := h.layout
  obtain ⟨houtdents, hnewline, hindent⟩ := pop?_eq_none.1 hp
  have hstarted : s.layout.started = true := by rw [hl]; exact hs
  have hskip : s.place.cursor.skipBlanks = s.place.cursor := by
    simp [Cursor.skipBlanks, h.text, Cursor.advance]
  have hleave : s.place.leaveLine = { s.place with cursor := s.place.cursor.step } := by
    rw [Place.leaveLine, h.text]
  have hstep : s.place.cursor.step.rest = [] := by
    rw [Cursor.step_rest, h.text]
    rfl
  let s₁ : Scanner := { s with place := s.place.leaveLine }
  have hscan : s.scan = s₁.openLine.atLine := by
    unfold scan
    rw [h.pop?_eq hp]
    simp [s₁, h.undone, hstarted, hskip, h.text]
  obtain ⟨p', hvisible⟩ : ∃ p', s₁.place.nextVisible s₁.config = (p', none) := by
    have hahead : s₁.place.ahead = [node] := by simp only [s₁, hleave, hnode]
    refine nextVisible_end hahead ?_
    simp only [s₁, hleave, hstep]
  have hbehind : s₁.openLine.Behind cfg l.inner.length := by
    rw [openLine, hvisible]
    refine ⟨h.config, rfl, ?_, ?_, ?_⟩
    · simp [s₁, Layout.close, Layout.moveTo, hl, houtdents]
    · simp [s₁, Layout.close, Layout.moveTo, hl, hnewline]
    · simp [s₁, Layout.close, Layout.moveTo, hl, hindent]
  rw [hbehind.atLine_eq] at hscan
  exact hands_congr (hbehind.config.trans h.config.symm) hscan (hmore _ hbehind)

/-- What is left is the ends of the levels, and the end. -/
theorem Behind.hands {n : Nat} (h : s.Behind cfg n)
    (hk : n ≠ 0 → cfg.ignored.covers .outdent = false) :
    s.Hands (List.replicate n (.outdent, []) ++ [(.eof, [])]) := by
  induction n generalizing s with
  | zero =>
    have hscan : s.scan = (s.eofToken, s) := by
      rw [scan, pop?_eq_none.2 ⟨h.outdents, h.newline, h.indent⟩]
      simp [h.done]
    exact ⟨_, _, nextToken_of_scan hscan rfl, rfl, trivial⟩
  | succ n ih =>
    have hscan : s.scan = (.synthetic .outdent s.layout.line s.layout.col,
        { s with layout := { s.layout with outdents := s.layout.outdents - 1 } }) := by
      rw [scan, Layout.pop?, if_pos (by rw [h.outdents]; exact Nat.succ_pos n)]
    refine ⟨_, _, nextToken_of_scan hscan (h.config ▸ hk (Nat.succ_ne_zero n)), rfl, ?_⟩
    refine ih ⟨h.config, h.done, ?_, h.newline, h.indent⟩ fun _ => hk (Nat.succ_ne_zero n)
    rw [h.outdents]
    rfl

/-- A scanner hands out all its tokens if the last of these is the end. -/
theorem Hands.tokens_eq {s : Scanner} (h : s.Hands (toks ++ [(.eof, [])]))
    (hne : ∀ tok ∈ toks, tok.1 ≠ .eof) :
    s.tokens.map (fun t => (t.kind, t.text)) = toks ++ [(.eof, [])] := by
  unfold tokens
  induction toks generalizing s with
  | nil =>
    obtain ⟨t, s', hnext, ht, -⟩ := h
    have hkind : t.kind = .eof := congrArg Prod.fst ht
    rw [stream, hnext]
    simpa [hkind] using ht
  | cons tok toks ih =>
    obtain ⟨t, s', hnext, rfl, hrest⟩ := h
    have hkind : t.kind ≠ .eof := hne _ List.mem_cons_self
    rw [stream, hnext]
    simp only [hkind, dif_neg, not_false_eq_true, List.map_cons, List.cons_append]
    rw [ih hrest fun tok h => hne tok (List.mem_cons_of_mem _ h)]

/-! ## Flat text -/

/-- The kind of a line break, with no text. -/
def breakToken : Kind × List Char :=
  (.newline, [])

/-- A line that starts at the margin, and the tokens it is cut into. -/
structure CutsLine (cfg : Config) (line : List Char) (toks : List (Kind × List Char)) : Prop where
  visible : ∃ c cs, line = c :: cs ∧ isBlank c = false ∧
    ∀ rest, comment? cfg c (cs ++ '\n' :: rest) = none
  lexes : ∀ rest, Lexes cfg true (line ++ '\n' :: rest) toks ('\n' :: rest)
  nonempty : toks ≠ []

/-- Lines that each start at the margin are handed out one after the other, with line breaks
    between them. -/
theorem At.flat {lines : List (List Char × List (Kind × List Char))} {line : List Char}
    (hl : CutsLine cfg line toks) (hlines : ∀ x ∈ lines, CutsLine cfg x.1 x.2)
    (hk : cfg.ignored.covers .newline = false) (hp : l.pop? = none) (hs : l.started = true)
    (hbase : l.base = 0) (hinner : l.inner = [])
    (h : s.At cfg true l (line ++ '\n' :: lines.flatMap fun x => x.1 ++ ['\n'])) :
    s.Hands (toks ++ (lines.flatMap fun x => breakToken :: x.2) ++ [(.eof, [])]) := by
  rw [List.append_assoc]
  induction lines generalizing s line toks l with
  | nil =>
    refine h.lexes hp hs (hl.lexes _) hl.nonempty fun s' hs' => hs'.ends hp hs fun s'' hs'' => ?_
    rw [hinner] at hs''
    exact hs''.hands (absurd rfl)
  | cons x lines ih =>
    have hx := hlines x List.mem_cons_self
    obtain ⟨c, cs, hc, hblank, hcomment⟩ := hx.visible
    refine h.lexes hp hs (hl.lexes _) hl.nonempty fun s' hs' => ?_
    rw [List.flatMap_cons, List.append_assoc, List.singleton_append] at hs'
    have hs' : s'.At cfg false l ('\n' :: (List.replicate 0 ' ' ++ c ::
        (cs ++ '\n' :: lines.flatMap fun x => x.1 ++ ['\n']))) := by
      rw [hc] at hs'
      exact hs'
    refine hs'.lineBreak hp hs hblank (hcomment _) fun s'' hs'' => ?_
    -- at the margin, the line break is all that waits
    obtain ⟨houtdents, hnewline, hindent⟩ := pop?_eq_none.1 hp
    have henter : l.enter 0 = { l with newline := true } := by
      simp [Layout.enter, Layout.align, Layout.popLevels, Layout.top, hs, hbase, hinner]
    have hpop : (l.enter 0).pop? = some (.synthetic .newline l.line l.col, l) := by
      rw [henter, Layout.pop?]
      cases l
      simp_all
    simp only [List.flatMap_cons, List.cons_append, List.append_assoc]
    refine hs''.pop hpop hk fun s₃ hs₃ => ?_
    exact ih hx (fun y hy => hlines y (List.mem_cons_of_mem _ hy)) hp hs hbase hinner (by rwa [hc])

/-- A text of lines that each start at the margin. -/
theorem ofText_flat {lines : List (List Char × List (Kind × List Char))} {line : List Char}
    (hl : CutsLine cfg line toks) (hlines : ∀ x ∈ lines, CutsLine cfg x.1 x.2)
    (hk : cfg.ignored.covers .newline = false) :
    (ofText cfg (line ++ '\n' :: lines.flatMap fun x => x.1 ++ ['\n'])).Hands
      (toks ++ (lines.flatMap fun x => breakToken :: x.2) ++ [(.eof, [])]) := by
  obtain ⟨c, cs, hc, hblank, hcomment⟩ := hl.visible
  rw [hc, List.cons_append]
  refine ofText_hands (n := 0) hblank (hcomment _) fun s' hs' => ?_
  exact At.flat hl hlines hk rfl rfl rfl rfl (by rwa [hc])

end Scanner

end LayoutLR
