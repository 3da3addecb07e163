/-
  Layout-aware LR toolkit — the tokens of one line.

  Behind a token that is a piece of the code, nothing waits to be handed out.  If the
  levels are dropped, the next token is then either another piece of the same line,
  which does not start further up, or the line break or the end.

  * `Scanner.InLine`: a scanner behind a piece of the code;
  * `Scanner.nextToken_inLine`: what comes next in a line;
  * `Scanner.nextToken_word`: how words begin.
-/
import LayoutLR.Proofs.Token.Steps

namespace LayoutLR

open Text

/-- Whether a token ends a statement. -/
def Kind.Ends (k : Kind) : Prop :=
  k = .newline ∨ k = .eof

/-! ## Lines of a cursor -/

namespace Cursor

theorem line_le_step (cur : Cursor) : cur.line ≤ cur.step.line := by
  unfold step
  split
  · exact Nat.le_refl _
  · split
    · exact Nat.le_succ _
    · exact Nat.le_refl _

theorem line_le_advance (n : Nat) (cur : Cursor) : cur.line ≤ (cur.advance n).line := by
  induction n generalizing cur with
  | zero => exact Nat.le_refl _
  | succ n ih => exact Nat.le_trans cur.line_le_step (ih cur.step)

end Cursor

/-! ## How words begin -/

theorem stringLexeme_ne_word (first : Bool) (quote : Char) (cs : List Char) :
    (stringLexeme first quote cs).1 ≠ .word := by
  have hstring : (stringMore quote cs).1 ≠ .word := by
    fun_induction stringMore quote cs <;> simp_all
  have hmulti (fresh : Bool) (cs : List Char) : (multiStringMore quote fresh cs).1 ≠ .word := by
    fun_induction multiStringMore quote fresh cs <;> simp_all
  unfold stringLexeme
  split
  · exact hmulti true _
  · exact hstring

theorem comment?_ne_word {cfg : Config} {c : Char} {cs : List Char} {kind : Kind} {n : Nat}
    (h : comment? cfg c cs = some (kind, n)) : kind ≠ .word := by
  have hblock (cs : List Char) : (blockCommentMore cs).1 ≠ .word := by
    fun_induction blockCommentMore cs <;> simp_all
  unfold comment? at h
  split at h
  · cases h
    simp
  split at h
  · cases h
    exact hblock _
  · cases h

/-- A word starts with a character that starts words. -/
theorem startsWord_of_lexeme {cfg : Config} {first : Bool} {c : Char} {cs : List Char}
    (h : (lexeme cfg first c cs).1 = .word) : cfg.startsWord c = true := by
  unfold lexeme at h
  split at h
  · cases h
  split at h
  · assumption
  split at h
  · exact absurd h (stringLexeme_ne_word _ _ _)
  split at h
  · rename_i hcomment
    exact absurd h (comment?_ne_word hcomment)
  split at h
  · unfold markLexeme at h
    dsimp only at h
    split at h
    · cases h
    split at h
    · cases h
    · cases h
  · cases h

/-! ## Line breaks -/

namespace Layout

theorem newline_push (l : Layout) (column : Nat) : (l.push column).newline = l.newline := by
  unfold push
  split <;> rfl

/-- A line below the first one has a line break in front. -/
theorem newline_enter {l : Layout} (h : l.started = true) (column : Nat) :
    (l.enter column).newline = true := by
  unfold enter align
  rw [if_pos h]
  split
  · exact newline_push _ _
  dsimp only
  split
  · rfl
  split
  · exact newline_push _ _
  · rfl

end Layout

namespace Scanner

variable {s : Scanner}

/-- A line break comes next, or the end, but for the ends of levels. -/
def AtBreak (s : Scanner) : Prop :=
  s.layout.newline = true ∨ s.done = true ∧ s.layout.indent = false

/-- At a line break, ends of levels are handed out first. -/
theorem AtBreak.atLine (h : s.AtBreak) :
    s.atLine.1.kind = .outdent ∧ s.atLine.2.AtBreak ∨ s.atLine.1.kind.Ends := by
  unfold Scanner.atLine Layout.pop?
  by_cases hout : 0 < s.layout.outdents
  · rw [if_pos hout]
    exact Or.inl ⟨rfl, h⟩
  rw [if_neg hout]
  rcases h with hnewline | ⟨hdone, hindent⟩
  · rw [if_pos hnewline]
    exact Or.inr (Or.inl rfl)
  by_cases hnewline : s.layout.newline = true
  · rw [if_pos hnewline]
    exact Or.inr (Or.inl rfl)
  rw [if_neg hnewline, if_neg (by simp [hindent])]
  dsimp only
  rw [if_pos hdone]
  exact Or.inr (Or.inr rfl)

theorem AtBreak.scan_eq (h : s.AtBreak) : s.scan = s.atLine := by
  have hwaits : s.waits = true := by
    rcases h with h | h
    · cases hpop : s.layout.pop? with
      | none => exact absurd (pop?_eq_none.1 hpop).2.1 (by simp [h])
      | some r => simp [waits, hpop]
    · simp [waits, h.1]
  rw [Scanner.scan_eq, ready, if_pos hwaits]

/-- Whether the starts and ends of levels are dropped, and nothing else of the layout. -/
structure DropsLevels (cfg : Config) : Prop where
  indent : cfg.ignored.covers .indent = true
  outdent : cfg.ignored.covers .outdent = true
  newline : cfg.ignored.covers .newline = false

theorem DropsLevels.ends {cfg : Config} (hc : DropsLevels cfg) {k : Kind} (hk : k.Ends) :
    cfg.ignored.covers k = false := by
  rcases hk with rfl | rfl
  · exact hc.newline
  · rfl

/-- If ends of levels are dropped, the line break comes next, or the end. -/
theorem AtBreak.nextToken (hc : DropsLevels s.config) (h : s.AtBreak) :
    s.nextToken.1.kind.Ends := by
  have hline := h.atLine
  rw [← h.scan_eq] at hline
  fun_induction Scanner.nextToken s with
  | case1 s t s₁ e c ih =>
    have hconfig := s.scan_config
    rw [e] at hline hconfig
    rcases hline with ⟨-, hbreak⟩ | hends
    · have hnext := hbreak.atLine
      rw [← hbreak.scan_eq] at hnext
      exact ih (hconfig ▸ hc) hbreak hnext
    · rw [hc.ends hends] at c
      cases c
  | case2 s t s₁ e c =>
    rw [e] at hline
    rcases hline with ⟨hkind, -⟩ | hends
    · exact absurd (hkind ▸ hc.outdent) c
    · exact hends

/-! ## Inside a line -/

/-- A scanner behind a piece of the code: nothing waits, and the code goes on. -/
structure InLine (s : Scanner) : Prop where
  pop : s.layout.pop? = none
  started : s.layout.started = true
  undone : s.done = false

/-- Behind its last piece, a line is at a break. -/
theorem InLine.openLine (h : s.InLine) (place : Place) :
    ({ s with place } : Scanner).openLine.AtBreak := by
  have hstarted (line col : Nat) : (s.layout.moveTo line col).started = true := h.started
  unfold Scanner.openLine
  split
  · exact Or.inl (Layout.newline_enter (hstarted _ _) _)
  · exact Or.inr ⟨rfl, (pop?_eq_none.1 h.pop).2.2⟩

/-- A token that is cut off leads on inside the line. -/
theorem InLine.cut (h : s.InLine) (c : Char) (cs : List Char) :
    (s.cut c cs).2.InLine ∧ (s.cut c cs).1.line ≤ (s.cut c cs).2.place.cursor.line :=
  ⟨⟨h.pop, h.started, h.undone⟩, Cursor.line_le_advance _ _⟩

/-- What a call does inside a line: it cuts off a piece that does not start further up, or the
    line is through. -/
theorem InLine.scan (h : s.InLine) :
    s.place.cursor.line ≤ s.scan.1.line ∧ s.scan.2.InLine ∧
        s.scan.1.line ≤ s.scan.2.place.cursor.line ∨
      s.scan.1.kind = .outdent ∧ s.scan.2.AtBreak ∨ s.scan.1.kind.Ends := by
  have hbreak (place : Place) := (h.openLine place).atLine
  have hskip : s.place.cursor.line ≤ s.place.cursor.skipBlanks.line := Cursor.line_le_advance _ _
  unfold Scanner.scan
  rw [h.pop]
  dsimp only
  rw [if_neg (by simp [h.undone]), if_neg (by simp [h.started])]
  split
  · exact Or.inr (hbreak _)
  · split
    · exact Or.inr (hbreak _)
    · let s₁ : Scanner := { s with place := { s.place with cursor := s.place.cursor.skipBlanks } }
      have h₁ : s₁.InLine := ⟨h.pop, h.started, h.undone⟩
      exact Or.inl ⟨hskip, h₁.cut _ _⟩

/-- **What comes next in a line** does not start further up, unless it is the line break or the
    end. -/
theorem InLine.nextToken (hc : DropsLevels s.config) (h : s.InLine) :
    s.place.cursor.line ≤ s.nextToken.1.line ∧ s.nextToken.2.InLine ∧
        s.nextToken.1.line ≤ s.nextToken.2.place.cursor.line ∨
      s.nextToken.1.kind.Ends := by
  have hscan := h.scan
  fun_induction Scanner.nextToken s with
  | case1 s t s₁ e c ih =>
    have hconfig := s.scan_config
    rw [e] at hscan hconfig
    rcases hscan with ⟨hline, hin, hbelow⟩ | ⟨-, hbreak⟩ | hends
    · rcases ih (hconfig ▸ hc) hin hin.scan with ⟨hline', hnext⟩ | hends
      · exact Or.inl ⟨Nat.le_trans hline (Nat.le_trans hbelow hline'), hnext⟩
      · exact Or.inr hends
    · exact Or.inr (hbreak.nextToken (hconfig ▸ hc))
    · rw [hc.ends hends] at c
      cases c
  | case2 s t s₁ e c =>
    rw [e] at hscan
    rcases hscan with hin | ⟨hkind, -⟩ | hends
    · exact Or.inl hin
    · exact absurd (hkind ▸ hc.outdent) c
    · exact Or.inr hends

/-! ## Pieces of the code -/

/-- What is not the line break or the end is a piece of the code. -/
theorem nextToken_isText (hc : DropsLevels s.config) (h : ¬ s.nextToken.1.kind.Ends) :
    s.nextToken.1.kind.isText = true := by
  fun_induction Scanner.nextToken s with
  | case1 s t s₁ e c ih =>
    have hconfig := s.scan_config
    rw [e] at hconfig
    exact ih (hconfig ▸ hc) h
  | case2 s t s₁ e c =>
    have hindent := hc.indent
    have houtdent := hc.outdent
    dsimp only at h c ⊢
    generalize t.kind = k at h c
    cases k with
    | indent => exact absurd hindent c
    | outdent => exact absurd houtdent c
    | newline => exact absurd (Or.inl rfl) h
    | eof => exact absurd (Or.inr rfl) h
    | _ => rfl

/-- A piece of the code is cut off inside a line. -/
theorem Emits.inLine {t : Token} {s' : Scanner} (h : s.ready.Emits t s')
    (ht : t.kind.isText = true) : s'.InLine ∧ t.line ≤ s'.place.cursor.line := by
  have hreadies := s.readies
  generalize s.opening? = opening, s.ready = r at h hreadies
  cases h with
  | waiting hpop =>
    have := (pop?_isLayout hpop).1
    simp [Kind.isText, this] at ht
  | @text c cs hpop hd hrest =>
    have hstarted : r.layout.started = true := by
      cases hreadies with
      | waits hw => simp [waits, hpop, hd] at hw
      | inLine _ hs => exact hs
      | opens => exact started_enter _ _
      | ends => cases hd
    exact InLine.cut ⟨hpop, hstarted, hd⟩ c cs
  | ended => cases ht

/-- Behind a piece of the code, a scanner is inside a line. -/
theorem nextToken_inLine (ht : s.nextToken.1.kind.isText = true) :
    s.nextToken.2.InLine ∧ s.nextToken.1.line ≤ s.nextToken.2.place.cursor.line := by
  fun_induction Scanner.nextToken s with
  | case1 s t s₁ e c ih => exact ih ht
  | case2 s t s₁ e c =>
    have hemits := s.emits
    rw [e] at hemits
    exact hemits.inLine ht

theorem Emits.word {t : Token} {s' : Scanner} (h : s.Emits t s') (ht : t.kind = .word) :
    ∃ c cs, t.text = c :: cs ∧ s.config.startsWord c = true := by
  cases h with
  | waiting hpop =>
    have := (pop?_isLayout hpop).1
    rw [ht] at this
    cases this
  | @text c cs => exact ⟨c, _, rfl, startsWord_of_lexeme ht⟩
  | ended => cases ht

/-- **Words begin** with a character that starts words. -/
theorem nextToken_word (ht : s.nextToken.1.kind = .word) :
    ∃ c cs, s.nextToken.1.text = c :: cs ∧ s.config.startsWord c = true := by
  fun_induction Scanner.nextToken s with
  | case1 s t s₁ e c ih =>
    have hconfig := s.scan_config
    rw [e] at hconfig
    exact hconfig ▸ ih ht
  | case2 s t s₁ e c =>
    have hemits := s.emits
    rw [e] at hemits
    exact s.readies.config ▸ hemits.word ht

/-- Raw text ends inside a line if it starts there. -/
theorem InLine.takeUntil? {s' : Scanner} {marker text : List Char} (h : s.InLine)
    (hraw : s.takeUntil? marker = some (text, s')) :
    s'.InLine ∧ s.place.cursor.line ≤ s'.place.cursor.line := by
  rw [Scanner.takeUntil?] at hraw
  obtain ⟨n, -, hresult⟩ := Option.map_eq_some_iff.1 hraw
  cases hresult
  exact ⟨⟨h.pop, h.started, h.undone⟩, Cursor.line_le_advance _ _⟩

theorem takeUntil?_config {s' : Scanner} {marker text : List Char}
    (hraw : s.takeUntil? marker = some (text, s')) : s'.config = s.config := by
  rw [Scanner.takeUntil?] at hraw
  obtain ⟨n, -, hresult⟩ := Option.map_eq_some_iff.1 hraw
  cases hresult
  rfl

end Scanner

end LayoutLR
