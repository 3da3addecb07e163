/-
  Layout-aware LR toolkit — reading tokens from linearized code.

  A scanner hands out one token after the other.  Between the lines it hands out
  layout tokens: a line further in gives a line break and the start of a level, a
  line at the same column a line break, and a line further out one end per level
  that it leaves, then a line break.  Nothing comes before the first line, and
  the end of the code closes every open level.

  * `scan`: the next token, ignored or not;
  * `nextToken`: the next token that is not ignored; after the end, always the
    same one;
  * `takeUntil`: raw text up to a marker;
  * `tokens`: all tokens up to the end.

  Every token before the end makes the scanner lighter (`scan_lighter`), so that
  reading ends.
-/
import LayoutLR.Token.Cursor
import LayoutLR.Token.Layout

namespace LayoutLR

open Text

/-- A scanner over some code. -/
structure Scanner where
  config : Config
  place : Place
  layout : Layout
  /-- Whether the next token is the first on its line. -/
  lineFirst : Bool := false
  /-- Whether the end of the code was reached. -/
  done : Bool := false
  /-- Whether the sequence of tokens was handed out to its end. -/
  ended : Bool := false
  /-- The lines at which more levels were opened than can be tracked, newest first. -/
  tooDeep : List Nat := []

namespace Scanner

/-- A scanner at the start of the code. -/
def ofCode (config : Config) (code : List CodeNode) : Scanner :=
  let place := Place.start code
  { config, place, layout := { line := place.cursor.line, col := 0 } }

/-- A scanner at the start of plain text. -/
def ofText (config : Config) (text : List Char) : Scanner :=
  ofCode config [.ofText text]

/-- The warning about a line with too many levels. -/
def warning (line : Nat) : String :=
  s!"line {line}: indentation nested deeper than {maxIndentDepth} levels"

/-! ## Single tokens -/

/-- The token at the end of the code. -/
def eofToken (s : Scanner) : Token :=
  .synthetic .eof s.layout.line s.layout.col

/-- Cuts off the token that starts with the visible character `c`. -/
def cut (s : Scanner) (c : Char) (cs : List Char) : Token × Scanner :=
  let cur := s.place.cursor
  let (kind, more) := lexeme s.config s.lineFirst c cs
  (⟨kind, (c :: cs).take (more + 1), s.place.node, cur.pos, cur.line, cur.col⟩,
    { s with place := { s.place with cursor := cur.advance (more + 1) }, lineFirst := false })

/-- Goes to the next visible line and lets its layout tokens wait. -/
def openLine (s : Scanner) : Scanner :=
  match s.place.nextVisible s.config with
  | (place, some column) =>
    let cur := place.cursor
    { s with
      place
      layout := (s.layout.moveTo cur.line cur.col).enter column
      lineFirst := true
      tooDeep := if s.layout.tooDeep column then cur.line :: s.tooDeep else s.tooDeep }
  | (place, none) =>
    let cur := place.cursor
    { s with
      place
      layout := (s.layout.moveTo cur.line cur.col).close
      done := true }

/-- The next token at the start of a line: a waiting one, the end, or the first of the
    line. -/
def atLine (s : Scanner) : Token × Scanner :=
  match s.layout.pop? with
  | some (t, layout) => (t, { s with layout })
  | none =>
    if s.done then (s.eofToken, s)
    else match s.place.cursor.rest with
      | [] => (s.eofToken, s)
      | c :: cs => s.cut c cs

/-- The next token, whether it is ignored or not. -/
def scan (s : Scanner) : Token × Scanner :=
  match s.layout.pop? with
  | some (t, layout) => (t, { s with layout })
  | none =>
    if s.done then (s.eofToken, s)
    else if !s.layout.started then s.openLine.atLine
    else
      let s₁ := { s with place := { s.place with cursor := s.place.cursor.skipBlanks } }
      match s₁.place.cursor.rest with
      | [] => { s₁ with place := s₁.place.leaveLine }.openLine.atLine
      | c :: cs =>
        if c = '\n' then { s₁ with place := s₁.place.leaveLine }.openLine.atLine
        else s₁.cut c cs

/-! ## Progress -/

/-- A bound on the tokens that are left. -/
def weight (s : Scanner) : Nat :=
  4 * (s.place.weight + (!s.done).toNat) + s.layout.weight

/-- A token is handed out and the scanner is lighter than `w`, or the end is reached and it
    is no heavier. -/
def Lighter (w : Nat) (r : Token × Scanner) : Prop :=
  r.2.weight < w ∨ r.1.kind = .eof ∧ r.2.weight ≤ w

theorem Lighter.mono {v w : Nat} {r : Token × Scanner} (h : Lighter v r) (hvw : v ≤ w) :
    Lighter w r := by
  rcases h with h | ⟨h, h'⟩
  · exact .inl (Nat.lt_of_lt_of_le h hvw)
  · exact .inr ⟨h, Nat.le_trans h' hvw⟩

theorem pop_lighter {s : Scanner} {t : Token} {layout : Layout}
    (h : s.layout.pop? = some (t, layout)) : Lighter s.weight (t, { s with layout }) := by
  have := Layout.pop?_weight_lt h
  left
  simp only [weight]
  omega

theorem cut_lighter {s : Scanner} {c : Char} {cs : List Char} (h : s.place.cursor.rest = c :: cs) :
    Lighter s.weight (s.cut c cs) := by
  left
  simp only [cut, weight, Place.weight, Cursor.advance_rest, h, List.drop_succ_cons,
    List.length_drop, List.length_cons]
  omega

theorem atLine_lighter (s : Scanner) : Lighter s.weight s.atLine := by
  unfold atLine
  split
  · rename_i h
    exact pop_lighter h
  · split
    · exact .inr ⟨rfl, Nat.le_refl _⟩
    · split
      · exact .inr ⟨rfl, Nat.le_refl _⟩
      · rename_i h
        exact cut_lighter h

theorem openLine_weight_le (s : Scanner) : s.openLine.weight ≤ s.weight + 3 := by
  have h := Place.nextVisible_weight_le s.config s.place
  unfold openLine
  split <;> rename_i e <;> rw [e] at h <;> dsimp only at h
  · rename_i place column
    have hl := (s.layout.moveTo place.cursor.line place.cursor.col).enter_weight_le column
    simp only [weight, Layout.moveTo_weight] at hl ⊢
    omega
  · simp only [weight, Layout.close_weight, Layout.moveTo_weight, Bool.not_true, Bool.toNat_false]
    omega

theorem openLine_weight_first {s : Scanner} (hs : s.layout.started = false) :
    s.openLine.weight ≤ s.weight := by
  have h := Place.nextVisible_weight_le s.config s.place
  unfold openLine
  split <;> rename_i e <;> rw [e] at h <;> dsimp only at h
  · rename_i place column
    have hl := (s.layout.moveTo place.cursor.line place.cursor.col).enter_weight_first column hs
    simp only [weight, hl, Layout.moveTo_weight]
    omega
  · simp only [weight, Layout.close_weight, Layout.moveTo_weight, Bool.not_true, Bool.toNat_false]
    omega

theorem openLine_weight_end {s : Scanner} (ha : s.place.ahead = []) (hd : s.done = false) :
    s.openLine.weight < s.weight := by
  have e : s.place.nextVisible s.config = (s.place, none) := by
    rw [Place.nextVisible]
    split
    · rfl
    · rename_i h
      simp [ha] at h
  unfold openLine
  rw [e]
  simp only [weight, Layout.close_weight, Layout.moveTo_weight, hd, Bool.not_true, Bool.not_false,
    Bool.toNat_false, Bool.toNat_true]
  omega

/-- Leaving a line for the next one makes the scanner lighter. -/
theorem leaveLine_lighter {s : Scanner} (hd : s.done = false) :
    ({ s with place := s.place.leaveLine } : Scanner).openLine.weight < s.weight := by
  by_cases ha : s.place.ahead = []
  · have hl : s.place.leaveLine.ahead = [] ∧ s.place.leaveLine.weight ≤ s.place.weight := by
      unfold Place.leaveLine
      split
      · exact ⟨by simp [Place.nextNode, ha], Place.nextNode_weight_le ..⟩
      · rename_i r
        exact ⟨ha, by simp [Place.weight, Cursor.step_rest, r]⟩
    have := openLine_weight_end (s := { s with place := s.place.leaveLine }) hl.1 hd
    have hw := hl.2
    simp only [weight] at this ⊢
    omega
  · have h₁ := Place.leaveLine_weight_lt s.place ha
    have h₂ := openLine_weight_le { s with place := s.place.leaveLine }
    simp only [weight] at h₂ ⊢
    omega

/-- Every token before the end makes the scanner lighter. -/
theorem scan_lighter (s : Scanner) : Lighter s.weight s.scan := by
  unfold scan
  split
  · rename_i h
    exact pop_lighter h
  · split
    · exact .inr ⟨rfl, Nat.le_refl _⟩
    · rename_i hd
      have hd : s.done = false := by simpa using hd
      split
      · rename_i hs
        exact (atLine_lighter _).mono (openLine_weight_first (by simpa using hs))
      · let s₁ : Scanner :=
          { s with place := { s.place with cursor := s.place.cursor.skipBlanks } }
        have hw : s₁.weight ≤ s.weight := by
          have := Cursor.skipBlanks_length_le s.place.cursor
          simp only [s₁, weight, Place.weight]
          omega
        have hl := Nat.le_trans (Nat.le_of_lt (leaveLine_lighter (s := s₁) hd)) hw
        dsimp only
        split
        · exact (atLine_lighter _).mono hl
        · rename_i h
          split
          · exact (atLine_lighter _).mono hl
          · exact (cut_lighter (s := s₁) h).mono hw

/-! ## Reading -/

/-- The next token that is not ignored. -/
def nextToken (s : Scanner) : Token × Scanner :=
  match _h : s.scan with
  | (t, s₁) => if _c : s.config.ignored.covers t.kind then s₁.nextToken else (t, s₁)
termination_by s.weight
decreasing_by
  have h := scan_lighter s
  rw [_h] at h
  rcases h with h | ⟨h, _⟩
  · exact h
  · simp only at h
    simp [h, Ignored.covers] at _c

/-- Reading a token makes the scanner lighter, until the end. -/
theorem nextToken_lighter (s : Scanner) : Lighter s.weight s.nextToken := by
  fun_induction nextToken s with
  | case1 s t s₁ e c ih =>
    have h := scan_lighter s
    rw [e] at h
    rcases h with h | ⟨h, _⟩
    · exact ih.mono (Nat.le_of_lt h)
    · simp only at h
      simp [h, Ignored.covers] at c
  | case2 s t s₁ e c =>
    have h := scan_lighter s
    rwa [e] at h

/-- The raw text up to `marker`, which is gone over as well; the text has to lie in the
    current run.  Without the marker nothing is read. -/
def takeUntil? (s : Scanner) (marker : List Char) : Option (List Char × Scanner) :=
  let cur := s.place.cursor
  (find marker cur.rest).map fun n =>
    (cur.rest.take n,
      { s with place := { s.place with cursor := cur.advance (n + marker.length) } })

theorem takeUntil?_weight_le {s s' : Scanner} {marker text : List Char}
    (h : s.takeUntil? marker = some (text, s')) : s'.weight ≤ s.weight := by
  simp only [takeUntil?, Option.map_eq_some_iff, Prod.mk.injEq] at h
  obtain ⟨n, _, _, rfl⟩ := h
  simp only [weight, Place.weight, Cursor.advance_rest, List.length_drop]
  omega

/-- The next token of the sequence that ends after its first token at the end. -/
def next? (s : Scanner) : Option Token × Scanner :=
  if s.ended then (none, s)
  else
    let (t, s₁) := s.nextToken
    (some t, if t.kind = .eof then { s₁ with ended := true } else s₁)

/-- Every token up to and including the one at the end, each with the lines that were
    nested too deep on the way to it. -/
def stream (s : Scanner) : List (Token × List Nat) :=
  match _h : s.nextToken with
  | (t, s₁) =>
    if _e : t.kind = .eof then [(t, s₁.tooDeep.reverse)]
    else (t, s₁.tooDeep.reverse) :: ({ s₁ with tooDeep := [] } : Scanner).stream
termination_by s.weight
decreasing_by
  have h := nextToken_lighter s
  rw [_h] at h
  rcases h with h | ⟨h, _⟩
  · exact h
  · exact absurd h _e

/-- Every token up to and including the one at the end. -/
def tokens (s : Scanner) : List Token :=
  s.stream.map Prod.fst

end Scanner

end LayoutLR
