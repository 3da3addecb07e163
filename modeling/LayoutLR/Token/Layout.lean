/-
  Layout-aware LR toolkit — indentation levels and the layout tokens they make.

  The levels that are open form a stack of columns.  A line that starts further
  in than the innermost level opens a new one, a line further out closes the
  levels that it leaves; in between, the tokens for this wait to be handed out.

  * `Layout.enter`: a new visible line that starts at some column;
  * `Layout.close`: the end of the code, which closes every level;
  * `Layout.pop?`: the next waiting token: first the ends of levels, then the line
    break, then the new level.
-/
import LayoutLR.Token.Basic

namespace LayoutLR

/-- The number of levels that can be open at a time, the outermost one included. -/
def maxIndentDepth : Nat := 20

/-- The open levels and the layout tokens that wait. -/
structure Layout where
  /-- Whether a visible line was met. -/
  started : Bool := false
  /-- The column of the outermost level. -/
  base : Nat := 0
  /-- The columns of the other open levels, innermost first. -/
  inner : List Nat := []
  /-- How many ends of levels wait. -/
  outdents : Nat := 0
  /-- Whether a line break waits. -/
  newline : Bool := false
  /-- Whether the start of a level waits. -/
  indent : Bool := false
  /-- The line that waiting tokens are placed at. -/
  line : Nat
  /-- The column that waiting tokens are placed at. -/
  col : Nat
deriving DecidableEq, Repr, Inhabited

namespace Layout

/-- Places the waiting tokens. -/
def moveTo (l : Layout) (line col : Nat) : Layout :=
  { l with line, col }

/-- The column of the innermost level. -/
def top (l : Layout) : Nat :=
  l.inner.head?.getD l.base

/-- Opens a level at the given column, unless too many are open. -/
def push (l : Layout) (column : Nat) : Layout :=
  if l.inner.length + 1 = maxIndentDepth then l
  else { l with inner := column :: l.inner, indent := true }

/-- Closes the levels further in than the given column. -/
def popLevels (l : Layout) (column : Nat) : Layout :=
  let closed := (l.inner.takeWhile fun c => decide (column < c)).length
  { l with inner := l.inner.drop closed, outdents := l.outdents + closed }

/-- Brings the levels in line with a line that starts at the given column.  A line left of
    the outermost level moves that level. -/
def align (l : Layout) (column : Nat) : Layout :=
  if l.top < column then l.push column
  else
    let closed := l.popLevels column
    if column < closed.top then { closed with base := column }
    else if closed.top < column then closed.push column
    else closed

/-- A visible line that starts at the given column. -/
def enter (l : Layout) (column : Nat) : Layout :=
  if l.started then { l with newline := true }.align column
  else { l with started := true, base := column }

/-- Whether a line that starts at the given column opens a level too many. -/
def tooDeep (l : Layout) (column : Nat) : Bool :=
  let aligned := if l.top < column then l else l.popLevels column
  l.started && decide (aligned.top < column) && aligned.inner.length + 1 == maxIndentDepth

/-- The end of the code. -/
def close (l : Layout) : Layout :=
  { l with inner := [], outdents := l.outdents + l.inner.length }

/-- The next waiting token. -/
def pop? (l : Layout) : Option (Token × Layout) :=
  if 0 < l.outdents then
    some (.synthetic .outdent l.line l.col, { l with outdents := l.outdents - 1 })
  else if l.newline then
    some (.synthetic .newline l.line l.col, { l with newline := false })
  else if l.indent then
    some (.synthetic .indent l.line l.col, { l with indent := false })
  else none

/-- A bound on the tokens that wait or that open levels will still make. -/
def weight (l : Layout) : Nat :=
  l.inner.length + l.outdents + l.newline.toNat + l.indent.toNat

@[simp]
theorem moveTo_weight (l : Layout) (line col : Nat) : (l.moveTo line col).weight = l.weight :=
  rfl

theorem push_weight_le (l : Layout) (column : Nat) : (l.push column).weight ≤ l.weight + 2 := by
  unfold push
  split
  · omega
  · simp only [weight, List.length_cons, Bool.toNat_true]
    omega

theorem popLevels_weight (l : Layout) (column : Nat) : (l.popLevels column).weight = l.weight := by
  have h := (List.takeWhile_sublist (l := l.inner) fun c => decide (column < c)).length_le
  simp only [popLevels, weight, List.length_drop]
  omega

/-- A new line makes at most a line break and a new level. -/
theorem enter_weight_le (l : Layout) (column : Nat) : (l.enter column).weight ≤ l.weight + 3 := by
  have hn : ({ l with newline := true } : Layout).weight ≤ l.weight + 1 := by
    simp only [weight, Bool.toNat_true]
    omega
  unfold enter
  split
  · unfold align
    split
    · exact Nat.le_trans (push_weight_le ..) (by omega)
    · have hp := popLevels_weight { l with newline := true } column
      dsimp only
      split
      · show (popLevels { l with newline := true } column).weight ≤ _
        omega
      · split
        · exact Nat.le_trans (push_weight_le ..) (by omega)
        · omega
  · show l.weight ≤ _
    omega

/-- The first line makes no token. -/
theorem enter_weight_first (l : Layout) (column : Nat) (h : l.started = false) :
    (l.enter column).weight = l.weight := by
  simp [enter, h, weight]

theorem close_weight (l : Layout) : l.close.weight = l.weight := by
  simp only [close, weight, List.length_nil]
  omega

theorem pop?_weight_lt {l l' : Layout} {t : Token} (h : l.pop? = some (t, l')) :
    l'.weight < l.weight := by
  unfold pop? at h
  split at h
  · simp only [Option.some.injEq, Prod.mk.injEq] at h
    rw [← h.2]
    simp only [weight]
    omega
  · split at h
    · rename_i hn
      simp only [Option.some.injEq, Prod.mk.injEq] at h
      rw [← h.2]
      simp [weight, hn]
    · split at h
      · rename_i hi
        simp only [Option.some.injEq, Prod.mk.injEq] at h
        rw [← h.2]
        simp [weight, hi]
      · simp at h

end Layout

end LayoutLR
