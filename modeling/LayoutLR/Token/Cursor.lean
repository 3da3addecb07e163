/-
  Layout-aware LR toolkit — places in linearized code.

  A cursor stands before some character of a run of code and knows its line and
  column; a place is a cursor together with the runs that are still to come.
  Runs follow each other like lines: no token reaches from one into the next.

  * `Cursor.advance`: goes over some characters (`advance_rest`);
  * `Place.nextVisible`: goes to the first visible character at or below the
    start of a line, over blank lines and ignored comments, and tells the column
    at which that line starts;
  * `Place.weight`: bounds how far a place can still move.
-/
import LayoutLR.Document.Code
import LayoutLR.Token.Lexeme
import LayoutLR.Total

namespace LayoutLR

open Text

/-! ## Cursors -/

/-- A place inside a run of code. -/
structure Cursor where
  /-- The characters from here to the end of the run. -/
  rest : List Char
  /-- The bytes of the run before this place. -/
  pos : Nat
  line : Nat
  col : Nat
deriving DecidableEq, Repr, Inhabited

namespace Cursor

/-- Goes over one character. -/
def step (cur : Cursor) : Cursor :=
  match cur.rest with
  | [] => cur
  | c :: cs =>
    if c = '\n' then ⟨cs, cur.pos + c.utf8Size, cur.line + 1, 0⟩
    else ⟨cs, cur.pos + c.utf8Size, cur.line, column cur.col c⟩

/-- Goes over `n` characters. -/
def advance : Nat → Cursor → Cursor
  | 0, cur => cur
  | n + 1, cur => advance n cur.step

/-- Goes over blanks, but not over a line break. -/
def skipBlanks (cur : Cursor) : Cursor :=
  cur.advance (cur.rest.takeWhile fun c => isBlank c && c != '\n').length

theorem step_rest (cur : Cursor) : cur.step.rest = cur.rest.drop 1 := by
  unfold step
  split
  · rename_i h
    simp [h]
  · rename_i h
    split <;> simp [h]

/-- Going over characters drops them. -/
@[simp]
theorem advance_rest (n : Nat) (cur : Cursor) : (cur.advance n).rest = cur.rest.drop n := by
  induction n generalizing cur with
  | zero => rfl
  | succ n ih => simp [advance, ih, step_rest]

theorem skipBlanks_length_le (cur : Cursor) : cur.skipBlanks.rest.length ≤ cur.rest.length := by
  simp [skipBlanks]

/-- Goes over ignored comments, and the blanks after each of them. -/
def skipComments (cfg : Config) (cur : Cursor) : Cursor :=
  match _h : cur.rest with
  | [] => cur
  | c :: cs =>
    match comment? cfg c cs with
    | some (kind, n) =>
      if cfg.ignored.covers kind then
        skipComments cfg (cur.advance (n + 1)).skipBlanks
      else cur
    | none => cur
termination_by cur.rest.length
decreasing_by
  have h₁ := skipBlanks_length_le (cur.advance (n + 1))
  simp only [advance_rest, _h, List.drop_succ_cons, List.length_drop] at h₁
  simp only [_h, List.length_cons]
  omega

theorem skipComments_length_le (cfg : Config) (cur : Cursor) :
    (cur.skipComments cfg).rest.length ≤ cur.rest.length := by
  fun_induction skipComments cfg cur with
  | case1 => simp
  | case2 cur c cs h kind n _ _ ih =>
    have h₁ := skipBlanks_length_le (cur.advance (n + 1))
    simp only [advance_rest, List.length_drop] at h₁
    omega
  | case3 => simp
  | case4 => simp

end Cursor

/-! ## Places -/

/-- A place in a list of runs. -/
structure Place where
  /-- The number of the current run, from zero. -/
  node : Nat
  /-- The current run and those after it; empty at the end. -/
  ahead : List CodeNode
  cursor : Cursor
deriving Repr

namespace Place

/-- The start of a list of runs. -/
def start (code : List CodeNode) : Place :=
  match code with
  | [] => ⟨0, [], ⟨[], 0, 1, 0⟩⟩
  | node :: _ => ⟨0, code, ⟨node.text, 0, node.line, 0⟩⟩

/-- The start of the run after the current one; at the end, the line stays that of
    `line`. -/
def nextNode (p : Place) (line : Nat) : Place :=
  match p.ahead.tail with
  | [] => ⟨p.node + 1, [], ⟨[], 0, line, 0⟩⟩
  | node :: later => ⟨p.node + 1, node :: later, ⟨node.text, 0, node.line, 0⟩⟩

/-- A bound on the steps that are left: the characters and the runs to come. -/
def weight (p : Place) : Nat :=
  p.cursor.rest.length + p.ahead.length + total (p.ahead.tail.map fun n => n.text.length)

theorem nextNode_weight_lt (p : Place) (line : Nat) (h : p.ahead ≠ []) :
    (p.nextNode line).weight < p.weight := by
  obtain ⟨node, ahead, cursor⟩ := p
  match ahead with
  | [] => exact absurd rfl h
  | [a] => simp [nextNode, weight]
  | a :: b :: rest => simp [nextNode, weight]; omega

theorem nextNode_weight_le (p : Place) (line : Nat) : (p.nextNode line).weight ≤ p.weight := by
  by_cases h : p.ahead = []
  · simp [nextNode, weight, h]
  · exact Nat.le_of_lt (nextNode_weight_lt p line h)

/-- The first visible character of a line: over the block indent, blanks and ignored
    comments.  Also gives the column at which the line starts. -/
def enterLine (cfg : Config) (node : CodeNode) (cur : Cursor) : Cursor × Nat :=
  let stripped := cur.advance (if node.needsStrip then blockIndent cur.rest else 0)
  let front := { stripped with col := node.indent }.skipBlanks
  (front.skipComments cfg, front.col)

theorem enterLine_length_le (cfg : Config) (node : CodeNode) (cur : Cursor) :
    (enterLine cfg node cur).1.rest.length ≤ cur.rest.length := by
  simp only [enterLine]
  refine Nat.le_trans (Cursor.skipComments_length_le ..) ?_
  refine Nat.le_trans (Cursor.skipBlanks_length_le _) ?_
  simp

/-- Goes from the start of a line to the first visible character, there or further down,
    with the column at which its line starts; without one, to the end. -/
def nextVisible (cfg : Config) (p : Place) : Place × Option Nat :=
  match _h : p.ahead with
  | [] => (p, none)
  | node :: _ =>
    if p.cursor.rest.isEmpty then nextVisible cfg (p.nextNode p.cursor.line)
    else
      match _e : enterLine cfg node p.cursor with
      | (cur, indent) =>
        match _r : cur.rest with
        | [] => nextVisible cfg (p.nextNode cur.line)
        | c :: _ =>
          if c = '\n' then nextVisible cfg { p with cursor := cur.step }
          else ({ p with cursor := cur }, some indent)
termination_by p.weight
decreasing_by
  · exact nextNode_weight_lt _ _ (by simp [_h])
  · exact nextNode_weight_lt _ _ (by simp [_h])
  · have h₁ := enterLine_length_le cfg node p.cursor
    have h₂ := Cursor.step_rest cur
    simp only [_e, _r, List.length_cons] at h₁
    simp only [weight, h₂, _r, List.drop_succ_cons, List.drop_zero]
    omega

theorem nextVisible_weight_le (cfg : Config) (p : Place) :
    (p.nextVisible cfg).1.weight ≤ p.weight := by
  fun_induction nextVisible cfg p with
  | case1 => simp
  | case2 p node _ h _ ih => exact Nat.le_trans ih (nextNode_weight_le ..)
  | case3 p node _ h _ cur _ _ _ ih => exact Nat.le_trans ih (nextNode_weight_le ..)
  | case4 p node _ h _ cur indent e rest r ih =>
    have h₁ := enterLine_length_le cfg node p.cursor
    have h₂ := Cursor.step_rest cur
    simp only [e, r, List.length_cons] at h₁
    simp only [weight, h₂, r, List.drop_succ_cons, List.drop_zero] at ih ⊢
    omega
  | case5 p node _ h _ cur indent e c rest r =>
    have h₁ := enterLine_length_le cfg node p.cursor
    simp only [e] at h₁
    simp only [weight]
    omega

/-- Leaves the current line: over its line break, or into the next run. -/
def leaveLine (p : Place) : Place :=
  match p.cursor.rest with
  | [] => p.nextNode p.cursor.line
  | _ :: _ => { p with cursor := p.cursor.step }

theorem leaveLine_weight_lt (p : Place) (h : p.ahead ≠ []) : p.leaveLine.weight < p.weight := by
  unfold leaveLine
  split
  · exact nextNode_weight_lt _ _ h
  · rename_i r
    simp [weight, Cursor.step_rest, r]

end Place

end LayoutLR
