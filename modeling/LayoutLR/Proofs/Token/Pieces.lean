/-
  Layout-aware LR toolkit — what a scanner goes over besides blanks.

  On its way to the end a scanner hands out tokens, some of which are ignored.  In
  front of a line it also drops ignored comments without making tokens of them.
  Tokens and dropped comments together are the pieces that it cuts the code into.

  * `Cursor.comments`, `Place.comments`: the comments that are dropped on the way to
    the first visible character of a line;
  * `Scanner.pieces`: all tokens and dropped comments up to the end;
  * `nextVisible_next`, `nextVisible_blank` and so on: the search for a visible line,
    line by line, with the comments that are dropped on the way.
-/
import LayoutLR.Proofs.Token.Steps

namespace LayoutLR

open Text

/-! ## Comments in front of a line -/

namespace Cursor

variable {cfg : Config} {cur : Cursor} {n : Nat}

/-- The length of the ignored comment that starts here, if one does. -/
def ignoredComment? (cfg : Config) (cur : Cursor) : Option Nat :=
  match cur.rest with
  | [] => none
  | c :: cs => (comment? cfg c cs).bind fun comment =>
    if cfg.ignored.covers comment.1 then some (comment.2 + 1) else none

theorem ignoredComment?_shorter (h : cur.ignoredComment? cfg = some n) :
    (cur.advance n).skipBlanks.rest.length < cur.rest.length := by
  refine Nat.lt_of_le_of_lt (skipBlanks_length_le _) ?_
  rw [ignoredComment?] at h
  cases hrest : cur.rest with
  | nil =>
    rw [hrest] at h
    cases h
  | cons c cs =>
    rw [hrest] at h
    obtain ⟨comment, -, h⟩ := Option.bind_eq_some_iff.1 h
    split at h
    · cases h
      rw [advance_rest, hrest, List.drop_succ_cons, List.length_drop, List.length_cons]
      omega
    · cases h

theorem ignoredComment?_of_covers {c : Char} {cs : List Char} {kind : Kind}
    (hrest : cur.rest = c :: cs) (hcomment : comment? cfg c cs = some (kind, n))
    (hkind : cfg.ignored.covers kind = true) : cur.ignoredComment? cfg = some (n + 1) := by
  rw [ignoredComment?, hrest]
  dsimp only
  rw [hcomment, Option.bind_some, if_pos hkind]

theorem skipComments_eq (cfg : Config) (cur : Cursor) : cur.skipComments cfg =
    match cur.ignoredComment? cfg with
    | some n => (cur.advance n).skipBlanks.skipComments cfg
    | none => cur := by
  rw [skipComments, ignoredComment?]
  split
  · rename_i hrest
    rw [hrest]
  · rename_i c cs hrest
    rw [hrest]
    dsimp only
    cases hcomment : comment? cfg c cs with
    | none => rfl
    | some comment =>
      dsimp only [Option.bind_some]
      by_cases hk : cfg.ignored.covers comment.1 = true
      · rw [if_pos hk, if_pos hk]
      · rw [if_neg hk, if_neg hk]

/-- The ignored comments from here on, as long as only blanks stand between them. -/
def comments (cfg : Config) (cur : Cursor) : List (List Char) :=
  match _h : cur.ignoredComment? cfg with
  | some n => cur.rest.take n :: comments cfg (cur.advance n).skipBlanks
  | none => []
termination_by cur.rest.length
decreasing_by exact ignoredComment?_shorter _h

theorem comments_some (h : cur.ignoredComment? cfg = some n) :
    cur.comments cfg = cur.rest.take n :: (cur.advance n).skipBlanks.comments cfg := by
  rw [comments]
  split
  · rename_i m hm
    rw [h] at hm
    cases hm
    rfl
  · rename_i hnone
    rw [h] at hnone
    cases hnone

end Cursor

/-! ## Line by line -/

namespace Place

variable {cfg : Config} {p : Place} {node : CodeNode} {later : List CodeNode} {c : Char}
  {cs : List Char}

/-- The first character of a line that is no blank, at its column. -/
def front (node : CodeNode) (cur : Cursor) : Cursor :=
  { cur.advance (if node.needsStrip then blockIndent cur.rest else 0) with
    col := node.indent }.skipBlanks

theorem front_length_le (node : CodeNode) (cur : Cursor) :
    (front node cur).rest.length ≤ cur.rest.length := by
  refine Nat.le_trans (Cursor.skipBlanks_length_le _) ?_
  simp

theorem enterLine_eq (cfg : Config) (node : CodeNode) (cur : Cursor) :
    enterLine cfg node cur = ((front node cur).skipComments cfg, (front node cur).col) :=
  rfl

/-- Behind the front of a line less is left. -/
theorem step_weight_lt (h : (enterLine cfg node p.cursor).1.rest = c :: cs) :
    ({ p with cursor := (enterLine cfg node p.cursor).1.step } : Place).weight < p.weight := by
  have hle := enterLine_length_le cfg node p.cursor
  rw [h, List.length_cons] at hle
  simp only [weight, Cursor.step_rest, h, List.drop_succ_cons, List.drop_zero]
  omega

/-- The comments that are dropped on the way to the first visible character. -/
def comments (cfg : Config) (p : Place) : List (List Char) :=
  match _h : p.ahead with
  | [] => []
  | node :: _ =>
    if p.cursor.rest.isEmpty then comments cfg (p.nextNode p.cursor.line)
    else
      (front node p.cursor).comments cfg ++
      match _r : (enterLine cfg node p.cursor).1.rest with
      | [] => comments cfg (p.nextNode p.cursor.line)
      | c :: _ =>
        if c = '\n' then comments cfg { p with cursor := (enterLine cfg node p.cursor).1.step }
        else []
termination_by p.weight
decreasing_by
  · exact nextNode_weight_lt _ _ (by simp [_h])
  · exact nextNode_weight_lt _ _ (by simp [_h])
  · exact step_weight_lt _r

theorem nextVisible_eq (cfg : Config) (p : Place) : p.nextVisible cfg =
    match p.ahead with
    | [] => (p, none)
    | node :: _ =>
      if p.cursor.rest.isEmpty then (p.nextNode p.cursor.line).nextVisible cfg
      else match (enterLine cfg node p.cursor).1.rest with
        | [] => (p.nextNode (enterLine cfg node p.cursor).1.line).nextVisible cfg
        | c :: _ =>
          if c = '\n' then
            nextVisible cfg { p with cursor := (enterLine cfg node p.cursor).1.step }
          else ({ p with cursor := (enterLine cfg node p.cursor).1 },
            some (enterLine cfg node p.cursor).2) := by
  rw [nextVisible]
  split
  · rename_i h
    rw [h]
  · rename_i node later h
    rw [h]
    dsimp only
    split
    · rfl
    · split
      · rename_i hrest
        rw [hrest]
      · rename_i hrest
        rw [hrest]

theorem comments_eq (cfg : Config) (p : Place) : p.comments cfg =
    match p.ahead with
    | [] => []
    | node :: _ =>
      if p.cursor.rest.isEmpty then (p.nextNode p.cursor.line).comments cfg
      else (front node p.cursor).comments cfg ++
        match (enterLine cfg node p.cursor).1.rest with
        | [] => (p.nextNode p.cursor.line).comments cfg
        | c :: _ =>
          if c = '\n' then comments cfg { p with cursor := (enterLine cfg node p.cursor).1.step }
          else [] := by
  rw [comments]
  split
  · rename_i h
    rw [h]
  · rename_i node later h
    rw [h]
    dsimp only
    split
    · rfl
    · split
      · rename_i hrest
        rw [hrest]
      · rename_i hrest
        rw [hrest]

/-- Behind the code. -/
theorem nextVisible_behind (h : p.ahead = []) : p.nextVisible cfg = (p, none) := by
  rw [nextVisible_eq, h]

/-- Whatever follows, the comments in front of a line are dropped. -/
theorem front_comments_subset (h : p.ahead = node :: later) (hne : p.cursor.rest ≠ []) :
    (front node p.cursor).comments cfg ⊆ p.comments cfg := by
  have hempty : ¬ p.cursor.rest.isEmpty = true := by simpa using hne
  rw [comments_eq, h]
  dsimp only
  rw [if_neg hempty]
  exact List.subset_append_left _ _

/-- At the end of a run. -/
theorem nextVisible_next (h : p.ahead = node :: later) (hrest : p.cursor.rest = []) :
    p.nextVisible cfg = (p.nextNode p.cursor.line).nextVisible cfg ∧
    p.comments cfg = (p.nextNode p.cursor.line).comments cfg := by
  have hempty : p.cursor.rest.isEmpty = true := List.isEmpty_iff.2 hrest
  rw [nextVisible_eq, comments_eq, h]
  dsimp only
  rw [if_pos hempty, if_pos hempty]
  exact ⟨rfl, rfl⟩

/-- A line with nothing visible. -/
theorem nextVisible_blank (h : p.ahead = node :: later) (hne : p.cursor.rest ≠ [])
    (hrest : (enterLine cfg node p.cursor).1.rest = '\n' :: cs) :
    p.nextVisible cfg =
      ({ p with cursor := (enterLine cfg node p.cursor).1.step } : Place).nextVisible cfg ∧
    p.comments cfg = (front node p.cursor).comments cfg ++
      ({ p with cursor := (enterLine cfg node p.cursor).1.step } : Place).comments cfg := by
  have hempty : ¬ p.cursor.rest.isEmpty = true := by simpa using hne
  rw [nextVisible_eq, comments_eq, h]
  dsimp only
  rw [if_neg hempty, if_neg hempty, hrest]
  exact ⟨rfl, rfl⟩

theorem leaveLine_nil (h : p.cursor.rest = []) : p.leaveLine = p.nextNode p.cursor.line := by
  rw [leaveLine, h]

theorem leaveLine_cons (h : p.cursor.rest = c :: cs) :
    p.leaveLine = { p with cursor := p.cursor.step } := by
  rw [leaveLine, h]

/-- A line with nothing visible, whether a line break ends it or the run. -/
theorem nextVisible_leave (h : p.ahead = node :: later) (hne : p.cursor.rest ≠ [])
    (hend : (enterLine cfg node p.cursor).1.rest.head?.getD '\n' = '\n') : p.nextVisible cfg =
      (leaveLine { p with cursor := (enterLine cfg node p.cursor).1 }).nextVisible cfg := by
  cases hrest : (enterLine cfg node p.cursor).1.rest with
  | nil =>
    have hempty : ¬ p.cursor.rest.isEmpty = true := by simpa using hne
    rw [leaveLine_nil (p := { p with cursor := (enterLine cfg node p.cursor).1 }) hrest,
      nextVisible_eq cfg p]
    split
    · rename_i hnil
      rw [h] at hnil
      cases hnil
    · rename_i hcons
      obtain ⟨rfl, -⟩ := List.cons.inj (hcons.symm.trans h)
      rw [if_neg hempty, hrest]
      rfl
  | cons c cs =>
    obtain rfl : c = '\n' := by simpa [hrest] using hend
    rw [leaveLine_cons (p := { p with cursor := (enterLine cfg node p.cursor).1 }) hrest]
    exact (nextVisible_blank h hne hrest).1

/-- A line with something visible. -/
theorem nextVisible_found (h : p.ahead = node :: later) (hne : p.cursor.rest ≠ [])
    (hrest : (enterLine cfg node p.cursor).1.rest = c :: cs) (hc : c ≠ '\n') :
    p.nextVisible cfg = ({ p with cursor := (enterLine cfg node p.cursor).1 },
      some (enterLine cfg node p.cursor).2) := by
  have hempty : ¬ p.cursor.rest.isEmpty = true := by simpa using hne
  rw [nextVisible_eq, h]
  dsimp only
  rw [if_neg hempty, hrest]
  dsimp only
  rw [if_neg hc]

end Place

/-! ## Pieces -/

namespace Scanner

variable {s : Scanner}

/-- The comments that are dropped on the way to the next token. -/
def comments (s : Scanner) : List (List Char) :=
  if s.waits then [] else (s.lineEnd?.map (Place.comments s.config)).getD []

/-- The tokens, ignored or not, and the comments dropped in front of lines, up to the end. -/
def pieces (s : Scanner) : List (List Char) :=
  match _h : s.scan with
  | (t, s₁) => s.comments ++ t.text :: if _e : t.kind = .eof then [] else s₁.pieces
termination_by s.weight
decreasing_by
  have h := scan_lighter s
  rw [_h] at h
  exact h.resolve_right fun h => _e h.1

theorem pieces_eq (s : Scanner) : s.pieces =
    s.comments ++ s.scan.1.text :: if s.scan.1.kind = .eof then [] else s.scan.2.pieces := by
  rw [pieces]
  rfl

/-- No token and no dropped comment reaches over a line break. -/
def OneLine (s : Scanner) : Prop :=
  ∀ piece ∈ s.pieces, '\n' ∉ piece

theorem OneLine.token (h : s.OneLine) : '\n' ∉ s.scan.1.text :=
  h _ (pieces_eq s ▸ List.mem_append_right _ List.mem_cons_self)

theorem OneLine.comments (h : s.OneLine) : ∀ comment ∈ s.comments, '\n' ∉ comment :=
  fun comment hc => h comment (pieces_eq s ▸ List.mem_append_left _ hc)

theorem OneLine.scan (h : s.OneLine) : s.scan.2.OneLine := by
  intro piece hpiece
  by_cases he : s.scan.1.kind = .eof
  · -- behind the end there is only the end again
    obtain ⟨hpop, hd, -, hnext⟩ := s.emits.ended_of_eof he
    rw [hnext, pieces_eq] at hpiece
    have hscan : s.ready.scan = (s.ready.eofToken, s.ready) := by simp [Scanner.scan, hpop, hd]
    have hcomments : s.ready.comments = [] := if_pos (by simp [waits, hd])
    rw [hcomments, hscan] at hpiece
    obtain rfl : piece = [] := List.mem_singleton.1 hpiece
    exact List.not_mem_nil
  · refine h piece ?_
    rw [pieces_eq, if_neg he]
    exact List.mem_append_right _ (List.mem_cons_of_mem _ hpiece)

end Scanner

end LayoutLR
