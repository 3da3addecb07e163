/-
  Layout-aware LR toolkit — reading linearized code is reading its text.

  A scanner may read the runs of linearized code as they stand in the document, or
  the text that they render to.  Line for line it finds the same: the block indent
  is dropped in both, the spaces in front of a rendered line bring the cursor to the
  column that the run demands, and blank lines count for nothing.  Below the first
  visible character the two lines are the same text, and what is cut off a line
  depends on nothing below it.

  * `Cursor.SameLine`: two cursors in front of the same rest of a line;
  * `front_sameLine`: the front of a line of a run, and of its rendering;
  * `Place.AtLine`, `Place.InLine`: a place in the code and one in its rendering;
  * `Scanner.beside_scan`: scanners that read code and its rendering side by side;
  * `rendered_tokens`: both hand out the same tokens.
-/
import LayoutLR.Proofs.Document.Expansion
import LayoutLR.Proofs.Token.Lockstep

namespace LayoutLR

open Text

/-! ## The same rest of a line -/

/-- Two cursors in front of the same rest `l` of a line, with `r` and `r'` below it. -/
structure Cursor.SameLine (l r r' : List Char) (a b : Cursor) : Prop
    extends SameFront l r r' a b where
  unbroken : '\n' ∉ l

section

variable {cfg : Config} {l r r' : List Char} {n : Nat}

/-- An ignored comment that is dropped stays in its line. -/
theorem ignoredComment?_le {cur : Cursor} (hrest : cur.rest = l ++ '\n' :: r)
    (hline : ∀ comment ∈ cur.comments cfg, '\n' ∉ comment)
    (hn : cur.ignoredComment? cfg = some n) : n ≤ l.length := by
  refine le_of_unbroken (r := r) ?_
  rw [← hrest]
  exact hline _ (Cursor.comments_some hn ▸ List.mem_cons_self)

namespace Cursor.SameLine

variable {a b : Cursor}

/-- Going on in the line. -/
theorem advance (h : SameLine l r r' a b) (hn : n ≤ l.length) :
    SameLine (l.drop n) r r' (a.advance n) (b.advance n) :=
  ⟨h.toSameFront.advance hn, fun hl => h.unbroken (List.mem_of_mem_drop hl)⟩

/-- Going over blanks. -/
theorem skipBlanks (h : SameLine l r r' a b) :
    ∃ l', SameLine l' r r' a.skipBlanks b.skipBlanks :=
  ⟨_, h.toSameFront.skipBlanks, fun hl => h.unbroken ((List.dropWhile_sublist _).subset hl)⟩

theorem symm (h : SameLine l r r' a b) : SameLine l r' r b a :=
  ⟨h.toSameFront.symm, h.unbroken⟩

/-- Going over ignored comments.  A comment that leaves the line might be ignored on one side and
    unclosed on the other, so that neither side may drop such a comment. -/
theorem skipComments (h : SameLine l r r' a b) (ha : ∀ comment ∈ a.comments cfg, '\n' ∉ comment)
    (hb : ∀ comment ∈ b.comments cfg, '\n' ∉ comment) :
    ∃ l', SameLine l' r r' (a.skipComments cfg) (b.skipComments cfg) := by
  fun_induction Cursor.comments cfg a generalizing b l with
  | case1 a n hn ih =>
    have hle := ignoredComment?_le h.left (comments_some hn ▸ ha) hn
    have hm := h.ignoredComment?_some hn hle
    rw [comments_some hm] at hb
    obtain ⟨l', hblanks⟩ := (h.advance hle).skipBlanks
    rw [skipComments_eq cfg a, skipComments_eq cfg b, hn, hm]
    exact ih hblanks (fun c hc => ha c (List.mem_cons_of_mem _ hc))
      fun c hc => hb c (List.mem_cons_of_mem _ hc)
  | case2 a hn =>
    rw [skipComments_eq cfg a, skipComments_eq cfg b, hn]
    cases hm : b.ignoredComment? cfg with
    | none => exact ⟨l, h⟩
    | some m =>
      rw [h.symm.ignoredComment?_some hm (ignoredComment?_le h.right hb hm)] at hn
      cases hn

end Cursor.SameLine

/-! ## The front of a line -/

theorem Cursor.advance_advance (m n : Nat) (cur : Cursor) :
    (cur.advance m).advance n = cur.advance (m + n) := by
  induction m generalizing cur with
  | zero => rw [Nat.zero_add, Cursor.advance]
  | succ m ih => rw [Cursor.advance, ih, Nat.succ_add, Cursor.advance]

/-- Spaces can be gone over before the other blanks. -/
theorem Cursor.skipBlanks_replicate {cur : Cursor} {cs : List Char}
    (h : cur.rest = List.replicate n ' ' ++ cs) : cur.skipBlanks = (cur.advance n).skipBlanks := by
  have hspaces : ∀ c ∈ List.replicate n ' ', (isBlank c && c != '\n') = true := by
    intro c hc
    rw [(List.mem_replicate.1 hc).2]
    decide
  have hrest : (cur.advance n).rest = cs := by
    rw [Cursor.advance_rest, h, List.drop_left' List.length_replicate]
  rw [Cursor.skipBlanks, Cursor.skipBlanks, hrest, h, List.takeWhile_append_of_pos hspaces,
    List.length_append, List.length_replicate, Cursor.advance_advance]

/-- What is left of a line behind its block indent. -/
theorem drop_blockIndent {w : List Char} (hbody : stripBlockIndent (l ++ ['\n']) = w ++ ['\n'])
    (r : List Char) :
    (l ++ '\n' :: r).drop (blockIndent (l ++ '\n' :: r)) = w ++ '\n' :: r := by
  have hlength := congrArg List.length hbody
  simp only [stripBlockIndent, List.length_drop, List.length_append,
    List.length_singleton] at hlength
  have hle : blockIndent (l ++ ['\n']) ≤ (l ++ ['\n']).length := by
    rw [List.length_append, List.length_singleton]
    omega
  rw [blockIndent_line, show l ++ '\n' :: r = (l ++ ['\n']) ++ r by simp,
    List.drop_append_of_le_length hle, ← stripBlockIndent, hbody, List.append_assoc]
  rfl

/-- What is left of a line of a run behind its block indent. -/
theorem behind_blockIndent {node : CodeNode} {cur : Cursor} {w : List Char}
    (hrest : cur.rest = l ++ '\n' :: r)
    (hbody : (if node.needsStrip then stripBlockIndent (l ++ ['\n']) else l ++ ['\n']) =
      w ++ ['\n']) :
    (cur.advance (if node.needsStrip then blockIndent cur.rest else 0)).rest = w ++ '\n' :: r := by
  rw [Cursor.advance_rest, hrest]
  split at hbody
  · rename_i hneeds
    rw [if_pos hneeds, drop_blockIndent hbody]
  · rename_i hneeds
    rw [if_neg hneeds, List.append_cancel_right hbody]
    rfl

/-- Of a blank line, only the line break is left. -/
theorem Cursor.skipBlanks_blankLine {cur : Cursor} {w : List Char} (hw : '\n' ∉ w)
    (hblank : isBlankLine (w ++ ['\n']) = true) (hrest : cur.rest = w ++ '\n' :: r) :
    cur.skipBlanks.rest = '\n' :: r := by
  have hblanks : ∀ c ∈ w, (isBlank c && c != '\n') = true := by
    intro c hc
    have hne : c ≠ '\n' := fun he => hw (he ▸ hc)
    have hc := List.all_eq_true.1 hblank c (List.mem_append_left _ hc)
    simp [hc, hne]
  rw [Scanner.skipBlanks_rest, hrest, List.dropWhile_append_of_pos hblanks]
  rfl

/-- In front of the same text, spaces bring a cursor from the first column to that of the other
    cursor. -/
theorem Cursor.SameLine.ofSpaces {a b : Cursor} {w : List Char} (hw : '\n' ∉ w)
    (ha : a.rest = w ++ '\n' :: r) (hb : b.rest = List.replicate a.col ' ' ++ (w ++ '\n' :: r'))
    (hcol : b.col = 0) : SameLine w r r' a (b.advance a.col) := by
  refine ⟨⟨ha, ?_, fun _ => ?_⟩, hw⟩
  · rw [Cursor.advance_rest, hb, List.drop_left' List.length_replicate]
  · rw [Scanner.advance_spaces _ _ hb, hcol, Nat.zero_add]

/-- **A line of a run and its rendering.**  In front of their first visible characters, the two
    have the same rest at the same column. -/
theorem front_sameLine (node : CodeNode) {plain : CodeNode} (hstrip : plain.needsStrip = false)
    (hindent : plain.indent = 0) (hl : '\n' ∉ l) {a b : Cursor} (ha : a.rest = l ++ '\n' :: r)
    (hb : b.rest = node.renderLine (l ++ ['\n']) ++ r') :
    ∃ l', Cursor.SameLine l' r r' (Place.front node a) (Place.front plain b) := by
  -- the cursors behind the block indent, each in its first column
  let a₁ : Cursor :=
    { a.advance (if node.needsStrip then blockIndent a.rest else 0) with col := node.indent }
  let b₁ : Cursor := { b with col := 0 }
  have hfront : Place.front plain b = b₁.skipBlanks := by
    simp only [Place.front, hstrip, hindent, Bool.false_eq_true, if_false, Cursor.advance, b₁]
  have hline : IsLine (l ++ ['\n']) := ⟨l, hl, rfl⟩
  obtain ⟨w, hw, hbody⟩ : IsLine (if node.needsStrip then stripBlockIndent (l ++ ['\n'])
      else l ++ ['\n']) := by
    split
    · exact hline.strip
    · exact hline
  have ha₁ : a₁.rest = w ++ '\n' :: r := behind_blockIndent ha hbody
  rw [renderLine_eq node hline, plainLine, hbody] at hb
  rw [hfront]
  by_cases hblank : isBlankLine (w ++ ['\n']) = true
  · rw [if_pos hblank, shiftLine, if_pos rfl] at hb
    exact ⟨[], ⟨Cursor.skipBlanks_blankLine hw hblank ha₁,
      Cursor.skipBlanks_blankLine List.not_mem_nil rfl hb, fun hne => absurd rfl hne⟩,
      List.not_mem_nil⟩
  · have hne : w ++ ['\n'] ≠ ['\n'] := fun he => hblank (by rw [he]; rfl)
    rw [if_neg hblank, shiftLine, if_neg hne, List.append_assoc, List.append_assoc] at hb
    have hspaces : b₁.rest = List.replicate a₁.col ' ' ++ (w ++ '\n' :: r') := hb
    rw [Cursor.skipBlanks_replicate hspaces]
    exact (Cursor.SameLine.ofSpaces hw ha₁ hspaces rfl).skipBlanks

end

/-! ## Places side by side -/

/-- What is left of a run, and the runs after it, after indenting. -/
def renderFrom (node : CodeNode) (later : List CodeNode) (rest : List Char) : List Char :=
  (splitLines rest).flatMap node.renderLine ++ codeText later

/-- A place in plain text. -/
def Place.Plain (q : Place) : Prop :=
  ∃ plain, q.ahead = [plain] ∧ plain.needsStrip = false ∧ plain.indent = 0

/-- A place at the start of a line in some code, and one in its rendering. -/
structure Place.AtLine (p q : Place) : Prop where
  plain : q.Plain
  closed : Closed p.cursor.rest ∧ ∀ node ∈ p.ahead.tail, Closed node.text
  behind : p.ahead = [] → q.cursor.rest = [] ∧ p.cursor.col = 0
  shown : ∀ node later, p.ahead = node :: later →
    q.cursor.rest = renderFrom node later p.cursor.rest

/-- A place inside a line of some code, and one in its rendering. -/
structure Place.InLine (p q : Place) : Prop where
  plain : q.Plain
  line : ∃ node later l r, p.ahead = node :: later ∧ (Closed r ∧ ∀ node ∈ later, Closed node.text) ∧
    p.cursor.SameLine l r (renderFrom node later r) q.cursor

section

variable {cfg : Config} {p q : Place} {node : CodeNode} {later : List CodeNode}
  {l r : List Char}

theorem renderFrom_line (hl : '\n' ∉ l) : renderFrom node later (l ++ '\n' :: r) =
    node.renderLine (l ++ ['\n']) ++ renderFrom node later r := by
  rw [renderFrom, splitLines_break hl, List.flatMap_cons, List.append_assoc]
  rfl

namespace Place

/-- At the end of a run, its rendering goes on with the next one. -/
theorem AtLine.nextNode (h : p.AtLine q) (hahead : p.ahead = node :: later)
    (hrest : p.cursor.rest = []) (line : Nat) : (p.nextNode line).AtLine q := by
  have hshown := h.shown node later hahead
  have hclosed := h.closed.2
  rw [hrest] at hshown
  rw [hahead] at hclosed
  unfold Place.nextNode
  rw [hahead, List.tail_cons]
  cases later with
  | nil => exact ⟨h.plain, ⟨Or.inl rfl, nofun⟩, fun _ => ⟨hshown, rfl⟩, nofun⟩
  | cons next later =>
    refine ⟨h.plain, ⟨hclosed next List.mem_cons_self, fun node hnode =>
      hclosed node (List.mem_cons_of_mem _ hnode)⟩, nofun, ?_⟩
    intro node' later' heq
    cases heq
    exact hshown

/-- The line break at the end of a line is gone over on both sides. -/
theorem InLine.step (h : p.InLine q) {cs : List Char} (hrest : p.cursor.rest = '\n' :: cs) :
    q.cursor.rest.head? = some '\n' ∧
    AtLine { p with cursor := p.cursor.step } { q with cursor := q.cursor.step } := by
  obtain ⟨node, later, l, r, hahead, hclosed, hsame⟩ := h.line
  obtain rfl : l = [] := by
    cases l with
    | nil => rfl
    | cons c l =>
      have hleft := hsame.left
      rw [hrest] at hleft
      cases hleft
      exact absurd List.mem_cons_self hsame.unbroken
  refine ⟨by rw [hsame.right]; rfl, h.plain, ⟨?_, ?_⟩, fun hnil => ?_, ?_⟩
  · show Closed p.cursor.step.rest
    rw [Cursor.step_rest, hsame.left]
    exact hclosed.1
  · show ∀ node ∈ p.ahead.tail, Closed node.text
    rw [hahead]
    exact hclosed.2
  · rw [show p.ahead = [] from hnil] at hahead
    cases hahead
  · intro node' later' heq
    obtain ⟨rfl, rfl⟩ := List.cons.inj (hahead.symm.trans heq)
    show q.cursor.step.rest = renderFrom node later p.cursor.step.rest
    rw [Cursor.step_rest, Cursor.step_rest, hsame.left, hsame.right]
    rfl

/-- The first characters of a line that are no blanks. -/
theorem AtLine.front (h : p.AtLine q) {plain : CodeNode} (hahead : p.ahead = node :: later)
    (hplain : q.ahead = [plain] ∧ plain.needsStrip = false ∧ plain.indent = 0)
    (hne : p.cursor.rest ≠ []) :
    q.cursor.rest ≠ [] ∧ ∃ l r, Closed r ∧
      (Place.front node p.cursor).SameLine l r (renderFrom node later r)
        (Place.front plain q.cursor) := by
  obtain ⟨l, r, hl, hr, hrest⟩ := h.closed.1.exists_line hne
  have hshown := h.shown node later hahead
  rw [hrest, renderFrom_line hl] at hshown
  obtain ⟨l', hsame⟩ := front_sameLine node hplain.2.1 hplain.2.2 hl hrest hshown
  refine ⟨fun hnil => ?_, l', r, hr, hsame⟩
  have hlength := Place.front_length_le plain q.cursor
  rw [hnil, hsame.right, List.length_append] at hlength
  cases hlength

/-- A line is entered on both sides; if something visible follows, at the same column. -/
theorem AtLine.enterLine (h : p.AtLine q) {plain : CodeNode} (hahead : p.ahead = node :: later)
    (hplain : q.ahead = [plain] ∧ plain.needsStrip = false ∧ plain.indent = 0)
    (hne : p.cursor.rest ≠ []) (hp : ∀ comment ∈ p.comments cfg, '\n' ∉ comment)
    (hq : ∀ comment ∈ q.comments cfg, '\n' ∉ comment) :
    InLine { p with cursor := (Place.enterLine cfg node p.cursor).1 }
      { q with cursor := (Place.enterLine cfg plain q.cursor).1 } ∧
    ((Place.enterLine cfg node p.cursor).1.rest.head? ≠ some '\n' →
      (Place.enterLine cfg plain q.cursor).2 = (Place.enterLine cfg node p.cursor).2) := by
  obtain ⟨hne', l, r, hr, hfront⟩ := h.front hahead hplain hne
  obtain ⟨l', hsame⟩ := hfront.skipComments
    (fun c hc => hp c (front_comments_subset hahead hne hc))
    (fun c hc => hq c (front_comments_subset hplain.1 hne' hc))
  have hclosed := h.closed.2
  rw [hahead] at hclosed
  exact ⟨⟨h.plain, node, later, l', r, hahead, ⟨hr, hclosed⟩, hsame⟩,
    enterLine_column hfront.toSameFront⟩

/-- Behind the code, its rendering is at its end as well. -/
theorem AtLine.nextVisible_behind (h : p.AtLine q) (hahead : p.ahead = []) :
    FoundAlike InLine (p.nextVisible cfg) (q.nextVisible cfg) := by
  obtain ⟨plain, hplain, -⟩ := h.plain
  obtain ⟨hrest, hcol⟩ := h.behind hahead
  have hnext : q.nextNode q.cursor.line = ⟨q.node + 1, [], ⟨[], 0, q.cursor.line, 0⟩⟩ := by
    simp only [Place.nextNode, hplain, List.tail_cons]
  rw [Place.nextVisible_behind hahead, (nextVisible_next hplain hrest).1, hnext,
    Place.nextVisible_behind rfl]
  exact ⟨rfl, hcol.symm, fun h => absurd h Bool.false_ne_true⟩

/-- From the start of a line, both sides find the same visible line, or none. -/
theorem AtLine.nextVisible (h : p.AtLine q) (hp : ∀ comment ∈ p.comments cfg, '\n' ∉ comment)
    (hq : ∀ comment ∈ q.comments cfg, '\n' ∉ comment) :
    FoundAlike InLine (p.nextVisible cfg) (q.nextVisible cfg) := by
  obtain ⟨plain, hplain⟩ := h.plain
  induction hw : p.weight using Nat.strongRecOn generalizing p q with
  | ind w ih =>
    cases hahead : p.ahead with
    | nil => exact h.nextVisible_behind hahead
    | cons node later =>
      by_cases hrest : p.cursor.rest = []
      · obtain ⟨hvisible, hcomments⟩ : p.nextVisible cfg = _ ∧ p.comments cfg = _ :=
          nextVisible_next hahead hrest
        rw [hvisible]
        rw [hcomments] at hp
        have hlt := nextNode_weight_lt p p.cursor.line (by simp [hahead])
        exact ih _ (hw ▸ hlt) (h.nextNode hahead hrest _) hp hq hplain rfl
      obtain ⟨hin, hcolumn⟩ := h.enterLine hahead hplain hrest hp hq
      have hrest' := (h.front hahead hplain hrest).1
      obtain ⟨_, _, l, r, _, _, hsame⟩ := hin.line
      dsimp only at hsame
      cases l with
      | nil =>
        -- the line is blank on both sides
        obtain ⟨hvisible, hcomments⟩ := nextVisible_blank hahead hrest hsame.left
        obtain ⟨hvisible', hcomments'⟩ := nextVisible_blank hplain.1 hrest' hsame.right
        rw [hvisible, hvisible']
        rw [hcomments] at hp
        rw [hcomments'] at hq
        exact ih _ (hw ▸ step_weight_lt hsame.left) (hin.step hsame.left).2
          (fun c hc => hp c (List.mem_append_right _ hc))
          (fun c hc => hq c (List.mem_append_right _ hc)) hplain rfl
      | cons c l =>
        have hc : c ≠ '\n' := fun hc => hsame.unbroken (hc ▸ List.mem_cons_self)
        rw [nextVisible_found hahead hrest hsame.left hc,
          nextVisible_found hplain.1 hrest' hsame.right hc]
        refine ⟨congrArg some (hcolumn ?_), (hsame.col (List.cons_ne_nil _ _)).symm, fun _ => hin⟩
        rw [hsame.left]
        exact fun he => hc (Option.some.inj he)

/-- Going over the blanks of a line. -/
theorem InLine.skipBlanks (h : p.InLine q) : InLine { p with cursor := p.cursor.skipBlanks }
    { q with cursor := q.cursor.skipBlanks } := by
  obtain ⟨node, later, l, r, hahead, hclosed, hsame⟩ := h.line
  obtain ⟨l', hblanks⟩ := hsame.skipBlanks
  exact ⟨h.plain, node, later, l', r, hahead, hclosed, hblanks⟩

/-- Both sides are at the end of their line, or neither is. -/
theorem InLine.leaveLine (h : p.InLine q) :
    p.cursor.rest.head?.getD '\n' = '\n' ∧ q.cursor.rest.head?.getD '\n' = '\n' ∧
      p.leaveLine.AtLine q.leaveLine ∨
    p.cursor.rest.head?.getD '\n' ≠ '\n' ∧ q.cursor.rest.head?.getD '\n' ≠ '\n' := by
  obtain ⟨_, _, l, r, _, _, hsame⟩ := h.line
  cases l with
  | nil =>
    left
    refine ⟨by rw [hsame.left]; rfl, by rw [hsame.right]; rfl, ?_⟩
    rw [leaveLine_cons hsame.left, leaveLine_cons hsame.right]
    exact (h.step hsame.left).2
  | cons c l =>
    have hc : c ≠ '\n' := fun hc => hsame.unbroken (hc ▸ List.mem_cons_self)
    right
    rw [hsame.left, hsame.right]
    exact ⟨hc, hc⟩

theorem lineRelation : LineRelation AtLine InLine :=
  ⟨InLine.skipBlanks, InLine.leaveLine⟩

/-- Inside a line, both sides cut off the same token. -/
theorem InLine.cut (h : p.InLine q) (first : Bool) {c : Char} {cs : List Char}
    (hrest : p.cursor.rest = c :: cs) {kind : Kind} {n : Nat}
    (hlexeme : lexeme cfg first c cs = (kind, n)) (hn : '\n' ∉ c :: cs.take n) :
    ∃ cs', q.cursor.rest = c :: cs' ∧ lexeme cfg first c cs' = (kind, n) ∧
      cs'.take n = cs.take n ∧ q.cursor.col = p.cursor.col ∧
      InLine { p with cursor := p.cursor.advance (n + 1) }
        { q with cursor := q.cursor.advance (n + 1) } := by
  obtain ⟨node, later, l, r, hahead, hclosed, hsame⟩ := h.line
  have hlt : n < l.length := by
    refine Nat.lt_of_succ_le (le_of_unbroken (r := r) ?_)
    rw [← hsame.left, hrest]
    exact hn
  obtain ⟨cs', hrest', hlexeme', htake, hcol, hfront⟩ := hsame.cut hrest hlexeme hlt
  exact ⟨cs', hrest', hlexeme', htake, hcol, h.plain, node, later, _, r, hahead, hclosed, hfront,
    fun hl => hsame.unbroken (List.mem_of_mem_drop hl)⟩

end Place

end

/-! ## Scanners side by side -/

namespace Scanner

variable {cfg : Config} {code : List CodeNode} {s t : Scanner}

theorem beside_start (cfg : Config) (hclosed : ∀ node ∈ code, node.text.getLast? = some '\n') :
    Beside Place.AtLine Place.InLine (ofCode cfg code) (ofText cfg (codeText code)) := by
  refine ⟨⟨rfl, ⟨1, rfl⟩, rfl, rfl⟩, fun _ _ => ?_, nofun⟩
  cases code with
  | nil => exact ⟨⟨_, rfl, rfl, rfl⟩, ⟨Or.inl rfl, nofun⟩, fun _ => ⟨rfl, rfl⟩, nofun⟩
  | cons node later =>
    refine ⟨⟨_, rfl, rfl, rfl⟩, ⟨Or.inr (hclosed node List.mem_cons_self), fun next hnext =>
      Or.inr (hclosed next (List.mem_cons_of_mem _ hnext))⟩, nofun, ?_⟩
    intro node' later' heq
    cases heq
    rfl

/-- Both sides hand out the same token. -/
theorem beside_scan (h : Beside Place.AtLine Place.InLine s t) (hs : s.OneLine) (ht : t.OneLine) :
    t.scan.1.shape = s.scan.1.shape ∧ Beside Place.AtLine Place.InLine s.scan.2 t.scan.2 := by
  have hready := h.ready Place.lineRelation fun p q hw hp hq hline => by
    have hcomments := hs.comments
    have hcomments' := ht.comments
    rw [Scanner.comments, hw, hp] at hcomments
    rw [Scanner.comments, h.waits, hw, hq, h.config] at hcomments'
    exact hline.nextVisible hcomments hcomments'
  refine hready.scan Token.observes_shape fun c cs hw hrest _ hin => ?_
  cases hlexeme : lexeme s.ready.config s.ready.lineFirst c cs with
  | mk kind n =>
    have htoken := hs.token
    rw [scan_eq_cut hw hrest, cut_eq hlexeme] at htoken
    obtain ⟨cs', hrest', hlexeme', htake, hcol, hin'⟩ := hin.cut _ hrest hlexeme htoken
    rw [← hready.config, ← hready.lineFirst] at hlexeme'
    refine ⟨cs', hrest', ?_⟩
    rw [cut_eq hlexeme, cut_eq hlexeme']
    exact ⟨by rw [Token.shape, Token.shape, htake, hcol], hin'⟩

/-- Both sides return the same tokens. -/
theorem beside_returned (h : Beside Place.AtLine Place.InLine s t) (hs : s.OneLine)
    (ht : t.OneLine) (n : Nat) :
    (t.returned n).map Token.shape = (s.returned n).map Token.shape := by
  refine returned_eq_of_scan Token.observes_shape
    (R := fun s t => Beside Place.AtLine Place.InLine s t ∧ s.OneLine ∧ t.OneLine)
    (fun h => h.1.config) (fun h => ?_) ⟨h, hs, ht⟩ n
  obtain ⟨hbeside, hs, ht⟩ := h
  obtain ⟨hshape, hnext⟩ := beside_scan hbeside hs ht
  exact ⟨hshape, hnext, hs.scan, ht.scan⟩

end Scanner

/-- **Reading linearized code is reading its text.**  Where every run ends with a line break, and
    no token and no dropped comment of either reading reaches over one, a scanner of the code and
    a scanner of its text return tokens of the same kinds, texts and columns, call after call. -/
theorem rendered_tokens (cfg : Config) (code : List CodeNode)
    (hclosed : ∀ node ∈ code, node.text.getLast? = some '\n')
    (hcode : (Scanner.ofCode cfg code).OneLine)
    (htext : (Scanner.ofText cfg (codeText code)).OneLine) (n : Nat) :
    ((Scanner.ofText cfg (codeText code)).returned n).map Token.shape =
      ((Scanner.ofCode cfg code).returned n).map Token.shape :=
  Scanner.beside_returned (Scanner.beside_start cfg hclosed) hcode htext n

/-- A run with a block indent and blank lines, and one further in; comments are dropped. -/
def mixedRuns : List CodeNode :=
  [⟨"    a // b\n  \n\t  /* c */ d\n".toList, 3, 0, true⟩, ⟨"// e\nf\n\tg\n".toList, 9, 3, false⟩]

theorem rendered_tokens_mixedRuns :
    let cfg : Config := { ignored := .comments }
    (∀ node ∈ mixedRuns, node.text.getLast? = some '\n') ∧
    (Scanner.ofCode cfg mixedRuns).OneLine ∧ (Scanner.ofText cfg (codeText mixedRuns)).OneLine ∧
    codeText mixedRuns = "a // b\n\n  /* c */ d\n   // e\n   f\n   \tg\n".toList ∧
    ((Scanner.ofCode cfg mixedRuns).returned 12).map Token.kind = [.word, .newline, .indent, .word,
      .newline, .indent, .word, .newline, .indent, .word, .outdent, .outdent] ∧
    ((Scanner.ofText cfg (codeText mixedRuns)).returned 12).map Token.shape =
      ((Scanner.ofCode cfg mixedRuns).returned 12).map Token.shape := by
  intro cfg
  have hclosed : ∀ node ∈ mixedRuns, node.text.getLast? = some '\n' := by decide +kernel
  have hcode : (Scanner.ofCode cfg mixedRuns).OneLine := by
    unfold Scanner.OneLine
    decide +kernel
  have htext : (Scanner.ofText cfg (codeText mixedRuns)).OneLine := by
    unfold Scanner.OneLine
    decide +kernel
  exact ⟨hclosed, hcode, htext, by decide +kernel, by decide +kernel,
    rendered_tokens cfg mixedRuns hclosed hcode htext 12⟩

end LayoutLR
