/-
  Layout-aware LR toolkit — lines that show nothing.

  A blank line shows nothing, and neither does a line with an ignored comment only.  Of such a
  line nothing is left behind its blanks and comments, whatever block indent is dropped in
  front, so that a search for a visible line goes on below it.

  * `HiddenLine`, `HiddenLines`: lines that show nothing;
  * `comment?_lineOver`, `comment?_closed`: comments that are complete;
  * `enterLine_hidden`: of a hidden line nothing is left;
  * `nextVisible_hidden`: a search for a visible line goes over hidden lines.
-/
import LayoutLR.Proofs.Document.Lines
import LayoutLR.Proofs.Token.Lockstep

namespace LayoutLR

open Text

/-! ## Lines that show nothing -/

instance (gap : List Char) : Decidable (Scanner.Gap gap) :=
  List.decidableBAll (fun c => isBlank c = true ∧ c ≠ '\n') gap

/-- A line, without its line break, that shows nothing: blanks, and an ignored comment that is
    complete. -/
inductive HiddenLine (cfg : Config) : List Char → Prop
  | blank (gap : List Char) (hgap : Scanner.Gap gap) : HiddenLine cfg gap
  | lineComment (gap : List Char) (c : Char) (opener body : List Char) (hgap : Scanner.Gap gap)
      (hopener : c :: opener = ['/', '/'] ∨ c :: opener = ['#'] ∧ cfg.hashComments = true)
      (hignored : cfg.ignored.lineComment = true) : HiddenLine cfg (gap ++ c :: (opener ++ body))
  | blockComment (gap body behind : List Char) (hgap : Scanner.Gap gap)
      (hbody : ¬ ['*', '/'] <:+: body ++ ['*']) (hbehind : Scanner.Gap behind)
      (hignored : cfg.ignored.blockComment = true) :
      HiddenLine cfg (gap ++ '/' :: '*' :: (body ++ '*' :: '/' :: behind))

/-- Text whose lines show nothing; the last one may lack its line break. -/
inductive HiddenLines (cfg : Config) : List Char → Prop
  | last (w : List Char) (hw : HiddenLine cfg w) (hunbroken : '\n' ∉ w) : HiddenLines cfg w
  | line (w : List Char) {text : List Char} (hw : HiddenLine cfg w) (hunbroken : '\n' ∉ w)
      (h : HiddenLines cfg text) : HiddenLines cfg (w ++ '\n' :: text)

/-- A text that is over, or goes on in the next line. -/
def LineOver (r : List Char) : Prop :=
  r.head?.getD '\n' = '\n'

section

variable {cfg : Config} {node : CodeNode} {cur : Cursor} {gap w r : List Char} {n : Nat}

theorem lineOver_nil : LineOver [] :=
  rfl

theorem lineOver_break (r : List Char) : LineOver ('\n' :: r) :=
  rfl

theorem LineOver.cases (h : LineOver r) : r = [] ∨ ∃ s, r = '\n' :: s := by
  cases r with
  | nil => exact Or.inl rfl
  | cons c r => exact Or.inr ⟨r, by rw [show c = '\n' from h]⟩

theorem LineOver.takeWhile {p : Char → Bool} (h : LineOver r) (hp : p '\n' = false)
    (hw : ∀ c ∈ w, p c = true) : (w ++ r).takeWhile p = w := by
  rw [List.takeWhile_append_of_pos hw]
  rcases h.cases with rfl | ⟨s, rfl⟩
  · simp
  · simp [hp]

theorem LineOver.dropWhile {p : Char → Bool} (h : LineOver r) (hp : p '\n' = false)
    (hw : ∀ c ∈ w, p c = true) : (w ++ r).dropWhile p = r := by
  rw [List.dropWhile_append_of_pos hw]
  rcases h.cases with rfl | ⟨s, rfl⟩
  · rfl
  · simp [hp]

theorem blockIndent_unbroken (cs : List Char) :
    ∀ c ∈ cs.take (blockIndent cs), (isBlank c && c != '\n') = true := by
  have htab : (isBlank '\t' && '\t' != '\n') = true := by decide
  have hspace : (isBlank ' ' && ' ' != '\n') = true := by decide
  unfold blockIndent
  split
  · simpa using htab
  · simpa using hspace
  · nofun

/-- The front of a line is over all its blanks, those of the block indent included. -/
theorem front_rest (node : CodeNode) (cur : Cursor) :
    (Place.front node cur).rest = cur.rest.dropWhile fun c => isBlank c && c != '\n' := by
  rw [Place.front, Scanner.skipBlanks_rest]
  show (Cursor.advance _ cur).rest.dropWhile _ = _
  rw [Cursor.advance_rest]
  split
  · conv_rhs => rw [← List.take_append_drop (blockIndent cur.rest) cur.rest]
    rw [List.dropWhile_append_of_pos (blockIndent_unbroken cur.rest)]
  · rw [List.drop_zero]

theorem skipComments_lineOver (h : LineOver cur.rest) : cur.skipComments cfg = cur := by
  have hnone : cur.ignoredComment? cfg = none := by
    rw [Cursor.ignoredComment?]
    rcases h.cases with hnil | ⟨s, hbreak⟩
    · rw [hnil]
    · rw [hbreak]
      dsimp only
      rw [comment?_newline]
      rfl
  rw [Cursor.skipComments_eq, hnone]

/-- An ignored comment, and blanks behind it, are gone over. -/
theorem skipComments_over (hn : cur.ignoredComment? cfg = some n)
    (hrest : cur.rest.drop n = gap ++ r) (hgap : Scanner.Gap gap) (hr : LineOver r) :
    (cur.skipComments cfg).rest = r := by
  have hskip : (cur.advance n).skipBlanks.rest = r := by
    rw [Scanner.skipBlanks_rest, Cursor.advance_rest, hrest]
    exact hr.dropWhile (by simp) fun c hc => by simp [(hgap c hc).1, (hgap c hc).2]
  rw [Cursor.skipComments_eq, hn]
  dsimp only
  rw [skipComments_lineOver (hskip ▸ hr), hskip]

theorem blockCommentMore_closed {body : List Char} (h : ¬ ['*', '/'] <:+: body ++ ['*'])
    (cs : List Char) :
    blockCommentMore (body ++ '*' :: '/' :: cs) = (.blockComment, body.length + 2) := by
  induction body with
  | nil => rfl
  | cons c body ih =>
    have htail : ¬ ['*', '/'] <:+: body ++ ['*'] :=
      fun hin => h (hin.trans (List.suffix_cons c _).isInfix)
    have hopen : ¬ (c = '*' ∧ (body ++ '*' :: '/' :: cs).head? = some '/') := by
      rintro ⟨rfl, hhead⟩
      cases body with
      | nil => exact absurd hhead (by simp)
      | cons d body =>
        obtain rfl : d = '/' := Option.some.inj hhead
        exact h ⟨[], body ++ ['*'], rfl⟩
    rw [List.cons_append, blockCommentMore_cons, if_neg hopen, ih htail]
    rfl

/-- A line comment reaches to the end of its line. -/
theorem comment?_lineOver {c : Char} {opener body : List Char}
    (hopener : c :: opener = ['/', '/'] ∨ c :: opener = ['#'] ∧ cfg.hashComments = true)
    (hbody : '\n' ∉ body) (hr : LineOver r) :
    comment? cfg c (opener ++ (body ++ r)) = some (.lineComment, (opener ++ body).length) := by
  have hstarts : c = '/' ∧ (opener ++ (body ++ r)).head? = some '/' ∨
      c = '#' ∧ cfg.hashComments = true := by
    rcases hopener with hopener | ⟨hopener, hhash⟩ <;> cases hopener
    · exact Or.inl ⟨rfl, rfl⟩
    · exact Or.inr ⟨rfl, hhash⟩
  have hunbroken : ∀ d ∈ opener ++ body, (d != '\n') = true := by
    intro d hd
    rw [bne_iff_ne]
    rintro rfl
    rcases List.mem_append.1 hd with hd | hd
    · rcases hopener with hopener | ⟨hopener, -⟩ <;> cases hopener
      · exact absurd hd (by decide)
      · exact absurd hd (by decide)
    · exact hbody hd
  rw [comment?, if_pos hstarts, ← List.append_assoc, hr.takeWhile (by simp) hunbroken]

/-- A block comment reaches to its end. -/
theorem comment?_closed (cfg : Config) {body : List Char} (hbody : ¬ ['*', '/'] <:+: body ++ ['*'])
    (cs : List Char) : comment? cfg '/' ('*' :: (body ++ '*' :: '/' :: cs)) =
      some (.blockComment, body.length + 3) := by
  have hline : ¬ ('/' = '/' ∧ ('*' :: (body ++ '*' :: '/' :: cs)).head? = some '/' ∨
      '/' = '#' ∧ cfg.hashComments = true) := by
    simp
  rw [comment?, if_neg hline, if_pos ⟨rfl, rfl⟩, List.tail_cons, blockCommentMore_closed hbody]

/-- Of a line that shows nothing, nothing is left. -/
theorem enterLine_hidden (node : CodeNode) (h : HiddenLine cfg w) (hw : '\n' ∉ w) (hr : LineOver r)
    (hrest : cur.rest = w ++ r) : (Place.enterLine cfg node cur).1.rest = r := by
  have hfront := front_rest node cur
  rw [hrest] at hfront
  rw [Place.enterLine_eq]
  dsimp only
  cases h with
  | blank _ hgap =>
    rw [hr.dropWhile (by simp) fun c hc => by simp [hgap c hc]] at hfront
    rw [skipComments_lineOver (hfront ▸ hr), hfront]
  | lineComment gap c opener body hgap hopener hignored =>
    have hvisible : isBlank c = false := by
      rcases hopener with hopener | ⟨hopener, -⟩ <;> cases hopener <;> decide
    rw [List.mem_append, List.mem_cons, List.mem_append, not_or, not_or, not_or] at hw
    rw [List.append_assoc, List.cons_append, List.append_assoc,
      Scanner.dropWhile_gap hgap hvisible] at hfront
    have hcomment := comment?_lineOver hopener hw.2.2.2 hr
    have hn := Cursor.ignoredComment?_of_covers hfront hcomment hignored
    refine skipComments_over hn (?_ : _ = [] ++ r) nofun hr
    rw [hfront, List.drop_succ_cons, ← List.append_assoc, List.drop_left, List.nil_append]
  | blockComment gap body behind hgap hbody hbehind hignored =>
    have hslash : isBlank '/' = false := by decide
    rw [List.append_assoc, List.cons_append, List.cons_append, List.append_assoc,
      List.cons_append, List.cons_append, Scanner.dropWhile_gap hgap hslash] at hfront
    have hcomment := comment?_closed cfg hbody (behind ++ r)
    have hn := Cursor.ignoredComment?_of_covers hfront hcomment hignored
    refine skipComments_over hn ?_ hbehind hr
    rw [hfront, List.drop_succ_cons, List.drop_succ_cons, List.drop_length_add_append]
    rfl

/-- What stands below a line break is closed if all of the text is. -/
theorem Closed.below {text : List Char} (h : Closed (w ++ '\n' :: text)) : Closed text := by
  cases text with
  | nil => exact Or.inl rfl
  | cons c text =>
    right
    have hlast := h.resolve_left (by simp)
    rwa [List.getLast?_append_of_ne_nil _ (List.cons_ne_nil _ _), List.getLast?_cons_cons] at hlast

/-- **A search for a visible line goes over lines that show nothing.** -/
theorem nextVisible_hidden {q : Place} {later : List CodeNode} {text back : List Char}
    (htext : HiddenLines cfg text) (hback : back = [] ∨ Closed text)
    (hahead : q.ahead = node :: later) (hrest : q.cursor.rest = text ++ back) :
    ∃ cur, cur.rest = back ∧
      q.nextVisible cfg = ({ q with cursor := cur } : Place).nextVisible cfg := by
  induction htext generalizing q with
  | last w hw hunbroken =>
    by_cases hne : w = []
    · exact ⟨q.cursor, by rw [hrest, hne]; rfl, rfl⟩
    · -- a line that is open is the last one of its run
      obtain rfl : back = [] := by
        refine hback.resolve_right fun hclosed => hunbroken ?_
        exact List.mem_of_getLast? (hclosed.resolve_left hne)
      have henter := enterLine_hidden node hw hunbroken lineOver_nil hrest
      rw [List.append_nil] at hrest
      refine ⟨(Place.enterLine cfg node q.cursor).1, henter, ?_⟩
      rw [Place.nextVisible_leave hahead (hrest ▸ hne) (henter ▸ rfl), Place.leaveLine_nil henter]
      exact (Place.nextVisible_next
        (p := { q with cursor := (Place.enterLine cfg node q.cursor).1 }) hahead henter).1.symm
  | @line w text hw hunbroken htext ih =>
    rw [List.append_assoc, List.cons_append] at hrest
    have henter := enterLine_hidden node hw hunbroken (lineOver_break _) hrest
    have hne : q.cursor.rest ≠ [] := by simp [hrest]
    obtain ⟨cur, hcur, hvisible⟩ := ih (hback.imp_right Closed.below)
      (q := { q with cursor := (Place.enterLine cfg node q.cursor).1.step }) hahead
      (by rw [Cursor.step_rest, henter]; rfl)
    exact ⟨cur, hcur, (Place.nextVisible_blank hahead hne henter).1.trans hvisible⟩

end

end LayoutLR
