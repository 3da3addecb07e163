/-
  Layout-aware LR toolkit — the lines of a text, and where they stand.

  A text is its lines one after the other.  Each of them ends with the only line
  break that it holds, except that the last one may lack it; and texts with this
  property are cut into the same lines again.  So a stretch of consecutive lines
  of a document is a piece of its text, and the number of its first line tells
  how many line breaks come before.

  * `IsLine`, `Lined`: whole lines, and lines of which the last may be open;
  * `splitLines_lined`, `Lined.splitLines_flatten`: cutting up and joining;
  * `documentLines_split`: the text around a stretch of lines, and their numbers;
  * `CodeNode.StandsIn`: a run of code that is a stretch of lines of a document;
  * `lineStart`, `CodeNode.StandsIn.piece`: where its text is found there.
-/
import Mathlib.Data.List.Infix
import Mathlib.Data.List.Range
import LayoutLR.Document.Block

namespace LayoutLR

open Text

/-! ## Whole lines -/

/-- A line with the line break that ends it. -/
def IsLine (line : List Char) : Prop :=
  ∃ w, '\n' ∉ w ∧ line = w ++ ['\n']

/-- Lines one after the other; only the last may lack its line break. -/
inductive Lined : List (List Char) → Prop
  | nil : Lined []
  | last {line : List Char} (hne : line ≠ []) (h : '\n' ∉ line) : Lined [line]
  | cons {line : List Char} {lines : List (List Char)} (hline : IsLine line) (h : Lined lines) :
      Lined (line :: lines)

section

variable {cs w line : List Char} {lines rest : List (List Char)}

theorem IsLine.count (h : IsLine line) : line.count '\n' = 1 := by
  obtain ⟨w, hw, rfl⟩ := h
  simp [List.count_eq_zero_of_not_mem hw]

theorem IsLine.getLast? (h : IsLine line) : line.getLast? = some '\n' := by
  obtain ⟨w, -, rfl⟩ := h
  exact List.getLast?_concat

/-- What stands before a line break is the first line. -/
theorem splitLines_break (hw : '\n' ∉ w) (cs : List Char) :
    splitLines (w ++ '\n' :: cs) = (w ++ ['\n']) :: splitLines cs := by
  induction w with
  | nil => simp [splitLines]
  | cons c w ih =>
    simp only [List.mem_cons, not_or] at hw
    rw [List.cons_append, splitLines, if_neg (Ne.symm hw.1), ih hw.2]
    rfl

/-- Text without a line break is one line. -/
theorem splitLines_open (hne : w ≠ []) (hw : '\n' ∉ w) : splitLines w = [w] := by
  induction w with
  | nil => exact absurd rfl hne
  | cons c w ih =>
    simp only [List.mem_cons, not_or] at hw
    rw [splitLines, if_neg (Ne.symm hw.1)]
    cases w with
    | nil => rfl
    | cons d w => rw [ih (List.cons_ne_nil _ _) hw.2]

theorem IsLine.splitLines_append (h : IsLine line) (cs : List Char) :
    splitLines (line ++ cs) = line :: splitLines cs := by
  obtain ⟨w, hw, rfl⟩ := h
  rw [List.append_assoc, List.singleton_append, splitLines_break hw]

/-- The lines of a text are the text. -/
theorem flatten_splitLines (cs : List Char) : (splitLines cs).flatten = cs := by
  fun_induction splitLines cs with
  | case1 => rfl
  | case2 cs ih => rw [List.flatten_cons, ih, List.singleton_append]
  | case3 c cs _ hnil ih =>
    rw [hnil] at ih
    rw [← ih]
    rfl
  | case4 c cs _ l ls hcons ih =>
    rw [hcons] at ih
    rw [← ih]
    rfl

/-- A text is cut into lines. -/
theorem splitLines_lined (cs : List Char) : Lined (splitLines cs) := by
  fun_induction splitLines cs with
  | case1 => exact .nil
  | case2 cs ih => exact .cons ⟨[], nofun, rfl⟩ ih
  | case3 c cs hc hnil ih => exact .last (List.cons_ne_nil _ _) (by simpa using Ne.symm hc)
  | case4 c cs hc l ls hcons ih =>
    rw [hcons] at ih
    cases ih with
    | last hne h => exact .last (List.cons_ne_nil _ _) (by simp [Ne.symm hc, h])
    | cons hline h =>
      obtain ⟨w, hw, rfl⟩ := hline
      exact .cons ⟨c :: w, by simp [Ne.symm hc, hw], rfl⟩ h

/-- Lines are found again. -/
theorem Lined.splitLines_flatten (h : Lined lines) : splitLines lines.flatten = lines := by
  induction h with
  | nil => rfl
  | last hne h => rw [List.flatten_singleton, splitLines_open hne h]
  | cons hline _ ih => rw [List.flatten_cons, hline.splitLines_append, ih]

theorem Lined.of_isLine (h : ∀ line ∈ lines, IsLine line) : Lined lines := by
  induction lines with
  | nil => exact .nil
  | cons line lines ih =>
    exact .cons (h line List.mem_cons_self) (ih fun l hl => h l (List.mem_cons_of_mem _ hl))

theorem Lined.tail (h : Lined (line :: lines)) : Lined lines := by
  cases h with
  | last => exact .nil
  | cons _ h => exact h

theorem Lined.right (h : Lined (lines ++ rest)) : Lined rest := by
  induction lines with
  | nil => exact h
  | cons line lines ih => exact ih (List.cons_append ▸ h).tail

/-- A line that another one follows has its line break. -/
theorem Lined.isLine_left (h : Lined (lines ++ rest)) (hne : rest ≠ []) :
    ∀ line ∈ lines, IsLine line := by
  induction lines with
  | nil => nofun
  | cons line lines ih =>
    have htail : lines ++ rest ≠ [] := fun he => hne (List.append_eq_nil_iff.1 he).2
    rw [List.cons_append] at h
    generalize hmore : lines ++ rest = more at h htail
    cases h with
    | last => exact absurd rfl htail
    | cons hline h =>
      intro l hl
      rcases List.mem_cons.1 hl with rfl | hl
      · exact hline
      · exact ih (hmore ▸ h) l hl

theorem Lined.left (h : Lined (lines ++ rest)) : Lined lines := by
  by_cases hne : rest = []
  · rwa [hne, List.append_nil] at h
  · exact .of_isLine (h.isLine_left hne)

theorem Lined.infix (h : Lined lines) (hr : rest <:+: lines) : Lined rest := by
  obtain ⟨before, behind, rfl⟩ := hr
  exact h.left.right

/-- Whole lines have as many line breaks as there are lines. -/
theorem count_flatten (h : ∀ line ∈ lines, IsLine line) :
    lines.flatten.count '\n' = lines.length := by
  induction lines with
  | nil => rfl
  | cons line lines ih =>
    rw [List.flatten_cons, List.count_append, (h line List.mem_cons_self).count,
      ih fun l hl => h l (List.mem_cons_of_mem _ hl), List.length_cons, Nat.add_comm]

/-- Text that is empty or ends with a line break. -/
def Closed (cs : List Char) : Prop :=
  cs = [] ∨ cs.getLast? = some '\n'

instance : Decidable (Closed cs) :=
  inferInstanceAs (Decidable (_ ∨ _))

/-- A closed text starts with a whole line. -/
theorem Closed.exists_line (h : Closed cs) (hne : cs ≠ []) :
    ∃ l r, '\n' ∉ l ∧ Closed r ∧ cs = l ++ '\n' :: r := by
  induction cs with
  | nil => exact absurd rfl hne
  | cons c cs ih =>
    have hlast := h.resolve_left hne
    by_cases hc : c = '\n'
    · refine ⟨[], cs, List.not_mem_nil, ?_, by rw [hc]; rfl⟩
      cases cs with
      | nil => exact Or.inl rfl
      | cons d cs => exact Or.inr (by rwa [List.getLast?_cons_cons] at hlast)
    · cases cs with
      | nil => exact absurd (Option.some.inj hlast) hc
      | cons d cs =>
        rw [List.getLast?_cons_cons] at hlast
        obtain ⟨l, r, hl, hr, hcs⟩ := ih (Or.inr hlast) (List.cons_ne_nil _ _)
        refine ⟨c :: l, r, ?_, hr, by rw [hcs]; rfl⟩
        rw [List.mem_cons, not_or]
        exact ⟨Ne.symm hc, hl⟩

/-- In a text that ends with a line break every line has its own. -/
theorem Closed.isLine (hcs : Closed cs) : ∀ line ∈ splitLines cs, IsLine line := by
  induction hn : cs.length using Nat.strongRecOn generalizing cs with
  | ind n ih =>
    by_cases hne : cs = []
    · rw [hne]
      nofun
    obtain ⟨l, r, hl, hr, rfl⟩ := hcs.exists_line hne
    rw [splitLines_break hl]
    intro line hline
    rcases List.mem_cons.1 hline with rfl | hline
    · exact ⟨l, hl, rfl⟩
    · refine ih r.length ?_ hr rfl line hline
      rw [← hn, List.length_append, List.length_cons]
      omega

end

/-! ## Numbered lines -/

section

variable {text : List Char} {pre run post : List DocLine}

theorem map_raw_numberLines (no : Nat) (lines : List (List Char)) :
    (numberLines no lines).map DocLine.raw = lines := by
  induction lines generalizing no with
  | nil => rfl
  | cons line lines ih => rw [numberLines, List.map_cons, ih]

theorem map_no_numberLines (no : Nat) (lines : List (List Char)) :
    (numberLines no lines).map DocLine.no = List.range' no lines.length := by
  induction lines generalizing no with
  | nil => rfl
  | cons line lines ih => rw [numberLines, List.map_cons, ih, List.length_cons, List.range'_succ]

theorem map_raw_documentLines (text : List Char) :
    (documentLines text).map DocLine.raw = splitLines text :=
  map_raw_numberLines 1 _

/-- The numbers of the lines of a document. -/
theorem map_no_documentLines (text : List Char) :
    (documentLines text).map DocLine.no = List.range' 1 (documentLines text).length := by
  have hlength := congrArg List.length (map_raw_documentLines text)
  rw [List.length_map] at hlength
  rw [hlength]
  exact map_no_numberLines 1 _

/-- The lines of a document are its text. -/
theorem flatMap_raw_documentLines (text : List Char) :
    (documentLines text).flatMap DocLine.raw = text := by
  rw [List.flatMap_def, map_raw_documentLines, flatten_splitLines]

theorem documentLines_nodup (text : List Char) : ((documentLines text).map DocLine.no).Nodup := by
  rw [map_no_documentLines]
  exact List.nodup_range'

/-- The text around a stretch of lines, and the numbers of these. -/
theorem documentLines_split (h : documentLines text = pre ++ run ++ post) :
    text = pre.flatMap DocLine.raw ++ run.flatMap DocLine.raw ++ post.flatMap DocLine.raw ∧
    run.map DocLine.no = List.range' (pre.length + 1) run.length := by
  constructor
  · rw [← flatMap_raw_documentLines text, h, List.flatMap_append, List.flatMap_append]
  · have hno := map_no_documentLines text
    rw [h, List.map_append, List.map_append, List.length_append, List.length_append,
      List.range'_append_1.symm, List.range'_append_1.symm] at hno
    have hpair := List.append_inj_left hno (by simp)
    rw [List.append_inj_right hpair (by simp), Nat.add_comm]

theorem lined_raw (h : run <:+: documentLines text) : Lined (run.map DocLine.raw) := by
  have := splitLines_lined text
  rw [← map_raw_documentLines] at this
  exact this.infix (h.map _)

/-- The text of a stretch of lines is cut into these lines. -/
theorem splitLines_run (h : run <:+: documentLines text) :
    splitLines (run.flatMap DocLine.raw) = run.map DocLine.raw := by
  rw [List.flatMap_def, (lined_raw h).splitLines_flatten]

/-- The lines of a stretch, each with its number. -/
theorem zipIdx_run {no : Nat} (h : run <:+: documentLines text)
    (hno : run.head?.map DocLine.no = some no) :
    (run.map DocLine.raw).zipIdx no = run.map fun l => (l.raw, l.no) := by
  obtain ⟨pre, post, hsplit⟩ := h
  have hnumbers := (documentLines_split hsplit.symm).2
  cases run with
  | nil => cases hno
  | cons line rest =>
    have hfirst : no = pre.length + 1 := by
      rw [List.map_cons, List.length_cons, List.range'_succ] at hnumbers
      rw [← (List.cons.inj hnumbers).1]
      exact (Option.some.inj hno).symm
    rw [List.zipIdx_eq_zip_range', List.length_map, hfirst, ← hnumbers, List.zip_map']

/-- In a document that ends with a line break every line has its own. -/
theorem Closed.isLine_raw (h : Closed text) : ∀ l ∈ documentLines text, IsLine l.raw := by
  intro l hl
  refine h.isLine l.raw ?_
  rw [← map_raw_documentLines]
  exact List.mem_map_of_mem hl

/-- As many line breaks come before a line as there are lines before it. -/
theorem count_before (h : documentLines text = pre ++ run ++ post) (hne : run ≠ []) :
    (pre.flatMap DocLine.raw).count '\n' = pre.length := by
  have hlined : Lined (pre.map DocLine.raw ++ run.map DocLine.raw) := by
    rw [← List.map_append]
    exact lined_raw ⟨[], post, by rw [h, List.nil_append]⟩
  rw [List.flatMap_def, count_flatten (hlined.isLine_left (by simpa using hne)), List.length_map]

end

/-! ## Runs of code in a document -/

/-- A run of code that is a stretch of lines of a document, with the number of the first. -/
def CodeNode.StandsIn (node : CodeNode) (text : List Char) : Prop :=
  ∃ run, run <:+: documentLines text ∧ node.text = run.flatMap DocLine.raw ∧
    run.head?.map DocLine.no = some node.line

/-- The bytes of a document in front of a line. -/
def lineStart (text : List Char) (no : Nat) : Nat :=
  byteSize ((splitLines text).take (no - 1)).flatten

/-- The numbers of the lines that a run of code covers. -/
def CodeNode.covered (node : CodeNode) : List Nat :=
  List.range' node.line (splitLines node.text).length

namespace CodeNode.StandsIn

variable {node : CodeNode} {text : List Char}

/-- The text of a run is found at the start of its first line. -/
theorem piece (h : node.StandsIn text) : ∃ before behind,
    text = before ++ node.text ++ behind ∧ byteSize before = lineStart text node.line ∧
    node.line = 1 + before.count '\n' := by
  obtain ⟨run, ⟨pre, post, hsplit⟩, htext, hline⟩ := h
  have hne : run ≠ [] := by
    rintro rfl
    cases hline
  obtain ⟨hpieces, hno⟩ := documentLines_split hsplit.symm
  have hfirst : node.line = pre.length + 1 := by
    obtain ⟨line, rest, rfl⟩ := List.exists_cons_of_ne_nil hne
    rw [List.map_cons, List.length_cons, List.range'_succ] at hno
    rw [← (List.cons.inj hno).1]
    exact (Option.some.inj hline).symm
  refine ⟨pre.flatMap DocLine.raw, post.flatMap DocLine.raw, htext ▸ hpieces, ?_, ?_⟩
  · have htake : (splitLines text).take (node.line - 1) = pre.map DocLine.raw := by
      rw [← map_raw_documentLines, ← hsplit, hfirst, Nat.add_sub_cancel, List.append_assoc,
        List.map_append, List.take_left' (List.length_map _)]
    rw [lineStart, htake, List.flatMap_def]
  · rw [count_before hsplit.symm hne, hfirst, Nat.add_comm]

/-- What a run covers. -/
theorem covered_eq {run : List DocLine} (hrun : run <:+: documentLines text)
    (htext : node.text = run.flatMap DocLine.raw)
    (hline : run.head?.map DocLine.no = some node.line) : node.covered = run.map DocLine.no := by
  obtain ⟨pre, post, hsplit⟩ := hrun
  have hno := (documentLines_split hsplit.symm).2
  rw [covered, htext, splitLines_run ⟨pre, post, hsplit⟩, List.length_map, hno]
  cases run with
  | nil => cases hline
  | cons line rest =>
    rw [List.map_cons, List.length_cons, List.range'_succ] at hno
    rw [← (List.cons.inj hno).1, Option.some.inj hline]

end CodeNode.StandsIn

end LayoutLR
