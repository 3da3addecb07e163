/-
  Layout-aware LR toolkit — comments that tell where rendered lines come from.

  Annotated code has a comment in front of a run if the run does not begin at the
  document line where the run before it ended.  Every run is a stretch of lines of the
  document, and each of its lines is rendered as one line.  So whoever starts at the
  number of a comment and counts the lines below it always knows the document line that
  a rendered line comes from, also behind code that was put in the place of a reference.

  * `AnnotatedLine`, `Annotates`: rendered code with comments between its runs;
  * `located`: counting on from the comments;
  * `annotate`: the lines of annotated code;
  * `origins_located`: the comments locate every rendered line.
-/
import LayoutLR.Proofs.Document.Rendering

namespace LayoutLR

open Text

/-! ## Annotated code -/

/-- A line of annotated code. -/
inductive AnnotatedLine where
  /-- A comment with the number of a document line. -/
  | marker (no : Nat)
  /-- A rendered line of code. -/
  | code (line : List Char)

namespace AnnotatedLine

/-- A line as it is written. -/
def text (path : String) : AnnotatedLine → List Char
  | marker no => originMarker path no
  | code line => line

/-- The rendered line, if it is one. -/
def code? : AnnotatedLine → Option (List Char)
  | marker _ => none
  | code line => some line

end AnnotatedLine

/-- The rendered lines of some runs, with at most one comment in front of each run and none
    inside. -/
inductive Annotates : List CodeNode → List AnnotatedLine → Prop
  | nil : Annotates [] []
  | run {node : CodeNode} {code : List CodeNode} {lines : List AnnotatedLine} (no : Option Nat)
      (h : Annotates code lines) : Annotates (node :: code)
        ((no.map .marker).toList ++
          ((splitLines node.text).map node.renderLine).map .code ++ lines)

/-- The rendered lines, each with the document line at which the comments locate it: the number
    of the last comment, and one more for each rendered line in between.  The first line is
    located at `next`. -/
def located (next : Option Nat) : List AnnotatedLine → List (List Char × Option Nat)
  | [] => []
  | .marker no :: rest => located (some no) rest
  | .code line :: rest => (line, next) :: located (next.map (· + 1)) rest

/-- The lines of annotated code, `expected` being the document line that would follow on. -/
def annotate (expected : Option Nat) : List CodeNode → List AnnotatedLine
  | [] => []
  | node :: rest =>
    (if expected = some node.line then [] else [.marker node.line]) ++
      ((splitLines node.text).map node.renderLine).map .code ++
      annotate (some (node.line + node.lineBreaks)) rest

section

variable {code : List CodeNode} {lines : List AnnotatedLine}

/-- Annotated code is made of its lines. -/
theorem annotatedFrom_eq (path : String) (expected : Option Nat) (code : List CodeNode) :
    annotatedFrom path expected code =
      (annotate expected code).flatMap (AnnotatedLine.text path) := by
  induction code generalizing expected with
  | nil => rfl
  | cons node code ih =>
    rw [annotatedFrom, annotate, ih, List.flatMap_append, List.flatMap_append, List.flatMap_map,
      List.flatMap_map]
    split
    · rfl
    · rw [List.flatMap_singleton]
      rfl

theorem annotate_annotates (expected : Option Nat) (code : List CodeNode) :
    Annotates code (annotate expected code) := by
  induction code generalizing expected with
  | nil => exact .nil
  | cons node code ih =>
    rw [annotate]
    split
    · exact .run none (ih _)
    · exact .run (some node.line) (ih _)

/-- The comments apart, annotated code has the rendered lines of its runs. -/
theorem Annotates.filterMap_code? (h : Annotates code lines) :
    lines.filterMap AnnotatedLine.code? = renderedLines code := by
  induction h with
  | nil => rfl
  | run no _ ih =>
    have hmarker : ((no.map AnnotatedLine.marker).toList).filterMap AnnotatedLine.code? = [] := by
      cases no <;> rfl
    rw [List.filterMap_append, List.filterMap_append, hmarker, ih, List.filterMap_map]
    exact congrArg (· ++ _) (List.filterMap_some ..)

/-! ## Counting on -/

/-- The lines of a run are located one after the other. -/
theorem located_run (no : Nat) (run : List (List Char)) (rest : List AnnotatedLine) :
    located (some no) (run.map .code ++ rest) =
      (run.zipIdx no).map (fun e => (e.1, some e.2)) ++ located (some (no + run.length)) rest := by
  induction run generalizing no with
  | nil => rfl
  | cons line run ih =>
    rw [List.map_cons, List.cons_append, located, Option.map_some, ih, List.zipIdx_cons,
      List.map_cons, List.length_cons, Nat.add_right_comm, Nat.add_assoc]
    rfl

/-- A run that ends with a line break has as many lines as line breaks. -/
theorem Closed.lineBreaks {node : CodeNode} (h : Closed node.text) :
    (splitLines node.text).length = node.lineBreaks := by
  rw [CodeNode.lineBreaks, ← count_flatten h.isLine, flatten_splitLines]

/-- Counting on from the comments gives the document lines of the runs. -/
theorem located_annotate (h : ∀ node ∈ code, Closed node.text) (expected : Option Nat) :
    located expected (annotate expected code) =
      (code.flatMap CodeNode.rendered).map fun l => (l.text, some l.no) := by
  induction code generalizing expected with
  | nil => rfl
  | cons node code ih =>
    obtain ⟨hnode, hcode⟩ := List.forall_mem_cons.1 h
    have hmarked : located expected (annotate expected (node :: code)) =
        located (some node.line) (((splitLines node.text).map node.renderLine).map .code ++
          annotate (some (node.line + node.lineBreaks)) code) := by
      rw [annotate]
      split
      · rename_i hexpected
        rw [hexpected, List.nil_append]
      · rfl
    rw [hmarked, located_run, List.length_map, hnode.lineBreaks, ih hcode, List.flatMap_cons,
      List.map_append, CodeNode.rendered, List.zipIdx_map, List.map_map, List.map_map]
    rfl

end

/-! ## Sections -/

/-- The rendered lines of a section are its expanded lines. -/
theorem Outline.rendered_expandEntry {text : List Char} (htext : Closed text) {e : Entry}
    (he : e ∈ outline text) : ((outline text).expandEntry e).code.flatMap CodeNode.rendered =
      expandRendered text [e.name] (sectionLines text e.name) := by
  have htells := outline_tells text
  have hclosed : ∀ n ∈ (outline text).map Entry.name,
      n ∈ ((outline text).map Entry.name).erase e.name ↔ n ∉ [e.name] := by
    intro n hn
    rw [htells.nodup.mem_erase_iff, List.mem_singleton]
    exact and_iff_left hn
  have h := renderedOf_eq htext.isLine_raw (htells.nodup.erase e.name) hclosed 0 e.name
  rw [← (htells.entry e he).1, show RenderedLine.shift 0 = id from funext RenderedLine.shift_zero,
    List.map_id] at h
  exact h

/-- **Comments locate every rendered line.**  In a document that ends with a line break, an
    annotated section has the lines of its text, with comments between its runs.  Each line is
    located at the document line that it comes from, that is, from which it gets into the
    expansion of the references. -/
theorem origins_located (text : List Char) (htext : text.getLast? = some '\n') :
    ∀ s ∈ (extract text).sections, ∀ path, ∃ lines,
      annotatedText path s.code = lines.flatMap (AnnotatedLine.text path) ∧
      Annotates s.code lines ∧
      lines.filterMap AnnotatedLine.code? = splitLines (codeText s.code) ∧
      located none lines = (expandRendered text [s.name] (sectionLines text s.name)).map
        fun l => (l.text, some l.no) := by
  intro s hs path
  have hclosed : ∀ node ∈ s.code, Closed node.text := fun node hnode =>
    (sections_standIn hs hnode).closed (Or.inr htext)
  refine ⟨annotate none s.code, annotatedFrom_eq path none s.code, annotate_annotates none s.code,
    ?_, ?_⟩
  · have hlined : Lined (renderedLines s.code) := by
      rw [lined_renderedLines fun node hnode => (sections_standIn hs hnode).text_ne_nil]
      intro before node after hcode hopen
      exact absurd (hclosed node (by simp [hcode])) hopen
    rw [(annotate_annotates none s.code).filterMap_code?, ← flatten_renderedLines,
      hlined.splitLines_flatten]
  · rw [located_annotate hclosed]
    rw [sections_eq] at hs
    obtain ⟨e, he, rfl⟩ := List.mem_map.1 hs
    dsimp only
    rw [Outline.rendered_expandEntry (Or.inr htext) (List.mem_filter.1 he).1]

/-- A section that includes another one and one without code, with a blank line in it. -/
def interruptedSection : List Char :=
  "# a\n\n    f\n      ## b\n    ## gone\n    g\n\n    h\n\n# b\n```\nx\n \n\ty\n```\n".toList

theorem origins_located_interruptedSection :
    interruptedSection.getLast? = some '\n' ∧
    (extract interruptedSection).sections.map (fun s => annotatedText "d.md" s.code) =
      ["// d.md:3\nf\n// d.md:12\n  x\n\n  \ty\n// d.md:6\ng\n\nh\n".toList] ∧
    ∀ s ∈ (extract interruptedSection).sections, ∃ lines,
      annotatedText "d.md" s.code = lines.flatMap (AnnotatedLine.text "d.md") ∧
      Annotates s.code lines ∧
      lines.filterMap AnnotatedLine.code? = splitLines (codeText s.code) ∧
      located none lines = (expandRendered interruptedSection [s.name]
        (sectionLines interruptedSection s.name)).map fun l => (l.text, some l.no) := by
  have htext : interruptedSection.getLast? = some '\n' := by decide +kernel
  exact ⟨htext, by cbv, fun s hs => origins_located interruptedSection htext s hs "d.md"⟩

end LayoutLR
