/-
  Layout-aware LR toolkit — which lines the text of linearized code has.

  Every line of a run is rendered as one line, and a rendered line is as open as the line
  in the document: only the last line of a document may lack its line break.  The run that
  ends with it need not be the last one of a section.  Another run that follows goes on in
  the same line then; and a blank line without a line break leaves nothing.  Everywhere
  else the lines of the text are the rendered lines of the runs.

  * `lined_iff_length`: texts one after the other make as many lines as there are texts if
    they are lines;
  * `renderedLines`, `OpenAtEnd`: the rendered lines of code, and code of which at most the
    last line lacks its line break;
  * `lined_renderedLines`: the rendered lines of such code are lines;
  * `rendered_lines`: the lines of the text of a section.
-/
import LayoutLR.Proofs.Document.Expansion
import LayoutLR.Proofs.Document.Inclusion

namespace LayoutLR

open Text

section

variable {cs line last : List Char} {lines rest pieces : List (List Char)}

/-! ## Lines one after the other -/

theorem lined_append_iff (h : ∀ line ∈ lines, IsLine line) :
    Lined (lines ++ rest) ↔ Lined rest := by
  induction lines with
  | nil => rfl
  | cons line lines ih =>
    obtain ⟨hline, hlines⟩ := List.forall_mem_cons.1 h
    rw [List.cons_append, ← ih hlines]
    exact ⟨Lined.tail, Lined.cons hline⟩

/-- Behind a line that lacks its line break no other line follows. -/
theorem lined_open_iff (h : '\n' ∉ line) : Lined (line :: rest) ↔ line ≠ [] ∧ rest = [] := by
  constructor
  · intro hlined
    cases hlined with
    | last hne => exact ⟨hne, rfl⟩
    | cons hline =>
      obtain ⟨w, -, rfl⟩ := hline
      exact absurd (List.mem_append_right w (List.mem_singleton_self '\n')) h
  · rintro ⟨hne, rfl⟩
    exact .last hne h

/-- A text without a line break lengthens the first line of what follows. -/
theorem length_splitLines_open (h : '\n' ∉ line) (cs : List Char) :
    (splitLines (line ++ cs)).length =
      if line = [] then (splitLines cs).length else max 1 (splitLines cs).length := by
  induction line with
  | nil => rfl
  | cons c line ih =>
    rw [List.mem_cons, not_or] at h
    have ih := ih h.2
    rw [List.cons_append, splitLines, if_neg (Ne.symm h.1), if_neg (List.cons_ne_nil c line)]
    cases hmore : splitLines (line ++ cs) with
    | nil =>
      rw [hmore, List.length_nil] at ih
      split at ih <;> simp <;> omega
    | cons l ls =>
      rw [hmore, List.length_cons] at ih
      split at ih <;> simp <;> omega

/-- Texts that hold no line break but at their end do not make more lines than there are
    texts. -/
theorem length_splitLines_flatten_le (h : ∀ p ∈ pieces, IsLine p ∨ '\n' ∉ p) :
    (splitLines pieces.flatten).length ≤ pieces.length := by
  induction pieces with
  | nil => exact Nat.le_refl 0
  | cons p pieces ih =>
    obtain ⟨hp, hpieces⟩ := List.forall_mem_cons.1 h
    have ih := ih hpieces
    rw [List.flatten_cons, List.length_cons]
    rcases hp with hline | hopen
    · rw [hline.splitLines_append, List.length_cons]
      omega
    · rw [length_splitLines_open hopen]
      split <;> omega

/-- They make as many lines if they are lines themselves. -/
theorem lined_iff_length (h : ∀ p ∈ pieces, IsLine p ∨ '\n' ∉ p) :
    Lined pieces ↔ (splitLines pieces.flatten).length = pieces.length := by
  refine ⟨fun hlined => congrArg List.length hlined.splitLines_flatten, fun hlen => ?_⟩
  induction pieces with
  | nil => exact .nil
  | cons p pieces ih =>
    obtain ⟨hp, hpieces⟩ := List.forall_mem_cons.1 h
    rw [List.flatten_cons, List.length_cons] at hlen
    rcases hp with hline | hopen
    · rw [hline.splitLines_append, List.length_cons] at hlen
      exact .cons hline (ih hpieces (Nat.succ_inj.1 hlen))
    · have hle := length_splitLines_flatten_le hpieces
      rw [length_splitLines_open hopen] at hlen
      rw [lined_open_iff hopen, ← List.length_eq_zero_iff (l := pieces)]
      split at hlen
      · omega
      · rename_i hne
        exact ⟨hne, by omega⟩

theorem Lined.isLine_or_open (h : Lined lines) : ∀ line ∈ lines, IsLine line ∨ '\n' ∉ line := by
  induction h with
  | nil => nofun
  | last _ hopen => exact fun line hmem => Or.inr (List.mem_singleton.1 hmem ▸ hopen)
  | cons hline _ ih => exact List.forall_mem_cons.2 ⟨Or.inl hline, ih⟩

/-- A text that is not closed ends with a line that lacks its line break. -/
theorem exists_open_line (h : ¬ Closed cs) : ∃ lines last, splitLines cs = lines ++ [last] ∧
    (∀ line ∈ lines, IsLine line) ∧ '\n' ∉ last := by
  have hlined := splitLines_lined cs
  rcases List.eq_nil_or_concat' (splitLines cs) with hnil | ⟨lines, last, hsplit⟩
  · have := flatten_splitLines cs
    rw [hnil] at this
    exact absurd (Or.inl this.symm) h
  · rw [hsplit] at hlined
    refine ⟨lines, last, hsplit, hlined.isLine_left (List.cons_ne_nil _ _), ?_⟩
    refine (hlined.isLine_or_open last (by simp)).resolve_left fun hline => h (Or.inr ?_)
    obtain ⟨w, -, rfl⟩ := hline
    rw [← flatten_splitLines cs, hsplit]
    simp

end

/-! ## Rendered lines -/

section

variable {node : CodeNode} {code : List CodeNode} {line : List Char}

/-- The lines of the runs as they are rendered. -/
def renderedLines (code : List CodeNode) : List (List Char) :=
  code.flatMap fun node => (splitLines node.text).map node.renderLine

/-- No run but the last lacks its line break at the end, and if that one does, its last line
    is not blank. -/
def OpenAtEnd (code : List CodeNode) : Prop :=
  ∀ before node after, code = before ++ node :: after → ¬ Closed node.text →
    after = [] ∧ ∀ line ∈ (splitLines node.text).getLast?, isBlankLine line = false

theorem flatten_renderedLines (code : List CodeNode) :
    (renderedLines code).flatten = codeText code := by
  induction code with
  | nil => rfl
  | cons node code ih =>
    rw [renderedLines, List.flatMap_cons, List.flatten_append, ← List.flatMap_def]
    exact congrArg (node.render ++ ·) ih

theorem length_renderedLines (code : List CodeNode) :
    (renderedLines code).length = total (code.map fun node => (splitLines node.text).length) := by
  induction code with
  | nil => rfl
  | cons node code ih =>
    rw [renderedLines, List.flatMap_cons, List.length_append, List.length_map, List.map_cons,
      total_cons, ← ih]
    rfl

/-- A line stays a line. -/
theorem IsLine.render (h : IsLine line) (node : CodeNode) : IsLine (node.renderLine line) := by
  have hbody : IsLine (if node.needsStrip then stripBlockIndent line else line) := by
    split
    · exact h.strip
    · exact h
  have hplain : IsLine (plainLine node.needsStrip line) := by
    unfold plainLine
    dsimp only
    by_cases hblank : isBlankLine (if node.needsStrip then stripBlockIndent line else line) = true
    · rw [if_pos hblank]
      exact ⟨[], nofun, rfl⟩
    · rwa [if_neg hblank]
  obtain ⟨w, hw, heq⟩ := hplain
  rw [renderLine_eq node h, heq, shiftLine]
  split
  · exact ⟨w, hw, rfl⟩
  · refine ⟨List.replicate node.indent ' ' ++ w, ?_, by rw [List.append_assoc]⟩
    simp [hw]

/-- Without its block indent a line is as blank as before. -/
theorem isBlankLine_strip (line : List Char) :
    isBlankLine (stripBlockIndent line) = isBlankLine line := by
  unfold stripBlockIndent blockIndent
  split
  · rfl
  · rfl
  · rfl

/-- A line without a line break keeps its text, or leaves nothing if it is blank. -/
theorem renderLine_open (node : CodeNode) (h : '\n' ∉ line) : '\n' ∉ node.renderLine line ∧
    (node.renderLine line = [] ↔ isBlankLine line = true) := by
  have hbody : '\n' ∉ (if node.needsStrip then stripBlockIndent line else line) := by
    split
    · exact fun hmem => h (List.mem_of_mem_drop hmem)
    · exact h
  have hblank : isBlankLine (if node.needsStrip then stripBlockIndent line else line) =
      isBlankLine line := by
    split
    · exact isBlankLine_strip line
    · rfl
  unfold CodeNode.renderLine
  dsimp only
  rw [hblank]
  generalize (if node.needsStrip then stripBlockIndent line else line) = body at hbody hblank
  cases hline : isBlankLine line with
  | true =>
    have hlast : body.getLast? ≠ some '\n' := fun he => hbody (List.mem_of_getLast? he)
    simp [hlast]
  | false =>
    rw [hline] at hblank
    have hne : body ≠ [] := by
      rintro rfl
      cases hblank
    simp [hbody, hne]

theorem renderedLines_spec (code : List CodeNode) :
    ∀ p ∈ renderedLines code, IsLine p ∨ '\n' ∉ p := by
  intro p hp
  obtain ⟨node, -, hp⟩ := List.mem_flatMap.1 hp
  obtain ⟨raw, hraw, rfl⟩ := List.mem_map.1 hp
  rcases (splitLines_lined node.text).isLine_or_open raw hraw with hline | hopen
  · exact Or.inl (hline.render node)
  · exact Or.inr (renderLine_open node hopen).1

theorem openAtEnd_cons : OpenAtEnd (node :: code) ↔ (¬ Closed node.text →
    code = [] ∧ ∀ line ∈ (splitLines node.text).getLast?, isBlankLine line = false) ∧
      OpenAtEnd code := by
  constructor
  · intro h
    refine ⟨h [] node code rfl, fun before other after he => ?_⟩
    exact h (node :: before) other after (by rw [he]; rfl)
  · rintro ⟨hnode, hcode⟩ (_ | ⟨first, before⟩) other after he
    · obtain ⟨rfl, rfl⟩ := List.cons.inj he
      exact hnode
    · exact hcode before other after (List.cons.inj he).2

/-- The rendered lines are lines if at most the last one lacks its line break. -/
theorem lined_renderedLines (h : ∀ node ∈ code, node.text ≠ []) :
    Lined (renderedLines code) ↔ OpenAtEnd code := by
  induction code with
  | nil => exact iff_of_true .nil fun before node after he => by simp at he
  | cons node code ih =>
    obtain ⟨hnode, hcode⟩ := List.forall_mem_cons.1 h
    rw [openAtEnd_cons, ← ih hcode]
    show Lined ((splitLines node.text).map node.renderLine ++ renderedLines code) ↔ _
    by_cases hclosed : Closed node.text
    · have hlines : ∀ line ∈ (splitLines node.text).map node.renderLine, IsLine line := by
        intro line hline
        obtain ⟨raw, hraw, rfl⟩ := List.mem_map.1 hline
        exact (hclosed.isLine raw hraw).render node
      rw [lined_append_iff hlines]
      exact ⟨fun h => ⟨fun hopen => absurd hclosed hopen, h⟩, fun h => h.2⟩
    · obtain ⟨lines, last, hsplit, hlines, hopen⟩ := exists_open_line hclosed
      have hfront : ∀ line ∈ lines.map node.renderLine, IsLine line := by
        intro line hline
        obtain ⟨raw, hraw, rfl⟩ := List.mem_map.1 hline
        exact (hlines raw hraw).render node
      obtain ⟨hrendered, hnil⟩ := renderLine_open node hopen
      rw [hsplit, List.map_append, List.append_assoc, lined_append_iff hfront, List.map_singleton,
        List.singleton_append, lined_open_iff hrendered, Ne, hnil, List.getLast?_concat]
      have hrest : renderedLines code = [] ↔ code = [] := by
        refine ⟨fun hempty => ?_, fun hempty => by rw [hempty]; rfl⟩
        cases code with
        | nil => rfl
        | cons other code =>
          have hother := hcode other List.mem_cons_self
          rw [renderedLines, List.flatMap_cons, List.append_eq_nil_iff,
            List.map_eq_nil_iff] at hempty
          have := flatten_splitLines other.text
          rw [hempty.1] at this
          exact absurd this.symm hother
      rw [hrest, Bool.not_eq_true]
      constructor
      · rintro ⟨hvisible, rfl⟩
        exact ⟨fun _ => ⟨rfl, fun line hline => Option.some.inj hline ▸ hvisible⟩, .nil⟩
      · rintro ⟨hend, -⟩
        exact ⟨(hend hclosed).2 last rfl, (hend hclosed).1⟩

end

/-! ## Sections -/

namespace CodeNode.StandsIn

variable {node : CodeNode} {text : List Char}

/-- The lines of a run in a document are lines of the document. -/
theorem splitLines_subset (h : node.StandsIn text) :
    splitLines node.text ⊆ splitLines text ∧ splitLines node.text ≠ [] := by
  obtain ⟨run, hrun, htext, hline⟩ := h
  rw [htext, splitLines_run hrun, ← map_raw_documentLines text]
  refine ⟨List.map_subset _ hrun.subset, fun hnil => ?_⟩
  rw [List.map_eq_nil_iff.1 hnil] at hline
  cases hline

theorem text_ne_nil (h : node.StandsIn text) : node.text ≠ [] := by
  intro hnil
  exact h.splitLines_subset.2 (by rw [hnil]; rfl)

/-- Only at the end of a document can a run lack its line break. -/
theorem closed (h : node.StandsIn text) (htext : Closed text) : Closed node.text := by
  by_contra hopen
  obtain ⟨lines, last, hsplit, -, hlast⟩ := exists_open_line hopen
  have hmem : last ∈ splitLines text := h.splitLines_subset.1 (by simp [hsplit])
  obtain ⟨w, -, rfl⟩ := htext.isLine last hmem
  exact hlast (List.mem_append_right w (List.mem_singleton_self _))

end CodeNode.StandsIn

/-- **Which lines the text of a section has:** as many as its runs together, and the rendered
    lines of these, if no run but the last lacks its final line break and the last one does not
    end with a blank line that lacks it; else fewer.  In a document that ends with a line break
    no run lacks it. -/
theorem rendered_lines {text : List Char} {s : Section} (hs : s ∈ (extract text).sections) :
    ((splitLines (codeText s.code)).length =
        total (s.code.map fun node => (splitLines node.text).length) ↔ OpenAtEnd s.code) ∧
    (splitLines (codeText s.code)).length ≤
        total (s.code.map fun node => (splitLines node.text).length) ∧
    (OpenAtEnd s.code → splitLines (codeText s.code) = renderedLines s.code) ∧
    (text = [] ∨ text.getLast? = some '\n' → OpenAtEnd s.code) := by
  have hstands : ∀ node ∈ s.code, node.StandsIn text := fun node => sections_standIn hs
  have hlined := lined_renderedLines fun node hnode => (hstands node hnode).text_ne_nil
  have hpieces := renderedLines_spec s.code
  rw [← flatten_renderedLines, ← length_renderedLines, ← hlined]
  refine ⟨(lined_iff_length hpieces).symm, length_splitLines_flatten_le hpieces,
    Lined.splitLines_flatten, fun htext => hlined.2 fun before node after hcode hopen => ?_⟩
  have hnode : node ∈ s.code := by simp [hcode]
  exact absurd ((hstands node hnode).closed htext) hopen

/-- A document whose last line lacks its line break and is rendered last. -/
def openDocument : List Char :=
  "# a\n\n    ## b\n\n# b\n\n    x\n    y".toList

theorem rendered_lines_openDocument :
    ∃ s ∈ (extract openDocument).sections, codeText s.code = "x\ny".toList ∧
      ((splitLines (codeText s.code)).length =
        total (s.code.map fun node => (splitLines node.text).length) ↔ OpenAtEnd s.code) ∧
      (splitLines (codeText s.code)).length ≤
        total (s.code.map fun node => (splitLines node.text).length) ∧
      (OpenAtEnd s.code → splitLines (codeText s.code) = renderedLines s.code) ∧
      (openDocument = [] ∨ openDocument.getLast? = some '\n' → OpenAtEnd s.code) := by
  have hsections : (extract openDocument).sections =
      [⟨"a", [⟨"    x\n    y".toList, 7, 0, true⟩]⟩] := by cbv
  have hs : (⟨"a", [⟨"    x\n    y".toList, 7, 0, true⟩]⟩ : Section) ∈
      (extract openDocument).sections := by simp [hsections]
  exact ⟨_, hs, by decide +kernel, rendered_lines hs⟩

/-- A document whose last line lacks its line break and is included in front of another. -/
def includedEnd : List Char :=
  "# a\n\n    ## b\n    x\n\n# b\n\n    y".toList

/-- Two lines of different runs end up in one line of the text. -/
theorem lines_joined_includedEnd :
    ∃ s ∈ (extract includedEnd).sections,
      s.code.map CodeNode.text = ["    y".toList, "    x\n".toList] ∧
      codeText s.code = "yx\n".toList ∧
      (splitLines (codeText s.code)).length = 1 ∧
      total (s.code.map fun node => (splitLines node.text).length) = 2 := by
  have hsections : (extract includedEnd).sections =
      [⟨"a", [⟨"    y".toList, 8, 0, true⟩, ⟨"    x\n".toList, 4, 0, true⟩]⟩] := by cbv
  rw [hsections]
  exact ⟨_, List.mem_singleton_self _, by decide +kernel⟩

end LayoutLR
