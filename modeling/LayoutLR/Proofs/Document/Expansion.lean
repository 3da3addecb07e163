/-
  Layout-aware LR toolkit — linearized code is the expansion of its references.

  Expansion collects runs of code and adds up the widths of the references on the
  way to them; the spaces are put in front of the lines at the very end.  The same
  text comes about when every reference line is replaced by the expanded section,
  its lines moved to the right by the width of that reference alone.

  * `plainLine`, `shiftLine`: a line of code as it reads, and moved to the right;
  * `expandLines`: the lines of code with every reference replaced;
  * `RenderedLine`, `expandRendered`: the same, with the lines that they come from;
  * `Outline.renderedOf`, `Outline.renderedOf_eq`: the lines that the outline expands to;
  * `expanded_text`: the text of a section is the expansion of its lines.
-/
import LayoutLR.Proofs.Document.Parts

namespace LayoutLR

open Text

/-! ## Lines of code -/

/-- A line of code as it reads: without its block indent, and empty if it is blank. -/
def plainLine (indented : Bool) (raw : List Char) : List Char :=
  let body := if indented then stripBlockIndent raw else raw
  if isBlankLine body then ['\n'] else body

/-- A line moved to the right, unless it is empty. -/
def shiftLine (columns : Nat) (line : List Char) : List Char :=
  if line = ['\n'] then line else List.replicate columns ' ' ++ line

theorem shiftLine_zero (line : List Char) : shiftLine 0 line = line := by
  unfold shiftLine
  split <;> rfl

/-- Lines are moved step by step. -/
theorem shiftLine_shiftLine (m n : Nat) (line : List Char) :
    shiftLine m (shiftLine n line) = shiftLine (m + n) line := by
  by_cases hempty : line = ['\n']
  · simp [shiftLine, hempty]
  · have hshifted : List.replicate n ' ' ++ line ≠ ['\n'] := by
      cases n with
      | zero => exact hempty
      | succ n => simp [List.replicate_succ]
    rw [shiftLine, shiftLine, if_neg hempty, if_neg hshifted, shiftLine, if_neg hempty,
      ← List.append_assoc, ← List.replicate_add]

/-- Without its block indent a line is still a line. -/
theorem IsLine.strip {raw : List Char} (h : IsLine raw) : IsLine (stripBlockIndent raw) := by
  obtain ⟨w, hw, rfl⟩ := h
  rcases w with _ | ⟨a, w⟩
  · exact ⟨[], nofun, rfl⟩
  unfold stripBlockIndent blockIndent
  split
  · rename_i heq
    obtain ⟨rfl, -⟩ := List.cons.inj heq
    exact ⟨w, fun h => hw (List.mem_cons_of_mem _ h), rfl⟩
  · rename_i more heq
    have hspaces : ∃ v, a :: w = ' ' :: ' ' :: ' ' :: ' ' :: v := by
      rcases w with _ | ⟨b, _ | ⟨c, _ | ⟨d, w⟩⟩⟩ <;> simp_all
    obtain ⟨v, hv⟩ := hspaces
    rw [hv] at hw ⊢
    exact ⟨v, fun h => hw (by simp [h]), rfl⟩
  · exact ⟨a :: w, hw, rfl⟩

/-- A line of a run is put in place by one move. -/
theorem renderLine_eq {raw : List Char} (node : CodeNode) (h : IsLine raw) :
    node.renderLine raw = shiftLine node.indent (plainLine node.needsStrip raw) := by
  have hbody : IsLine (if node.needsStrip then stripBlockIndent raw else raw) := by
    split
    · exact h.strip
    · exact h
  unfold CodeNode.renderLine plainLine
  dsimp only
  by_cases hblank : isBlankLine (if node.needsStrip then stripBlockIndent raw else raw) = true
  · simp [hblank, hbody.getLast?, shiftLine]
  · have hne : (if node.needsStrip then stripBlockIndent raw else raw) ≠ ['\n'] := by
      intro he
      rw [he] at hblank
      exact hblank (by decide)
    rw [if_neg hblank, if_neg hblank, shiftLine, if_neg hne]

/-! ## Expansion, line by line -/

/-- How many code lines belong to sections that are not being expanded. -/
def unopened (text : List Char) (opened : List String) : Nat :=
  (codeLines text).countP fun l => l.owner ∉ opened

theorem unopened_cons (text : List Char) {opened : List String} {name : String}
    (h : name ∉ opened) :
    unopened text opened = unopened text (name :: opened) + (sectionLines text name).length := by
  unfold unopened sectionLines
  induction codeLines text with
  | nil => rfl
  | cons l ls ih =>
    rw [List.countP_cons, List.countP_cons, List.filter_cons, ih]
    by_cases howner : l.owner = name
    · simp [howner, h]
      omega
    · by_cases hopened : l.owner ∈ opened
      · simp [howner, hopened]
      · simp [howner, hopened]
        omega

/-- Lines of code with every reference line replaced by the lines of the section that it refers
    to, moved to the right by its own blanks.  A reference to a section in `opened`, those that
    are being expanded, is replaced by nothing. -/
def expandLines (text : List Char) (opened : List String) : List CodeLine → List (List Char)
  | [] => []
  | l :: rest =>
    (match l.reference? with
      | none => [plainLine l.indented l.line.raw]
      | some (name, columns) =>
        if _h : name ∈ opened then []
        else (expandLines text (name :: opened) (sectionLines text name)).map (shiftLine columns)) ++
      expandLines text opened rest
termination_by lines => (unopened text opened, lines.length)
decreasing_by
  · have hcount := unopened_cons text _h
    rcases Nat.eq_zero_or_pos (sectionLines text name).length with hzero | hpos
    · rw [show unopened text opened = unopened text (name :: opened) by omega, hzero]
      exact Prod.Lex.right _ (Nat.succ_pos _)
    · exact Prod.Lex.left _ _ (by omega)
  · exact Prod.Lex.right _ (by simp)

/-! ## Rendered lines -/

/-- A rendered line of code, and the number of the document line that it comes from. -/
structure RenderedLine where
  text : List Char
  no : Nat
deriving DecidableEq

/-- A rendered line moved to the right. -/
def RenderedLine.shift (columns : Nat) (l : RenderedLine) : RenderedLine :=
  { l with text := shiftLine columns l.text }

/-- The rendered lines of a run, whose lines follow each other in the document. -/
def CodeNode.rendered (node : CodeNode) : List RenderedLine :=
  ((splitLines node.text).zipIdx node.line).map fun e => ⟨node.renderLine e.1, e.2⟩

/-- Lines of code with every reference line replaced, as in `expandLines`, each with the number
    of the line that it comes from. -/
def expandRendered (text : List Char) (opened : List String) : List CodeLine → List RenderedLine
  | [] => []
  | l :: rest =>
    (match l.reference? with
      | none => [⟨plainLine l.indented l.line.raw, l.line.no⟩]
      | some (name, columns) =>
        if _h : name ∈ opened then []
        else (expandRendered text (name :: opened) (sectionLines text name)).map (.shift columns)) ++
      expandRendered text opened rest
termination_by lines => (unopened text opened, lines.length)
decreasing_by
  · have hcount := unopened_cons text _h
    rcases Nat.eq_zero_or_pos (sectionLines text name).length with hzero | hpos
    · rw [show unopened text opened = unopened text (name :: opened) by omega, hzero]
      exact Prod.Lex.right _ (Nat.succ_pos _)
    · exact Prod.Lex.left _ _ (by omega)
  · exact Prod.Lex.right _ (by simp)

theorem RenderedLine.shift_shift (m n : Nat) (l : RenderedLine) :
    (l.shift n).shift m = l.shift (m + n) :=
  congrArg (RenderedLine.mk · l.no) (shiftLine_shiftLine m n l.text)

theorem RenderedLine.shift_zero (l : RenderedLine) : l.shift 0 = l :=
  congrArg (RenderedLine.mk · l.no) (shiftLine_zero l.text)

/-- The texts of the rendered lines of a run make its text. -/
theorem CodeNode.flatMap_rendered (node : CodeNode) :
    node.rendered.flatMap RenderedLine.text = node.render := by
  rw [CodeNode.rendered, List.flatMap_map, CodeNode.render]
  conv_rhs => rw [← List.zipIdx_map_fst node.line (splitLines node.text), List.flatMap_map]

/-- The expanded lines are the texts of the rendered ones. -/
theorem map_text_expandRendered (text : List Char) (opened : List String) (ls : List CodeLine) :
    (expandRendered text opened ls).map RenderedLine.text = expandLines text opened ls := by
  fun_induction expandRendered text opened ls with
  | case1 => rw [expandLines, List.map_nil]
  | case2 opened l rest ihInner ih =>
    rw [expandLines, List.map_append, ih]
    congr 1
    cases l.reference? with
    | none => rfl
    | some r =>
      dsimp only
      by_cases hopened : r.1 ∈ opened
      · rw [dif_pos hopened, dif_pos hopened, List.map_nil]
      · rw [dif_neg hopened, dif_neg hopened, ← ihInner r.1 hopened, List.map_map, List.map_map]
        rfl

namespace Outline

/-! ## Expansion, part by part -/

variable {o : Outline} {closed : List String} {indent : Nat} {ps qs : List Part}

theorem expand_append (o : Outline) (closed : List String) (indent : Nat) (ps qs : List Part) :
    o.expand closed indent (ps ++ qs) =
      (o.expand closed indent ps).append (o.expand closed indent qs) := by
  induction ps with
  | nil =>
    rw [List.nil_append, expand.eq_1]
    rfl
  | cons p ps ih =>
    cases p with
    | code node =>
      rw [List.cons_append, expand, expand, ih]
      simp [Expansion.append]
    | reference name width line =>
      rw [List.cons_append, expand, expand, ih]
      split <;> simp [Expansion.append]

/-- The rendered lines of what some parts expand to. -/
def renderedOf (o : Outline) (closed : List String) (indent : Nat) (ps : List Part) :
    List RenderedLine :=
  (o.expand closed indent ps).code.flatMap CodeNode.rendered

theorem renderedOf_append (o : Outline) (closed : List String) (indent : Nat)
    (ps qs : List Part) : o.renderedOf closed indent (ps ++ qs) =
      o.renderedOf closed indent ps ++ o.renderedOf closed indent qs := by
  rw [renderedOf, expand_append]
  exact List.flatMap_append

theorem renderedOf_code (node : CodeNode) : o.renderedOf closed indent [.code node] =
    ({ node with indent := node.indent + indent } : CodeNode).rendered := by
  simp [renderedOf, expand, Expansion.append, Expansion.empty]

theorem renderedOf_reference (name : String) (columns line : Nat) :
    o.renderedOf closed indent [.reference name columns line] =
      if name ∈ closed then o.renderedOf (closed.erase name) (indent + columns) (o.parts name)
      else [] := by
  unfold renderedOf
  rw [expand, expand]
  split <;> simp [Expansion.append, Expansion.empty]

/-- The rendered lines that one line of code becomes. -/
def renderedLine (o : Outline) (closed : List String) (indent : Nat) (l : CodeLine) :
    List RenderedLine :=
  match l.reference? with
  | none => [⟨shiftLine indent (plainLine l.indented l.line.raw), l.line.no⟩]
  | some (name, columns) =>
    if name ∈ closed then o.renderedOf (closed.erase name) (indent + columns) (o.parts name)
    else []

variable {text : List Char} {run lines : List DocLine} {owner name : String} {indented : Bool}

theorem renderedOf_runOf (hlines : ∀ l ∈ documentLines text, IsLine l.raw)
    (h : run <:+: documentLines text) : o.renderedOf closed indent (runOf indented run) =
      run.map fun l => ⟨shiftLine indent (plainLine indented l.raw), l.no⟩ := by
  cases run with
  | nil =>
    rw [runOf, renderedOf, expand]
    rfl
  | cons line rest =>
    rw [runOf, renderedOf_code, CodeNode.rendered, splitLines_run h, zipIdx_run h rfl, List.map_map]
    refine List.map_congr_left fun l hl => ?_
    rw [Function.comp_apply, renderLine_eq _ (hlines l (h.subset hl)), Nat.zero_add]

theorem renderedOf_partsFrom (hlines : ∀ l ∈ documentLines text, IsLine l.raw) (owner : String)
    (run : List DocLine) (h : run.reverse ++ lines <:+: documentLines text) :
    o.renderedOf closed indent (partsFrom indented run lines) =
      (run.reverse.map fun l => ⟨shiftLine indent (plainLine indented l.raw), l.no⟩) ++
        lines.flatMap fun l => o.renderedLine closed indent ⟨owner, indented, l⟩ := by
  induction lines generalizing run with
  | nil =>
    rw [List.append_nil] at h
    rw [partsFrom, renderedOf_runOf hlines h, List.flatMap_nil, List.append_nil]
  | cons line rest ih =>
    have hreference := referenceOf?_eq ⟨owner, indented, line⟩
    rw [partsFrom, List.flatMap_cons, renderedLine]
    cases hr : CodeLine.reference? ⟨owner, indented, line⟩ with
    | none =>
      rw [hr] at hreference
      rw [show referenceOf? indented line = none from hreference]
      dsimp only
      rw [ih _ (by simpa using h), List.reverse_cons, List.map_append, List.map_singleton,
        List.append_assoc]
    | some r =>
      rw [hr] at hreference
      rw [show referenceOf? indented line = some (.reference r.1 r.2 line.no) from hreference]
      dsimp only
      have hrest : rest <:+: documentLines text :=
        ((List.suffix_cons line rest).trans (List.suffix_append _ _)).isInfix.trans h
      rw [renderedOf_append, renderedOf_runOf hlines ((List.prefix_append _ _).isInfix.trans h),
        ← List.singleton_append, renderedOf_append, renderedOf_reference, ih [] hrest]
      rfl

/-- The rendered lines of a section, line by line. -/
theorem renderedOf_partsOf (hlines : ∀ l ∈ documentLines text, IsLine l.raw) (name : String) :
    o.renderedOf closed indent (partsOf text name) =
      (sectionLines text name).flatMap (o.renderedLine closed indent) := by
  rw [partsOf, partsAmong, sectionLines_eq]
  have hmem : ∀ p ∈ (passages text).filter fun p => p.owner == name, p ∈ passages text :=
    fun p hp => (List.mem_filter.1 hp).1
  generalize (passages text).filter (fun p => p.owner == name) = ps at hmem
  induction ps with
  | nil =>
    rw [List.flatMap_nil, renderedOf, expand]
    rfl
  | cons p ps ih =>
    rw [List.flatMap_cons, renderedOf_append, ih fun q hq => hmem q (List.mem_cons_of_mem _ hq),
      List.flatMap_cons, List.flatMap_append, Passage.codeLines, List.flatMap_map]
    exact congrArg (· ++ _)
      (renderedOf_partsFrom hlines p.owner [] (infix_passages (hmem p List.mem_cons_self)))

/-! ## Both expansions agree -/

/-- Moving the lines of each section by the width of its own reference, one level after the
    other, is moving them by the sum. -/
theorem renderedOf_eq (hlines : ∀ l ∈ documentLines text, IsLine l.raw) {opened : List String}
    (hnodup : closed.Nodup)
    (hclosed : ∀ n ∈ (outline text).map Entry.name, n ∈ closed ↔ n ∉ opened) (indent : Nat)
    (name : String) : (outline text).renderedOf closed indent (partsOf text name) =
      (expandRendered text opened (sectionLines text name)).map (.shift indent) := by
  induction hsize : closed.length using Nat.strongRecOn generalizing closed opened indent name with
  | ind size ih =>
    subst hsize
    rw [renderedOf_partsOf hlines]
    have hmem : ∀ l ∈ sectionLines text name, l ∈ codeLines text :=
      fun l hl => (List.mem_filter.1 hl).1
    generalize sectionLines text name = ls at hmem
    induction ls with
    | nil =>
      rw [expandRendered]
      rfl
    | cons l ls ihl =>
      rw [expandRendered, List.flatMap_cons, List.map_append,
        ihl fun l' hl' => hmem l' (List.mem_cons_of_mem _ hl'), renderedLine]
      congr 1
      cases hr : l.reference? with
      | none => rfl
      | some r =>
        obtain ⟨n, columns⟩ := r
        dsimp only
        have hn := hclosed n (mem_names_of_reference (hmem l List.mem_cons_self) hr)
        by_cases hopened : n ∈ opened
        · rw [if_neg (fun h => hn.1 h hopened), dif_pos hopened]
          rfl
        · have hin := hn.2 hopened
          have hlt : (closed.erase n).length < closed.length := by
            have := List.length_erase_of_mem hin
            have := List.length_pos_of_mem hin
            omega
          have hclosed' : ∀ m ∈ (outline text).map Entry.name,
              m ∈ closed.erase n ↔ m ∉ n :: opened := by
            intro m hm
            rw [hnodup.mem_erase_iff, hclosed m hm, List.mem_cons, not_or]
          rw [if_pos hin, dif_neg hopened, (outline_tells text).parts_eq,
            ih _ hlt (hnodup.erase n) hclosed' _ _ rfl, List.map_map]
          simp only [Function.comp_def, RenderedLine.shift_shift]

/-- The text of what some parts expand to. -/
def textOf (o : Outline) (closed : List String) (indent : Nat) (ps : List Part) : List Char :=
  codeText (o.expand closed indent ps).code

theorem textOf_eq_flatMap (o : Outline) (closed : List String) (indent : Nat) (ps : List Part) :
    o.textOf closed indent ps = (o.renderedOf closed indent ps).flatMap RenderedLine.text := by
  rw [renderedOf, List.flatMap_assoc, textOf, codeText]
  exact List.flatMap_congr fun node _ => node.flatMap_rendered.symm

/-- The text is that of the moved lines. -/
theorem textOf_eq (hlines : ∀ l ∈ documentLines text, IsLine l.raw) {opened : List String}
    (hnodup : closed.Nodup)
    (hclosed : ∀ n ∈ (outline text).map Entry.name, n ∈ closed ↔ n ∉ opened) (indent : Nat)
    (name : String) : (outline text).textOf closed indent (partsOf text name) =
      ((expandLines text opened (sectionLines text name)).map (shiftLine indent)).flatten := by
  rw [textOf_eq_flatMap, renderedOf_eq hlines hnodup hclosed, ← map_text_expandRendered,
    List.map_map, ← List.flatMap_def, List.flatMap_map]
  rfl

end Outline

/-- **Linearized code is the recursive expansion of its references.** -/
theorem expanded_text (text : List Char) (htext : text = [] ∨ text.getLast? = some '\n') :
    ∀ s ∈ (extract text).sections,
      codeText s.code = (expandLines text [s.name] (sectionLines text s.name)).flatten := by
  intro s hs
  rw [sections_eq] at hs
  obtain ⟨e, he, rfl⟩ := List.mem_map.1 hs
  have he := (List.mem_filter.1 he).1
  have htells := outline_tells text
  have hlines : ∀ l ∈ documentLines text, IsLine l.raw := by
    intro l hl
    refine Closed.isLine htext l.raw ?_
    rw [← map_raw_documentLines]
    exact List.mem_map_of_mem hl
  have hclosed : ∀ n ∈ (outline text).map Entry.name,
      n ∈ ((outline text).map Entry.name).erase e.name ↔ n ∉ [e.name] := by
    intro n hn
    rw [htells.nodup.mem_erase_iff, List.mem_singleton]
    exact and_iff_left hn
  have h := Outline.textOf_eq hlines (htells.nodup.erase e.name) hclosed 0 e.name
  rw [← (htells.entry e he).1, show shiftLine 0 = id from funext shiftLine_zero, List.map_id] at h
  exact h

/-- A fenced section inside an indented one, and a section below that refers back. -/
def nestedSections : List Char :=
  "# a\n\n    f\n      ## b\n    g\n\n# b\n```\n\t## c\n \nx\n```\n# c\n\n    y\n      ## b\n      z\n".toList

theorem expanded_text_nestedSections :
    (nestedSections = [] ∨ nestedSections.getLast? = some '\n') ∧
    (extract nestedSections).sections.map (fun s => codeText s.code) =
      ["f\n          y\n            z\n\n  x\ng\n".toList] ∧
    ∀ s ∈ (extract nestedSections).sections, codeText s.code =
      (expandLines nestedSections [s.name] (sectionLines nestedSections s.name)).flatten := by
  have htext : nestedSections.getLast? = some '\n' := by decide +kernel
  exact ⟨Or.inr htext, by cbv, expanded_text nestedSections (Or.inr htext)⟩

end LayoutLR
