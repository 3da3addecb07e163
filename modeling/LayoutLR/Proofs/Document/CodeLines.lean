/-
  Layout-aware LR toolkit — the code lines of a document, read line by line.

  Whether a line is code depends on what was read before: behind a fence every
  line is code up to the closing fence; an indented line is code after a blank
  line, a heading, a fence or another line of its block; and a blank line belongs
  to an indented block if the next visible line does.  A heading changes the
  section that the code after it belongs to.

  * `CodeLine`, `CodeLine.reference?`: a code line, and the section that it refers to;
  * `Region`, `Region.codeLines`, `codeLines`: the code lines, each with its section;
  * `Passage`, `passages`: the code blocks of a document with their sections;
  * `codeLines_eq`: the lines of the blocks are the code lines;
  * `sublist_codeLines`, `infix_passages`: code lines come in the order of the
    document, and those of one block without a gap.
-/
import Mathlib.Data.List.Infix
import LayoutLR.Document.Section
import LayoutLR.Proofs.Document.Lines

namespace LayoutLR

open Text

/-! ## Line by line -/

/-- Where a line of a document stands. -/
inductive Region where
  /-- In prose; `afterBlank` tells whether an indented line is code here. -/
  | prose (afterBlank : Bool)
  /-- Below a line of an indented block. -/
  | indented
  /-- Behind an opening fence. -/
  | fenced (fence : Fence)
deriving DecidableEq

/-- A line of code. -/
structure CodeLine where
  /-- The section that the line belongs to. -/
  owner : String
  /-- Whether the line belongs to an indented block, so that it carries a block indent. -/
  indented : Bool
  line : DocLine
deriving DecidableEq

namespace CodeLine

/-- What a line says, behind its block indent. -/
def content (l : CodeLine) : List Char :=
  if l.indented then stripBlockIndent l.line.text else l.line.text

/-- The section that a line refers to, if its first visible characters are `##`, and how wide
    the blanks in front of these are. -/
def reference? (l : CodeLine) : Option (String × Nat) :=
  let visible := l.content.dropWhile isBlank
  if ['#', '#'] <+: visible then
    some (sectionName visible, width (l.content.takeWhile isBlank))
  else none

end CodeLine

/-- Whether the next visible line is indented. -/
def indentedAhead (lines : List DocLine) : Bool :=
  (lines.find? fun line => !isBlankLine line.text).any fun line =>
    decide (0 < blockIndent line.text)

/-- The code among some lines, `current` being the section that code belongs to. -/
def Region.codeLines (current : String) : Region → List DocLine → List CodeLine
  | _, [] => []
  | .fenced fence, line :: rest =>
    if fence.closedBy line then codeLines current (.prose true) rest
    else ⟨current, false, line⟩ :: codeLines current (.fenced fence) rest
  | region, line :: rest =>
    if isBlankLine line.text then
      if region = .indented ∧ indentedAhead rest = true then
        ⟨current, true, line⟩ :: codeLines current .indented rest
      else codeLines current (.prose true) rest
    else match Fence.ofLine? line.text with
      | some fence => codeLines current (.fenced fence) rest
      | none =>
        if line.text.head? = some '#' then codeLines (sectionName line.text) (.prose true) rest
        else if region ≠ .prose false ∧ 0 < blockIndent line.text then
          ⟨current, true, line⟩ :: codeLines current .indented rest
        else codeLines current (.prose false) rest

/-- The code lines of a document; code before the first heading belongs to the section
    without a name. -/
def codeLines (text : List Char) : List CodeLine :=
  Region.codeLines "" (.prose true) (documentLines text)

/-! ## Block by block -/

/-- A code block, and the section that it belongs to. -/
structure Passage where
  owner : String
  indented : Bool
  lines : List DocLine

/-- The lines of a block as lines of code. -/
def Passage.codeLines (p : Passage) : List CodeLine :=
  p.lines.map fun line => ⟨p.owner, p.indented, line⟩

/-- The code blocks with their sections, `current` being the section at the front. -/
def passagesFrom (current : String) : List Block → List Passage
  | [] => []
  | .heading name _ :: rest => passagesFrom name rest
  | .code _ indented lines :: rest => ⟨current, indented, lines⟩ :: passagesFrom current rest
  | .unclosed _ lines :: rest => ⟨current, false, lines⟩ :: passagesFrom current rest

/-- The code blocks of a document with their sections. -/
def passages (text : List Char) : List Passage :=
  passagesFrom "" (blocks text)

section

variable {current : String} {region : Region} {fence : Fence} {line : DocLine}
  {lines rest : List DocLine}

/-! ## Fenced blocks -/

theorem codeLines_fenced (current : String) (fence : Fence) (rest : List DocLine) :
    Region.codeLines current (.fenced fence) rest =
      (rest.takeWhile fun l => !fence.closedBy l).map (⟨current, false, ·⟩) ++
        Region.codeLines current (.prose true)
          (rest.drop ((rest.takeWhile fun l => !fence.closedBy l).length + 1)) := by
  induction rest with
  | nil => rfl
  | cons line rest ih =>
    rw [Region.codeLines]
    by_cases hclosed : fence.closedBy line = true
    · simp [hclosed]
    · simp [hclosed, ih]

/-! ## Indented blocks -/

/-- An indented line is neither a fence nor a heading. -/
theorem of_blockIndent {cs : List Char} (h : 0 < blockIndent cs) :
    Fence.ofLine? cs = none ∧ cs.head? ≠ some '#' := by
  unfold blockIndent at h
  split at h
  · simp [Fence.ofLine?, Fence.run?]
  · rename_i more
    have hspaces : 3 < ((' ' :: ' ' :: ' ' :: ' ' :: more).takeWhile (· == ' ')).length := by
      simp
    exact ⟨by rw [Fence.ofLine?, if_pos hspaces], by simp⟩
  · exact absurd h (Nat.lt_irrefl 0)

/-- A line that a block may go on with is left out just if it is blank and nothing of the block
    follows. -/
theorem indentedRest_continues (h : line.continuesBlock = true) : indentedRest (line :: rest) =
    if indentedRest rest = [] ∧ isBlankLine line.text = true then []
    else line :: indentedRest rest := by
  rw [indentedRest, List.takeWhile_cons, if_pos h, List.reverse_cons, List.dropWhile_append]
  unfold indentedRest
  by_cases hnil : (List.dropWhile (fun line => isBlankLine line.text)
      (rest.takeWhile DocLine.continuesBlock).reverse) = []
  · cases hblank : isBlankLine line.text <;> simp [hnil, hblank]
  · simp [hnil, List.isEmpty_iff]

theorem indentedRest_blank (h : isBlankLine line.text = true) : indentedRest (line :: rest) =
    if indentedRest rest = [] then [] else line :: indentedRest rest := by
  have hcontinues : line.continuesBlock = true := by simp [DocLine.continuesBlock, h]
  simp only [indentedRest_continues hcontinues, h, and_true]

theorem indentedRest_indented (h : isBlankLine line.text = false)
    (hindent : 0 < blockIndent line.text) :
    indentedRest (line :: rest) = line :: indentedRest rest := by
  have hcontinues : line.continuesBlock = true := by simp [DocLine.continuesBlock, hindent]
  rw [indentedRest_continues hcontinues, if_neg (by simp [h])]

theorem indentedRest_outside (h : isBlankLine line.text = false)
    (hindent : ¬ 0 < blockIndent line.text) : indentedRest (line :: rest) = [] := by
  have hcontinues : ¬ line.continuesBlock = true := by simp [DocLine.continuesBlock, h, hindent]
  rw [indentedRest, List.takeWhile_cons, if_neg hcontinues]
  rfl

/-- A blank line is inside a block if the next visible line is. -/
theorem indentedAhead_iff (lines : List DocLine) :
    indentedAhead lines = true ↔ indentedRest lines ≠ [] := by
  induction lines with
  | nil => simp [indentedAhead, indentedRest]
  | cons line rest ih =>
    by_cases hblank : isBlankLine line.text = true
    · rw [indentedRest_blank hblank]
      have : indentedAhead (line :: rest) = indentedAhead rest := by simp [indentedAhead, hblank]
      rw [this, ih]
      by_cases hnil : indentedRest rest = [] <;> simp [hnil]
    · have hblank : isBlankLine line.text = false := by simpa using hblank
      have hahead : indentedAhead (line :: rest) = decide (0 < blockIndent line.text) := by
        simp [indentedAhead, hblank]
      rw [hahead]
      by_cases hindent : 0 < blockIndent line.text
      · simp [indentedRest_indented hblank hindent, hindent]
      · simp [indentedRest_outside hblank hindent, hindent]

/-- What belongs to a block comes first. -/
theorem indentedRest_isPrefix (rest : List DocLine) : indentedRest rest <+: rest := by
  have hsuffix : (rest.takeWhile DocLine.continuesBlock).reverse.dropWhile
      (fun line => isBlankLine line.text) <:+ (rest.takeWhile DocLine.continuesBlock).reverse :=
    List.dropWhile_suffix _
  rw [← List.reverse_prefix, List.reverse_reverse] at hsuffix
  exact hsuffix.trans (List.takeWhile_prefix _)

theorem codeLines_blank (current : String) (afterBlank : Bool) (h : isBlankLine line.text = true) :
    Region.codeLines current (.prose afterBlank) (line :: rest) =
      Region.codeLines current (.prose true) rest := by
  simp [Region.codeLines, h]

/-- Below a line of an indented block, code goes on up to the end of the block. -/
theorem codeLines_indented (current : String) (rest : List DocLine) :
    Region.codeLines current .indented rest =
      (indentedRest rest).map (⟨current, true, ·⟩) ++
        Region.codeLines current (.prose false) (rest.drop (indentedRest rest).length) := by
  induction rest with
  | nil => rfl
  | cons line rest ih =>
    by_cases hblank : isBlankLine line.text = true
    · rw [indentedRest_blank hblank]
      by_cases hnil : indentedRest rest = []
      · -- the block has ended before this line
        have hahead : ¬ indentedAhead rest = true := by simp [indentedAhead_iff, hnil]
        rw [if_pos hnil, List.map_nil, List.length_nil, List.drop_zero, List.nil_append,
          codeLines_blank current false hblank]
        simp [Region.codeLines, hblank, hahead]
      · have hahead : indentedAhead rest = true := (indentedAhead_iff rest).2 hnil
        rw [if_neg hnil]
        simp [Region.codeLines, hblank, hahead, ih]
    · have hblank : isBlankLine line.text = false := by simpa using hblank
      by_cases hindent : 0 < blockIndent line.text
      · obtain ⟨hfence, hhead⟩ := of_blockIndent hindent
        rw [indentedRest_indented hblank hindent]
        simp [Region.codeLines, hblank, hfence, hhead, hindent, ih]
      · rw [indentedRest_outside hblank hindent]
        simp [Region.codeLines, hblank, hindent]

/-! ## The two readings agree -/

/-- The code lines are the lines of the blocks. -/
theorem codeLines_prose (current : String) (afterBlank : Bool) (lines : List DocLine) :
    Region.codeLines current (.prose afterBlank) lines =
      (passagesFrom current (blocksFrom afterBlank lines)).flatMap Passage.codeLines := by
  fun_induction blocksFrom afterBlank lines generalizing current with
  | case1 => rfl
  | case2 afterBlank line rest text hblank ih => rw [codeLines_blank current _ hblank, ih]
  | case3 afterBlank line rest text hblank fence hfence body hdrop =>
    have hend : rest.drop (body.length + 1) = [] := by
      rw [← List.drop_drop, hdrop, List.drop_nil]
    rw [Region.codeLines.eq_3 _ _ _ _ (by simp), if_neg hblank, hfence]
    dsimp only
    rw [codeLines_fenced, hend]
    simp [passagesFrom, Passage.codeLines, Region.codeLines, body]
  | case4 afterBlank line rest text hblank fence hfence body l ls hdrop ih =>
    rw [Region.codeLines.eq_3 _ _ _ _ (by simp), if_neg hblank, hfence]
    dsimp only
    rw [codeLines_fenced, ih]
    simp [passagesFrom, Passage.codeLines, body]
  | case5 afterBlank line rest text hblank hfence hhead ih =>
    rw [Region.codeLines.eq_3 _ _ _ _ (by simp), if_neg hblank, hfence]
    dsimp only
    rw [if_pos hhead, ih]
    rfl
  | case6 afterBlank line rest text hblank hfence hhead hstart body ih =>
    obtain ⟨rfl, hindent⟩ : afterBlank = true ∧ 0 < blockIndent text := by simpa using hstart
    rw [Region.codeLines.eq_3 _ _ _ _ (by simp), if_neg hblank, hfence]
    dsimp only
    rw [if_neg hhead, if_pos ⟨by simp, hindent⟩, codeLines_indented, ih]
    simp [passagesFrom, Passage.codeLines, body]
  | case7 afterBlank line rest text hblank hfence hhead hstart ih =>
    have hstart : ¬ (Region.prose afterBlank ≠ .prose false ∧ 0 < blockIndent text) := by
      simpa using hstart
    rw [Region.codeLines.eq_3 _ _ _ _ (by simp), if_neg hblank, hfence]
    dsimp only
    rw [if_neg hhead, if_neg hstart, ih]

theorem codeLines_eq (text : List Char) :
    codeLines text = (passages text).flatMap Passage.codeLines :=
  codeLines_prose "" true _

/-! ## Code lines in the document -/

/-- Code lines come in the order of the document. -/
theorem sublist_codeLines (current : String) (region : Region) (lines : List DocLine) :
    ((Region.codeLines current region lines).map CodeLine.line).Sublist lines := by
  fun_induction Region.codeLines current region lines with
  | case1 => exact .slnil
  | case2 _ _ _ _ _ ih => exact ih.cons _
  | case3 _ _ _ _ _ ih => exact ih.cons_cons _
  | case4 _ _ _ _ _ _ _ ih => exact ih.cons_cons _
  | case5 _ _ _ _ _ _ _ ih => exact ih.cons _
  | case6 _ _ _ _ _ _ _ _ ih => exact ih.cons _
  | case7 _ _ _ _ _ _ _ _ ih => exact ih.cons _
  | case8 _ _ _ _ _ _ _ _ _ ih => exact ih.cons_cons _
  | case9 _ _ _ _ _ _ _ _ _ ih => exact ih.cons _

theorem codeLines_sublist (text : List Char) :
    ((codeLines text).map CodeLine.line).Sublist (documentLines text) :=
  sublist_codeLines _ _ _

/-- No two code lines have the same number. -/
theorem codeLines_nodup (text : List Char) :
    ((codeLines text).map fun l => l.line.no).Nodup := by
  have h := (codeLines_sublist text).map DocLine.no
  rw [List.map_map] at h
  exact (documentLines_nodup text).sublist h

/-- The lines of a block follow one another in the document. -/
theorem infix_passagesFrom (current : String) (afterBlank : Bool) (lines : List DocLine) :
    ∀ p ∈ passagesFrom current (blocksFrom afterBlank lines), p.lines <:+: lines := by
  fun_induction blocksFrom afterBlank lines generalizing current with
  | case1 => nofun
  | case2 afterBlank line rest text hblank ih =>
    exact fun p h => (ih current p h).trans (List.suffix_cons line rest).isInfix
  | case3 afterBlank line rest text hblank fence hfence body hdrop =>
    intro p h
    obtain rfl := List.mem_singleton.1 h
    exact (List.takeWhile_prefix _).isInfix.trans (List.suffix_cons line rest).isInfix
  | case4 afterBlank line rest text hblank fence hfence body l ls hdrop ih =>
    intro p h
    rcases List.mem_cons.1 h with rfl | h
    · exact (List.takeWhile_prefix _).isInfix.trans (List.suffix_cons line rest).isInfix
    · refine (ih current p h).trans (List.IsSuffix.isInfix ?_)
      exact (List.drop_suffix _ rest).trans (List.suffix_cons line rest)
  | case5 afterBlank line rest text hblank hfence hhead ih =>
    exact fun p h => (ih _ p h).trans (List.suffix_cons line rest).isInfix
  | case6 afterBlank line rest text hblank hfence hhead hstart body ih =>
    intro p h
    rcases List.mem_cons.1 h with rfl | h
    · exact ((List.prefix_cons_inj line).2 (indentedRest_isPrefix rest)).isInfix
    · refine (ih current p h).trans (List.IsSuffix.isInfix ?_)
      exact (List.drop_suffix _ rest).trans (List.suffix_cons line rest)
  | case7 afterBlank line rest text hblank hfence hhead hstart ih =>
    exact fun p h => (ih current p h).trans (List.suffix_cons line rest).isInfix

theorem infix_passages {text : List Char} {p : Passage} (h : p ∈ passages text) :
    p.lines <:+: documentLines text :=
  infix_passagesFrom "" true _ p h

end

end LayoutLR
