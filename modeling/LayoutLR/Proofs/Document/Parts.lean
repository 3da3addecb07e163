/-
  Layout-aware LR toolkit — the parts of a block and its lines.

  A block is cut at its reference lines.  What lies between two of them is one run
  of code, and each reference line is a reference.

  * `referenceOf?_eq`: which lines are references, and to what;
  * `Passage.standsIn`: a run of code is a stretch of lines of the document;
  * `mem_names_of_reference`: what is referred to has an entry in the outline;
  * `Passage.covered_parts`: the runs of a block cover its lines, reference lines apart.
-/
import LayoutLR.Proofs.Document.Outline

namespace LayoutLR

open Text

/-! ## Reference lines -/

theorem sectionName_hashes (rest : List Char) :
    sectionName ('#' :: '#' :: rest) = sectionName rest := by
  simp [sectionName]

/-- A line refers to a section as its text says. -/
theorem referenceOf?_eq (l : CodeLine) : referenceOf? l.indented l.line =
    l.reference?.map fun r => .reference r.1 r.2 l.line.no := by
  have hcontent : (if l.indented then stripBlockIndent l.line.text else l.line.text) = l.content :=
    rfl
  have hsplit : l.content.takeWhile isBlank ++ l.content.dropWhile isBlank = l.content :=
    List.takeWhile_append_dropWhile
  rw [referenceOf?, hcontent, CodeLine.reference?, trimLeft]
  dsimp only
  split
  · rename_i rest hvisible
    have hfront : l.content.take (l.content.length - (rest.length + 2)) =
        l.content.takeWhile isBlank := by
      rw [hvisible] at hsplit
      have hlength := congrArg List.length hsplit
      rw [List.length_append, List.length_cons, List.length_cons] at hlength
      conv_lhs => rw [← hsplit]
      refine List.take_left' ?_
      rw [hsplit]
      omega
    rw [hfront, hvisible, if_pos ⟨rest, rfl⟩, sectionName_hashes]
    rfl
  · rename_i hnone
    rw [if_neg]
    · rfl
    · rintro ⟨rest, hvisible⟩
      exact hnone rest hvisible.symm

/-! ## Runs of code -/

/-- The numbers of the lines that a part covers. -/
def Part.covered : Part → List Nat
  | .code node => node.covered
  | .reference _ _ _ => []

section

variable {text : List Char} {indented : Bool} {run lines : List DocLine} {node : CodeNode}

theorem standsIn_runOf (h : run <:+: documentLines text)
    (hnode : .code node ∈ runOf indented run) : node.StandsIn text ∧ node.indent = 0 := by
  cases run with
  | nil => cases hnode
  | cons line rest =>
    cases List.mem_singleton.1 hnode
    exact ⟨⟨line :: rest, h, rfl, rfl⟩, rfl⟩

theorem covered_runOf (h : run <:+: documentLines text) :
    (runOf indented run).flatMap Part.covered = run.map DocLine.no := by
  cases run with
  | nil => rfl
  | cons line rest =>
    rw [runOf, List.flatMap_singleton]
    exact CodeNode.StandsIn.covered_eq h rfl rfl

theorem standsIn_partsFrom (run : List DocLine) (h : run.reverse ++ lines <:+: documentLines text)
    (hnode : .code node ∈ partsFrom indented run lines) :
    node.StandsIn text ∧ node.indent = 0 := by
  induction lines generalizing run with
  | nil => exact standsIn_runOf (by simpa using h) hnode
  | cons line rest ih =>
    rw [partsFrom] at hnode
    split at hnode
    · rename_i reference hreference
      rcases List.mem_append.1 hnode with hnode | hnode
      · exact standsIn_runOf ((List.prefix_append _ _).isInfix.trans h) hnode
      · rcases List.mem_cons.1 hnode with rfl | hnode
        · -- a reference is no run of code
          have := referenceOf?_eq ⟨"", indented, line⟩
          rw [hreference] at this
          obtain ⟨r, -, hr⟩ := Option.map_eq_some_iff.1 this.symm
          cases hr
        · have hrest : rest <:+: documentLines text :=
            ((List.suffix_cons line rest).trans (List.suffix_append _ _)).isInfix.trans h
          exact ih [] hrest hnode
    · exact ih _ (by simpa using h) hnode

theorem covered_partsFrom (run : List DocLine) (h : run.reverse ++ lines <:+: documentLines text) :
    (partsFrom indented run lines).flatMap Part.covered =
      (run.reverse ++ lines.filter fun l => (referenceOf? indented l).isNone).map DocLine.no := by
  induction lines generalizing run with
  | nil =>
    rw [List.append_nil] at h
    rw [partsFrom, covered_runOf h, List.filter_nil, List.append_nil]
  | cons line rest ih =>
    rw [partsFrom]
    split
    · rename_i reference hreference
      have hrest : rest <:+: documentLines text :=
        ((List.suffix_cons line rest).trans (List.suffix_append _ _)).isInfix.trans h
      have hcovered : Part.covered reference = [] := by
        have := referenceOf?_eq ⟨"", indented, line⟩
        rw [hreference] at this
        obtain ⟨r, -, rfl⟩ := Option.map_eq_some_iff.1 this.symm
        rfl
      rw [List.flatMap_append, covered_runOf ((List.prefix_append _ _).isInfix.trans h),
        List.flatMap_cons, hcovered, List.nil_append, ih [] hrest,
        List.filter_cons_of_neg (by simp [hreference]), List.reverse_nil, List.nil_append,
        List.map_append]
    · rename_i hreference
      rw [ih _ (by simpa using h), List.filter_cons_of_pos (by simp [hreference])]
      simp

/-- A reference line makes a reference. -/
theorem mem_partsFrom {line : DocLine} {reference : Part} (run : List DocLine)
    (hline : line ∈ lines) (h : referenceOf? indented line = some reference) :
    reference ∈ partsFrom indented run lines := by
  induction lines generalizing run with
  | nil => cases hline
  | cons l rest ih =>
    rw [partsFrom]
    rcases List.mem_cons.1 hline with rfl | hline
    · rw [h]
      exact List.mem_append_right _ List.mem_cons_self
    · split
      · exact List.mem_append_right _ (List.mem_cons_of_mem _ (ih [] hline))
      · exact ih _ hline

end

/-! ## Blocks -/

section

variable {text : List Char} {p : Passage} {node : CodeNode} {name : String}

theorem Passage.standsIn (hp : p ∈ passages text) (hnode : .code node ∈ p.parts) :
    node.StandsIn text ∧ node.indent = 0 :=
  standsIn_partsFrom [] (infix_passages hp) hnode

/-- A section that a line refers to is mentioned. -/
theorem mem_names_of_reference {l : CodeLine} {columns : Nat} (hl : l ∈ codeLines text)
    (h : l.reference? = some (name, columns)) : name ∈ (outline text).map Entry.name := by
  by_contra habsent
  have hcount := ((outline_tells text).absent name habsent).2
  rw [codeLines_eq] at hl
  obtain ⟨p, hp, hl⟩ := List.mem_flatMap.1 hl
  obtain ⟨line, hline, rfl⟩ := List.mem_map.1 hl
  have hreference := referenceOf?_eq ⟨p.owner, p.indented, line⟩
  rw [h] at hreference
  rw [referencesTo, referencesAmong, List.countP_eq_zero] at hcount
  refine hcount _ (List.mem_flatMap.2 ⟨p, hp, mem_partsFrom [] hline hreference⟩) ?_
  simp [Part.refersTo]

/-- The code lines that are no references. -/
def plainLines (lines : List CodeLine) : List Nat :=
  (lines.filter fun l => l.reference?.isNone).map fun l => l.line.no

theorem plainLines_append (ls ms : List CodeLine) :
    plainLines (ls ++ ms) = plainLines ls ++ plainLines ms := by
  rw [plainLines, List.filter_append, List.map_append]
  rfl

/-- The runs of a block cover its lines, reference lines apart. -/
theorem Passage.covered_parts (hp : p ∈ passages text) :
    p.parts.flatMap Part.covered = plainLines p.codeLines := by
  have hplain : ∀ l : DocLine, (referenceOf? p.indented l).isNone =
      (CodeLine.reference? ⟨p.owner, p.indented, l⟩).isNone := fun l => by
    have := referenceOf?_eq ⟨p.owner, p.indented, l⟩
    rw [show referenceOf? p.indented l = _ from this, Option.isNone_map]
  rw [Passage.parts, LayoutLR.parts, covered_partsFrom [] (infix_passages hp), plainLines,
    Passage.codeLines, List.filter_map, List.map_map]
  simp [hplain, Function.comp_def]

/-- The runs of some blocks. -/
theorem covered_passages {ps : List Passage} (hps : ∀ p ∈ ps, p ∈ passages text) :
    (ps.flatMap Passage.parts).flatMap Part.covered =
      plainLines (ps.flatMap Passage.codeLines) := by
  induction ps with
  | nil => rfl
  | cons p ps ih =>
    rw [List.flatMap_cons, List.flatMap_append, List.flatMap_cons, plainLines_append,
      Passage.covered_parts (hps p List.mem_cons_self),
      ih fun q hq => hps q (List.mem_cons_of_mem _ hq)]

/-! ## Sections -/

/-- The code lines of a section. -/
def sectionLines (text : List Char) (name : String) : List CodeLine :=
  (codeLines text).filter fun l => l.owner == name

theorem filter_codeLines (p : Passage) (name : String) :
    p.codeLines.filter (fun l => l.owner == name) =
      if p.owner == name then p.codeLines else [] := by
  rw [Passage.codeLines]
  split_ifs with howner
  · rw [List.filter_eq_self]
    intro l hl
    obtain ⟨line, -, rfl⟩ := List.mem_map.1 hl
    exact howner
  · rw [List.filter_eq_nil_iff]
    intro l hl
    obtain ⟨line, -, rfl⟩ := List.mem_map.1 hl
    exact howner

/-- The code lines of a section are those of its blocks. -/
theorem sectionLines_eq (text : List Char) (name : String) : sectionLines text name =
    ((passages text).filter fun p => p.owner == name).flatMap Passage.codeLines := by
  rw [sectionLines, codeLines_eq]
  induction passages text with
  | nil => rfl
  | cons p ps ih =>
    rw [List.flatMap_cons, List.filter_append, ih, filter_codeLines, List.filter_cons]
    split_ifs <;> rfl

theorem standsIn_partsOf (hnode : .code node ∈ partsOf text name) :
    node.StandsIn text ∧ node.indent = 0 := by
  obtain ⟨p, hp, hnode⟩ := List.mem_flatMap.1 hnode
  exact Passage.standsIn (List.mem_filter.1 hp).1 hnode

/-- The runs of a section cover its lines, reference lines apart. -/
theorem covered_partsOf (text : List Char) (name : String) :
    (partsOf text name).flatMap Part.covered = plainLines (sectionLines text name) := by
  rw [partsOf, partsAmong, covered_passages fun p hp => (List.mem_filter.1 hp).1, sectionLines_eq]

end

end LayoutLR
