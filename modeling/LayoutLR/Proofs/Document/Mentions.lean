/-
  Layout-aware LR toolkit — where the sections of a document are mentioned.

  A section is mentioned by its headings, by the blocks of code that belong to it and by
  the lines that refer to it.  The outline has one entry for each section, in the order
  in which they are mentioned first, and notes the lines of the first mention and of the
  first reference.

  * `referenceLines`, `Refers`: the lines that refer to a section, and sections that refer
    to others;
  * `partsOf_eq_nil_iff`, `referencesTo_eq`: the parts of a section in terms of its lines;
  * `mentions`: all mentions in order;
  * `Outline.Notes`, `outline_notes`: what the outline notes about them.
-/
import LayoutLR.Proofs.Document.Parts

namespace LayoutLR

/-! ## Reference lines -/

/-- The section that a part refers to, with the line of the reference. -/
def Part.mention? : Part → Option (String × Nat)
  | .code _ => none
  | .reference name _ line => some (name, line)

/-- The section that a line refers to, with the number of the line. -/
def CodeLine.mention? (l : CodeLine) : Option (String × Nat) :=
  l.reference?.map fun r => (r.1, l.line.no)

/-- The lines of a document that refer to the named section. -/
def referenceLines (text : List Char) (name : String) : List Nat :=
  ((codeLines text).filter fun l => l.reference?.any fun r => r.1 == name).map fun l => l.line.no

/-- Whether a line of the section `m` refers to the section `n`. -/
def Refers (text : List Char) (m n : String) : Prop :=
  ∃ l ∈ sectionLines text m, ∃ columns, l.reference? = some (n, columns)

section

variable {text : List Char} {indented : Bool} {name m n : String} {line : Nat}

theorem mention?_runOf (indented : Bool) (run : List DocLine) :
    (runOf indented run).filterMap Part.mention? = [] := by
  cases run <;> rfl

/-- The references of a block are those of its lines. -/
theorem mention?_partsFrom (owner : String) (run lines : List DocLine) :
    (partsFrom indented run lines).filterMap Part.mention? =
      lines.filterMap fun l => CodeLine.mention? ⟨owner, indented, l⟩ := by
  induction lines generalizing run with
  | nil => rw [partsFrom, mention?_runOf, List.filterMap_nil]
  | cons l lines ih =>
    have hreference := referenceOf?_eq ⟨owner, indented, l⟩
    dsimp only at hreference
    rw [partsFrom, hreference, List.filterMap_cons, CodeLine.mention?]
    cases CodeLine.reference? ⟨owner, indented, l⟩ with
    | none => exact ih _
    | some r =>
      dsimp only [Option.map_some]
      rw [List.filterMap_append, mention?_runOf, List.nil_append, List.filterMap_cons, ih]
      rfl

theorem Passage.mention?_parts (p : Passage) :
    p.parts.filterMap Part.mention? = p.codeLines.filterMap CodeLine.mention? := by
  rw [Passage.parts, LayoutLR.parts, mention?_partsFrom p.owner, Passage.codeLines,
    List.filterMap_map]
  rfl

/-- The references of a document are those of its lines. -/
theorem mention?_passages (text : List Char) :
    ((passages text).flatMap Passage.parts).filterMap Part.mention? =
      (codeLines text).filterMap CodeLine.mention? := by
  rw [codeLines_eq, List.filterMap_flatMap, List.filterMap_flatMap]
  exact List.flatMap_congr fun p _ => p.mention?_parts

/-- The references of a section are those of its lines. -/
theorem mention?_partsOf (text : List Char) (name : String) :
    (partsOf text name).filterMap Part.mention? =
      (sectionLines text name).filterMap CodeLine.mention? := by
  rw [partsOf, partsAmong, sectionLines_eq, List.filterMap_flatMap, List.filterMap_flatMap]
  exact List.flatMap_congr fun p _ => p.mention?_parts

theorem referenceLines_eq (text : List Char) (name : String) : referenceLines text name =
    (((codeLines text).filterMap CodeLine.mention?).filter fun r => r.1 == name).map Prod.snd := by
  rw [referenceLines]
  induction codeLines text with
  | nil => rfl
  | cons l ls ih =>
    rw [List.filter_cons, List.filterMap_cons, CodeLine.mention?]
    cases l.reference? with
    | none => exact ih
    | some r =>
      dsimp only [Option.map_some, Option.any_some]
      rw [List.filter_cons]
      split
      · exact congrArg (l.line.no :: ·) ih
      · exact ih

theorem countP_refersTo (ps : List Part) (name : String) : ps.countP (Part.refersTo name) =
    ((ps.filterMap Part.mention?).filter fun r => r.1 == name).length := by
  induction ps with
  | nil => rfl
  | cons p ps ih =>
    cases p with
    | code node => exact ih
    | reference n columns line =>
      rw [List.countP_cons, ih, List.filterMap_cons, Part.mention?, List.filter_cons, Part.refersTo]
      split <;> rfl

/-- A section is referred to as often as there are lines that refer to it. -/
theorem referencesTo_eq (text : List Char) (name : String) :
    referencesTo text name = (referenceLines text name).length := by
  rw [referencesTo, referencesAmong, countP_refersTo, mention?_passages, referenceLines_eq,
    List.length_map]

theorem mem_mention?_iff {l : CodeLine} :
    l.mention? = some (name, line) ↔
      ∃ columns, l.reference? = some (name, columns) ∧ l.line.no = line := by
  rw [CodeLine.mention?]
  cases l.reference? <;> simp [Prod.ext_iff]

/-- The references among the parts of a section are its references to other sections. -/
theorem refers_iff :
    Refers text m n ↔ ∃ columns line, .reference n columns line ∈ partsOf text m := by
  have hmentions : (∃ line, (n, line) ∈ (partsOf text m).filterMap Part.mention?) ↔
      ∃ line, (n, line) ∈ (sectionLines text m).filterMap CodeLine.mention? := by
    rw [mention?_partsOf]
  simp only [List.mem_filterMap, mem_mention?_iff] at hmentions
  constructor
  · rintro ⟨l, hl, columns, hr⟩
    obtain ⟨line, p, hp, hmention⟩ := hmentions.2 ⟨l.line.no, l, hl, columns, hr, rfl⟩
    cases p with
    | code node => cases hmention
    | reference name width line' =>
      cases hmention
      exact ⟨width, line, hp⟩
  · rintro ⟨columns, line, hp⟩
    obtain ⟨line', l, hl, columns', hr, -⟩ := hmentions.1 ⟨line, _, hp, rfl⟩
    exact ⟨l, hl, columns', hr⟩

/-- The line of a reference is one that refers to the section. -/
theorem mem_referenceLines {columns : Nat} (h : .reference n columns line ∈ partsOf text m) :
    line ∈ referenceLines text n := by
  have hmention : (n, line) ∈ (sectionLines text m).filterMap CodeLine.mention? := by
    rw [← mention?_partsOf]
    exact List.mem_filterMap.2 ⟨_, h, rfl⟩
  obtain ⟨l, hl, hl'⟩ := List.mem_filterMap.1 hmention
  rw [referenceLines_eq]
  refine List.mem_map.2 ⟨(n, line), List.mem_filter.2 ⟨?_, beq_self_eq_true n⟩, rfl⟩
  exact List.mem_filterMap.2 ⟨l, (List.mem_filter.1 hl).1, hl'⟩

/-! ## Sections with code -/

theorem runOf_eq_nil_iff (run : List DocLine) : runOf indented run = [] ↔ run = [] := by
  cases run <;> simp [runOf]

theorem partsFrom_eq_nil_iff (run lines : List DocLine) :
    partsFrom indented run lines = [] ↔ run = [] ∧ lines = [] := by
  induction lines generalizing run with
  | nil => rw [partsFrom, runOf_eq_nil_iff, List.reverse_eq_nil_iff, and_iff_left rfl]
  | cons l lines ih =>
    rw [partsFrom]
    split
    · simp
    · rw [ih]
      simp

/-- A section has parts if it has lines of code. -/
theorem partsOf_eq_nil_iff : partsOf text name = [] ↔ sectionLines text name = [] := by
  rw [partsOf, partsAmong, sectionLines_eq, List.flatMap_eq_nil_iff, List.flatMap_eq_nil_iff]
  refine forall₂_congr fun p _ => ?_
  rw [Passage.parts, LayoutLR.parts, partsFrom_eq_nil_iff, Passage.codeLines, List.map_eq_nil_iff,
    and_iff_right rfl]

end

/-! ## Mentions -/

/-- The sections that some blocks mention, each with the line of the mention; `current` is the
    section that code at the front belongs to. -/
def mentionsFrom (current : String) : List Block → List (String × Nat)
  | [] => []
  | .heading name line :: rest => (name, line) :: mentionsFrom name rest
  | .code start indented lines :: rest =>
    (current, start) :: (parts indented lines).filterMap Part.mention? ++ mentionsFrom current rest
  | .unclosed start lines :: rest =>
    (current, start) :: (parts false lines).filterMap Part.mention? ++ mentionsFrom current rest

/-- The sections that a document mentions, each with the line of the mention, in order. -/
def mentions (text : List Char) : List (String × Nat) :=
  mentionsFrom "" (blocks text)

/-- The sections that a document mentions, in order of first mention. -/
def mentionedNames (text : List Char) : List String :=
  ((mentions text).map Prod.fst).eraseDups

/-- The references among some blocks, each with its line. -/
def referencesFrom (current : String) (bs : List Block) : List (String × Nat) :=
  ((passagesFrom current bs).flatMap Passage.parts).filterMap Part.mention?

namespace Outline

/-- An outline of sections that were mentioned and referred to. -/
structure Notes (o : Outline) (mentions references : List (String × Nat)) : Prop where
  names : o.map Entry.name = (mentions.map Prod.fst).eraseDups
  firstLine : ∀ e ∈ o, mentions.find? (fun m => m.1 == e.name) = some (e.name, e.firstLine)
  /-- What is referred to is mentioned, and lines are numbered from one on. -/
  referred : ∀ r ∈ references, r.1 ∈ mentions.map Prod.fst ∧ 0 < r.2
  firstReference : ∀ e ∈ o,
    e.firstReference = ((references.find? fun r => r.1 == e.name).map Prod.snd).getD 0

variable {o : Outline} {ms rs : List (String × Nat)} {name : String} {line : Nat}

theorem eraseDups_concat (names : List String) (name : String) :
    (names ++ [name]).eraseDups =
      if name ∈ names then names.eraseDups else names.eraseDups ++ [name] := by
  rw [List.eraseDups_append]
  by_cases h : name ∈ names <;> simp [List.removeAll, List.eraseDups_cons, h]

theorem Notes.mem_names (h : o.Notes ms rs) :
    name ∈ o.map Entry.name ↔ name ∈ ms.map Prod.fst := by
  rw [h.names, List.mem_eraseDups]

theorem find?_absent (h : name ∉ ms.map Prod.fst) : ms.find? (fun m => m.1 == name) = none := by
  rw [List.find?_eq_none]
  intro m hm heq
  exact h (List.mem_map.2 ⟨m, hm, beq_iff_eq.1 heq⟩)

/-- A mention of a new section adds an entry at the end. -/
theorem Notes.mention (h : o.Notes ms rs) (name : String) (line : Nat) :
    (o.mention name line).Notes (ms ++ [(name, line)]) rs := by
  have hfound : ∀ e ∈ o, (ms ++ [(name, line)]).find? (fun m => m.1 == e.name) =
      some (e.name, e.firstLine) := fun e he => by
    rw [List.find?_append, h.firstLine e he]
    rfl
  have hreferred : ∀ r ∈ rs, r.1 ∈ (ms ++ [(name, line)]).map Prod.fst ∧ 0 < r.2 := fun r hr => by
    rw [List.map_append]
    exact (h.referred r hr).imp_left (List.mem_append_left _)
  unfold Outline.mention
  split_ifs with hm
  · rw [entry?_isSome, h.mem_names] at hm
    refine ⟨?_, hfound, hreferred, h.firstReference⟩
    rw [List.map_append, List.map_singleton, eraseDups_concat, if_pos hm, h.names]
  · rw [entry?_isSome, h.mem_names] at hm
    have hunreferred : name ∉ rs.map Prod.fst := fun hmem => by
      obtain ⟨r, hr, rfl⟩ := List.mem_map.1 hmem
      exact hm (h.referred r hr).1
    refine ⟨?_, ?_, hreferred, ?_⟩
    · rw [List.map_append, List.map_append, List.map_singleton, List.map_singleton,
        eraseDups_concat, if_neg hm, h.names]
    · refine List.forall_mem_append.2 ⟨hfound, List.forall_mem_singleton.2 ?_⟩
      rw [List.find?_append, find?_absent hm, Option.none_or, List.find?_singleton,
        if_pos (beq_self_eq_true name)]
    · refine List.forall_mem_append.2 ⟨h.firstReference, List.forall_mem_singleton.2 ?_⟩
      rw [find?_absent hunreferred]
      rfl

theorem Notes.update (h : o.Notes ms rs) {f : Entry → Entry} {rs' : List (String × Nat)}
    (hname : ∀ e, (f e).name = e.name) (hline : ∀ e, (f e).firstLine = e.firstLine)
    (hreferred : ∀ r ∈ rs', r.1 ∈ ms.map Prod.fst ∧ 0 < r.2)
    (hself : ∀ e ∈ o, e.name = name →
      (f e).firstReference = ((rs'.find? fun r => r.1 == name).map Prod.snd).getD 0)
    (hother : ∀ m, m ≠ name → rs'.find? (fun r => r.1 == m) = rs.find? fun r => r.1 == m) :
    (o.update name f).Notes ms rs' := by
  refine ⟨(names_update hname).trans h.names, ?_, hreferred, ?_⟩
  · intro e' he'
    obtain ⟨e, he, rfl⟩ := List.mem_map.1 he'
    split_ifs
    · rw [hname, hline]
      exact h.firstLine e he
    · exact h.firstLine e he
  · intro e' he'
    obtain ⟨e, he, rfl⟩ := List.mem_map.1 he'
    split_ifs with hn
    · rw [hname, hn]
      exact hself e he hn
    · rw [hother e.name hn]
      exact h.firstReference e he

/-- A reference is a mention; the line of the first one is kept. -/
theorem Notes.refer (h : o.Notes ms rs) (name : String) (hline : 0 < line) :
    (o.refer name line).Notes (ms ++ [(name, line)]) (rs ++ [(name, line)]) := by
  have hmention := h.mention name line
  refine hmention.update (fun _ => rfl) (fun _ => rfl) ?_ ?_ ?_
  · refine List.forall_mem_append.2 ⟨hmention.referred, List.forall_mem_singleton.2 ⟨?_, hline⟩⟩
    simp
  · intro e he hn
    have hold := hmention.firstReference e he
    rw [hn] at hold
    dsimp only
    rw [hold, List.find?_append]
    cases hfind : rs.find? fun r => r.1 == name with
    | none => simp
    | some r =>
      have hpos := (h.referred r (List.mem_of_find?_eq_some hfind)).2
      simp [Nat.ne_of_gt hpos]
  · intro m hm
    rw [List.find?_append, List.find?_singleton, if_neg (by simpa using Ne.symm hm),
      Option.or_none]

theorem Notes.referAll (h : o.Notes ms rs) (ps : List Part)
    (hps : ∀ r ∈ ps.filterMap Part.mention?, 0 < r.2) : (o.referAll ps).Notes
      (ms ++ ps.filterMap Part.mention?) (rs ++ ps.filterMap Part.mention?) := by
  induction ps generalizing o ms rs with
  | nil => simpa [Outline.referAll] using h
  | cons p ps ih =>
    cases p with
    | code node => exact ih h hps
    | reference name columns line =>
      rw [List.filterMap_cons] at hps ⊢
      obtain ⟨hline, hps⟩ := List.forall_mem_cons.1 hps
      have hrest := ih (h.refer name hline) hps
      rwa [List.append_assoc, List.append_assoc] at hrest

theorem Notes.addCode (h : o.Notes ms rs) (name : String) (line : Nat) (ps : List Part)
    (hps : ∀ r ∈ ps.filterMap Part.mention?, 0 < r.2) : (o.addCode name line ps).Notes
      (ms ++ (name, line) :: ps.filterMap Part.mention?) (rs ++ ps.filterMap Part.mention?) := by
  have hall := (h.mention name line).referAll ps hps
  rw [List.append_assoc] at hall
  refine hall.update (fun _ => rfl) (fun _ => rfl) hall.referred ?_ fun _ _ => rfl
  intro e he hn
  rw [← hn]
  exact hall.firstReference e he

theorem Notes.addBlocks (h : o.Notes ms rs) (current : String) (bs : List Block)
    (hbs : ∀ r ∈ referencesFrom current bs, 0 < r.2) : (o.addBlocks current bs).Notes
      (ms ++ mentionsFrom current bs) (rs ++ referencesFrom current bs) := by
  induction bs generalizing o ms rs current with
  | nil => simpa [Outline.addBlocks, mentionsFrom, referencesFrom, passagesFrom] using h
  | cons b bs ih =>
    cases b with
    | heading name line =>
      have hrest := ih (h.mention name line) name hbs
      rwa [List.append_assoc] at hrest
    | code start indented lines =>
      have hsplit : referencesFrom current (.code start indented lines :: bs) =
          (LayoutLR.parts indented lines).filterMap Part.mention? ++ referencesFrom current bs :=
        List.filterMap_append
      rw [hsplit] at hbs ⊢
      obtain ⟨hfirst, hbs⟩ := List.forall_mem_append.1 hbs
      have hrest := ih (h.addCode current start _ hfirst) current hbs
      rwa [List.append_assoc, List.append_assoc] at hrest
    | unclosed start lines =>
      have hsplit : referencesFrom current (.unclosed start lines :: bs) =
          (LayoutLR.parts false lines).filterMap Part.mention? ++ referencesFrom current bs :=
        List.filterMap_append
      rw [hsplit] at hbs ⊢
      obtain ⟨hfirst, hbs⟩ := List.forall_mem_append.1 hbs
      have hrest := ih (h.addCode current start _ hfirst) current hbs
      rwa [List.append_assoc, List.append_assoc] at hrest

end Outline

/-- The lines of a document are numbered from one on. -/
theorem documentLines_pos {text : List Char} {l : DocLine} (hl : l ∈ documentLines text) :
    0 < l.no := by
  have hno : l.no ∈ (documentLines text).map DocLine.no := List.mem_map_of_mem hl
  rw [map_no_documentLines, List.mem_range'_1] at hno
  exact hno.1

/-- **The outline of a document notes its mentions**, those that are references included. -/
theorem outline_notes (text : List Char) :
    (outline text).Notes (mentions text) ((codeLines text).filterMap CodeLine.mention?) := by
  have hempty : Outline.Notes [] [] [] := by
    refine ⟨rfl, ?_, ?_, ?_⟩ <;> simp
  rw [← mention?_passages]
  refine hempty.addBlocks "" (blocks text) ?_
  intro r hr
  rw [show referencesFrom "" (blocks text) = _ from mention?_passages text] at hr
  obtain ⟨l, hl, hr⟩ := List.mem_filterMap.1 hr
  obtain ⟨-, -, hline⟩ := mem_mention?_iff.1 hr
  rw [← hline]
  exact documentLines_pos ((codeLines_sublist text).subset (List.mem_map_of_mem hl))

end LayoutLR
