/-
  Layout-aware LR toolkit — a document without problems loses and repeats no code.

  What `extract` reports is exactly what could make the references of a document
  something else than a forest: a section that is referred to twice, a cycle, and
  code that no section at the top leads to.  Without a report, the sections that
  are entered are therefore pairwise different, and all code belongs to one of
  them.

  * `Clean`: the absence of problems, problem by problem;
  * `entered`: the sections that the expansions of a document enter;
  * `Clean.entered_nodup`: no section is entered twice;
  * `Clean.mem_entered`: every section with code is entered;
  * `lines_covered_once`: the code lines are covered once each, in their order.
-/
import Mathlib.Data.List.Flatten
import LayoutLR.Proofs.Document.Inclusion

namespace LayoutLR

/-! ## Gathering by key -/

section

variable {α : Type} {key : α → String}

/-- Lists of different names gather the members of a list by name. -/
theorem gather_perm {names : List String} {as : List α} (hnodup : names.Nodup)
    (h : ∀ a ∈ as, key a ∈ names) :
    (names.flatMap fun name => as.filter fun a => key a == name).Perm as := by
  induction names generalizing as with
  | nil =>
    have hempty : as = [] := List.eq_nil_iff_forall_not_mem.2 fun a ha => nomatch h a ha
    rw [hempty]
    exact .refl _
  | cons name names ih =>
    obtain ⟨hname, hnodup⟩ := List.nodup_cons.1 hnodup
    -- the other names gather what is left
    have hothers : ∀ a ∈ as.filter fun a => !(key a == name), key a ∈ names := fun a ha => by
      obtain ⟨ha, hne⟩ := List.mem_filter.1 ha
      exact (List.mem_cons.1 (h a ha)).resolve_left (by simpa using hne)
    have hrest := ih hnodup hothers
    have hsame : (names.flatMap fun n => as.filter fun a => key a == n) =
        names.flatMap fun n =>
          (as.filter fun a => !(key a == name)).filter fun a => key a == n := by
      refine List.flatMap_congr fun n hn => ?_
      rw [List.filter_filter]
      refine List.filter_congr fun a _ => ?_
      by_cases ha : key a = n
      · have hne : n ≠ name := by
          rintro rfl
          exact hname hn
        simp [ha, hne]
      · simp [ha]
    rw [List.flatMap_cons, hsame]
    exact (hrest.append_left _).trans (List.filter_append_perm _ as)

end

/-! ## The absence of problems -/

/-- A document whose references make a forest that all code belongs to. -/
structure Clean (text : List Char) : Prop where
  once : ∀ name, referencesTo text name ≤ 1
  acyclic : ∀ e ∈ (outline text).filter Entry.isRoot, ((outline text).expandEntry e).cycles = []
  reached : ∀ e ∈ outline text, 0 < e.references → e.parts ≠ [] →
    ∃ root ∈ (outline text).filter Entry.isRoot,
      e.name ∈ ((outline text).expandEntry root).reached

/-- A document without problems is clean. -/
theorem clean_of_problems {text : List Char} (h : (extract text).problems = []) : Clean text := by
  simp only [extract, List.append_eq_nil_iff, List.flatMap_eq_nil_iff, List.mem_map] at h
  obtain ⟨⟨⟨-, hreferences⟩, hcycles⟩, hreached⟩ := h
  constructor
  · intro name
    by_cases hname : name ∈ (outline text).map Entry.name
    · obtain ⟨e, he, rfl⟩ := List.mem_map.1 hname
      rw [← ((outline_tells text).entry e he).2]
      by_contra hmany
      have hproblem := (List.append_eq_nil_iff.1 (hreferences e he)).1
      rw [if_pos (by omega)] at hproblem
      cases hproblem
    · rw [((outline_tells text).absent name hname).2]
      exact Nat.zero_le 1
  · exact fun e he => hcycles _ ⟨e, he, rfl⟩
  · intro e he hreferred hparts
    by_contra hnot
    have hproblem := hreached e he
    rw [Entry.unreachedProblems, if_pos] at hproblem
    · cases hproblem
    · refine ⟨hreferred, by simpa using hparts, fun hmem => hnot ?_⟩
      obtain ⟨x, hx, hmem⟩ := List.mem_flatMap.1 hmem
      obtain ⟨root, hroot, rfl⟩ := List.mem_map.1 hx
      exact ⟨root, hroot, hmem⟩

/-! ## The sections that are entered -/

/-- The sections that are entered for the sections at the top, these included. -/
def entered (text : List Char) : List String :=
  ((outline text).filter Entry.isRoot).flatMap fun e =>
    e.name :: ((outline text).expandEntry e).reached

section

variable {text : List Char} {name m : String} {e : Entry}

/-- References that belong to different sections are different. -/
theorem countP_partsAmong (ps : List Passage) (q : Part → Bool) (hne : m ≠ name) :
    (partsAmong ps m).countP q + (partsAmong ps name).countP q ≤
      (ps.flatMap Passage.parts).countP q := by
  induction ps with
  | nil => exact Nat.le_refl 0
  | cons p ps ih =>
    rw [Outline.partsAmong_cons, Outline.partsAmong_cons, List.flatMap_cons, List.countP_append,
      List.countP_append, List.countP_append]
    by_cases hm : p.owner = m
    · rw [if_pos (by simpa using hm), if_neg (by simpa [hm] using hne), List.countP_nil]
      omega
    · rw [if_neg (by simpa using hm), List.countP_nil]
      split_ifs
      · omega
      · rw [List.countP_nil]
        omega

theorem countP_partsOf (text : List Char) (m name : String) :
    (partsOf text m).countP (Part.refersTo name) ≤ referencesTo text name := by
  have hsublist : (partsOf text m).Sublist ((passages text).flatMap Passage.parts) :=
    List.filter_sublist.flatMap _
  exact hsublist.countP_le

/-- A name that only the section `m` may refer to, and once, is referred to as often as `m` is
    entered. -/
theorem countP_flatMap_le {f : String → List Part} {q : Part → Bool} (hself : (f m).countP q ≤ 1)
    (hother : ∀ k, k ≠ m → (f k).countP q = 0) (names : List String) :
    (names.flatMap f).countP q ≤ names.count m := by
  induction names with
  | nil => exact Nat.le_refl 0
  | cons k names ih =>
    rw [List.flatMap_cons, List.countP_append]
    by_cases hk : k = m
    · rw [hk, List.count_cons_self]
      omega
    · rw [hother k hk, List.count_cons_of_ne hk]
      omega

theorem parts_outline (text : List Char) : (outline text).parts = partsOf text :=
  funext (outline_tells text).parts_eq

/-- Nothing refers to a section at the top. -/
theorem referencesTo_root (he : e ∈ (outline text).filter Entry.isRoot) :
    referencesTo text e.name = 0 := by
  obtain ⟨hmem, hroot⟩ := List.mem_filter.1 he
  rw [← ((outline_tells text).entry e hmem).2]
  simpa using (Bool.and_eq_true_iff.1 hroot).1

theorem expandEntry_eq (he : e ∈ (outline text).filter Entry.isRoot) :
    (outline text).expandEntry e =
      (outline text).expand (((outline text).map Entry.name).erase e.name) 0
        (partsOf text e.name) := by
  rw [Outline.expandEntry, ((outline_tells text).entry e (List.mem_filter.1 he).1).1]

namespace Clean

/-- A section at the top is entered for itself, any other one for its references. -/
theorem count_entered (h : Clean text) (name : String) : (entered text).count name =
    (((outline text).filter Entry.isRoot).map Entry.name).count name +
      ((entered text).flatMap (partsOf text)).countP (Part.refersTo name) := by
  have hexpand : ∀ e ∈ (outline text).filter Entry.isRoot,
      ((outline text).expandEntry e).reached.count name =
        ((e.name :: ((outline text).expandEntry e).reached).flatMap (partsOf text)).countP
          (Part.refersTo name) := fun e he => by
    have hcycles := h.acyclic e he
    rw [expandEntry_eq he] at hcycles ⊢
    rw [Outline.count_reached hcycles, parts_outline, List.flatMap_cons, List.countP_append]
  rw [entered]
  generalize (outline text).filter Entry.isRoot = roots at hexpand
  induction roots with
  | nil => rfl
  | cons e roots ih =>
    have he := hexpand e List.mem_cons_self
    have ih := ih fun e he => hexpand e (List.mem_cons_of_mem _ he)
    rw [List.flatMap_cons, List.flatMap_append, List.count_append, List.countP_append,
      List.map_cons, List.count_cons, List.count_cons, he, ih]
    omega

/-- A section at the top is entered once. -/
theorem count_entered_root (h : Clean text) (he : e ∈ (outline text).filter Entry.isRoot) :
    (entered text).count e.name ≤ 1 := by
  have hroots : (((outline text).filter Entry.isRoot).map Entry.name).Nodup :=
    (outline_tells text).nodup.sublist (List.filter_sublist.map _)
  have hunreferenced :
      ((entered text).flatMap (partsOf text)).countP (Part.refersTo e.name) = 0 := by
    rw [List.countP_eq_zero]
    intro p hp
    obtain ⟨m, -, hp⟩ := List.mem_flatMap.1 hp
    have hparts := countP_partsOf text m e.name
    rw [referencesTo_root he] at hparts
    exact List.countP_eq_zero.1 (Nat.le_zero.1 hparts) p hp
  rw [h.count_entered, hunreferenced]
  exact List.nodup_iff_count_le_one.1 hroots e.name

/-- A section that is referred to is entered at most as often as the section `m` that refers to
    it. -/
theorem count_entered_le (h : Clean text)
    (hrefers : 0 < (partsOf text m).countP (Part.refersTo name)) :
    (entered text).count name ≤ (entered text).count m := by
  have hreferences := h.once name
  have hself := countP_partsOf text m name
  have hnoRoot : (((outline text).filter Entry.isRoot).map Entry.name).count name = 0 := by
    rw [List.count_eq_zero]
    intro hmem
    obtain ⟨e, he, rfl⟩ := List.mem_map.1 hmem
    rw [referencesTo_root he] at hself
    omega
  -- the one reference stands in `m`
  have hother : ∀ k, k ≠ m → (partsOf text k).countP (Part.refersTo name) = 0 := fun k hk => by
    have hboth : _ ≤ referencesTo text name :=
      countP_partsAmong (passages text) (Part.refersTo name) hk
    rw [partsOf] at hrefers ⊢
    omega
  rw [h.count_entered, hnoRoot, Nat.zero_add]
  exact countP_flatMap_le (hself.trans hreferences) hother (entered text)

/-- No section is entered twice. -/
theorem entered_nodup (h : Clean text) : (entered text).Nodup := by
  rw [List.nodup_iff_count_le_one]
  intro name
  by_cases hname : name ∈ entered text
  · obtain ⟨e, he, hname⟩ := List.mem_flatMap.1 hname
    have hroot := h.count_entered_root he
    rcases List.mem_cons.1 hname with rfl | hname
    · exact hroot
    · rw [expandEntry_eq he] at hname
      refine Outline.reached_induction (P := fun m => (entered text).count m ≤ 1) ?_
        (fun n hn => (h.count_entered_le hn).trans hroot) name hname
      rw [parts_outline]
      exact fun m hm n hn => (h.count_entered_le hn).trans hm
  · rw [List.count_eq_zero_of_not_mem hname]
    exact Nat.zero_le 1

/-- Every section with code is entered. -/
theorem mem_entered (h : Clean text) (hparts : partsOf text name ≠ []) : name ∈ entered text := by
  have htells := outline_tells text
  have hname : name ∈ (outline text).map Entry.name := by
    by_contra habsent
    exact hparts (htells.absent name habsent).1
  obtain ⟨e, he, rfl⟩ := List.mem_map.1 hname
  rw [← (htells.entry e he).1] at hparts
  by_cases hreferred : e.references = 0
  · refine List.mem_flatMap.2 ⟨e, List.mem_filter.2 ⟨he, ?_⟩, List.mem_cons_self⟩
    simpa [Entry.isRoot, hreferred] using hparts
  · obtain ⟨root, hroot, hmem⟩ := h.reached e he (Nat.pos_of_ne_zero hreferred) hparts
    exact List.mem_flatMap.2 ⟨root, hroot, List.mem_cons_of_mem _ hmem⟩

end Clean

/-! ## The lines that are covered -/

/-- The section that a code line belongs to. -/
def ownerOf (text : List Char) (no : Nat) : Option String :=
  ((codeLines text).find? fun l => l.line.no == no).map CodeLine.owner

theorem ownerOf_eq {l : CodeLine} (hl : l ∈ codeLines text) :
    ownerOf text l.line.no = some l.owner := by
  cases hfind : (codeLines text).find? fun m => m.line.no == l.line.no with
  | none => exact absurd (beq_self_eq_true _) (List.find?_eq_none.1 hfind l hl)
  | some m =>
    have hno : m.line.no = l.line.no := by simpa using List.find?_some hfind
    have hm := List.mem_of_find?_eq_some hfind
    rw [ownerOf, hfind, Option.map_some,
      List.inj_on_of_nodup_map (codeLines_nodup text) hm hl hno]

/-- A run of a section begins with a line of that section. -/
theorem ownerOf_parts {node : CodeNode} (h : .code node ∈ partsOf text name) :
    node.line ∈ node.covered ∧ ownerOf text node.line = some name := by
  obtain ⟨run, hrun, htext, hline⟩ := (standsIn_partsOf h).1
  have hcovered : node.line ∈ node.covered := by
    rw [CodeNode.StandsIn.covered_eq hrun htext hline]
    cases run with
    | nil => cases hline
    | cons line rest => exact List.mem_cons.2 (Or.inl (Option.some.inj hline).symm)
  refine ⟨hcovered, ?_⟩
  have hlines : node.line ∈ plainLines (sectionLines text name) := by
    rw [← covered_partsOf]
    exact List.mem_flatMap.2 ⟨_, h, hcovered⟩
  obtain ⟨l, hl, hno⟩ := List.mem_map.1 hlines
  obtain ⟨hl, howner⟩ := List.mem_filter.1 (List.mem_filter.1 hl).1
  rw [← hno, ownerOf_eq hl, beq_iff_eq.1 howner]

theorem plainLines_lt (text : List Char) (name : String) :
    (plainLines (sectionLines text name)).Pairwise (· < ·) := by
  have hsublist : (plainLines (sectionLines text name)).Sublist
      ((documentLines text).map DocLine.no) := by
    have h := (codeLines_sublist text).map DocLine.no
    rw [List.map_map] at h
    exact ((List.filter_sublist.trans List.filter_sublist).map _).trans h
  refine List.Pairwise.sublist hsublist ?_
  rw [map_no_documentLines]
  exact List.pairwise_lt_range'

/-- The runs of a section come in the order of the document. -/
theorem partsOf_before (text : List Char) (name : String) :
    (partsOf text name).Pairwise Part.Before := by
  have h := plainLines_lt text name
  rw [← covered_partsOf, List.pairwise_flatMap] at h
  refine h.2.imp_of_mem fun {a b} ha hb hlt => ?_
  cases a with
  | reference => exact trivial
  | code a =>
    cases b with
    | reference => exact trivial
    | code b => exact hlt _ (ownerOf_parts ha).1 _ (ownerOf_parts hb).1

theorem covered_sections (text : List Char) :
    ((extract text).sections.flatMap fun s => s.code.flatMap CodeNode.covered).Perm
      ((entered text).flatMap fun name => plainLines (sectionLines text name)) := by
  have hexpand : ∀ e ∈ (outline text).filter Entry.isRoot,
      (((outline text).expandEntry e).code.flatMap CodeNode.covered).Perm
        ((e.name :: ((outline text).expandEntry e).reached).flatMap fun name =>
          plainLines (sectionLines text name)) := fun e he => by
    have hcovered := Outline.covered_expand (outline text)
      (((outline text).map Entry.name).erase e.name) 0 (partsOf text e.name)
    simp only [parts_outline, covered_partsOf] at hcovered
    rw [List.flatMap_cons, expandEntry_eq he]
    exact hcovered
  rw [sections_eq, entered, List.flatMap_map, List.flatMap_assoc]
  exact List.Perm.flatMap_left _ hexpand

/-- The runs of code cover the code lines that are no references. -/
theorem Clean.covered_perm (h : Clean text) :
    ((extract text).sections.flatMap fun s => s.code.flatMap CodeNode.covered).Perm
      (plainLines (codeLines text)) := by
  have howner : ∀ l ∈ (codeLines text).filter fun l => l.reference?.isNone,
      l.owner ∈ entered text := fun l hl => by
    refine h.mem_entered fun hempty => ?_
    obtain ⟨hl, hplain⟩ := List.mem_filter.1 hl
    have hmem : l.line.no ∈ plainLines (sectionLines text l.owner) :=
      List.mem_map_of_mem (List.mem_filter.2 ⟨List.mem_filter.2 ⟨hl, beq_self_eq_true _⟩, hplain⟩)
    rw [← covered_partsOf, hempty] at hmem
    cases hmem
  have hgather := (gather_perm h.entered_nodup howner).map fun l => l.line.no
  rw [List.map_flatMap] at hgather
  refine (covered_sections text).trans ?_
  simpa only [plainLines, sectionLines, List.filter_filter, Bool.and_comm] using hgather

/-- In a section at the top, the runs that belong to one name come in order. -/
theorem Clean.code_before (h : Clean text) (he : e ∈ (outline text).filter Entry.isRoot) :
    ((outline text).expandEntry e).code.Pairwise fun a b =>
      ownerOf text a.line = ownerOf text b.line → a.line < b.line := by
  have hvisits : (e.name :: ((outline text).expandEntry e).reached).Nodup :=
    (List.nodup_flatMap.1 h.entered_nodup).1 e he
  rw [expandEntry_eq he] at hvisits ⊢
  refine Outline.ordered_expand ?_ ?_ (fun source hsource => (ownerOf_parts hsource).2)
    (partsOf_before text e.name) hvisits
  · rw [parts_outline]
    exact fun m source hsource => (ownerOf_parts hsource).2
  · rw [parts_outline]
    exact partsOf_before text

/-- **Without problems no code is lost or repeated.**  Together, the runs of code in the sections
    cover each code line that is no reference once, and no other line.  Each run is a stretch of
    lines of the document, and in each section the runs that belong to one name come in the order
    of the document. -/
theorem lines_covered_once (text : List Char) (h : (extract text).problems = []) :
    (∀ no, ((extract text).sections.flatMap fun s => s.code.flatMap CodeNode.covered).count no =
      if no ∈ plainLines (codeLines text) then 1 else 0) ∧
    ∀ s ∈ (extract text).sections, (∀ node ∈ s.code, node.StandsIn text) ∧
      s.code.Pairwise fun a b => ownerOf text a.line = ownerOf text b.line → a.line < b.line := by
  have hclean := clean_of_problems h
  have hplain : (plainLines (codeLines text)).Nodup :=
    (codeLines_nodup text).sublist (List.filter_sublist.map _)
  refine ⟨fun no => ?_, fun s hs => ⟨fun node hnode => sections_standIn hs hnode, ?_⟩⟩
  · rw [hclean.covered_perm.count_eq, hplain.count]
  · rw [sections_eq] at hs
    obtain ⟨e, he, rfl⟩ := List.mem_map.1 hs
    exact hclean.code_before he

end

/-- A section under two headings that another one includes, and a section of its own. -/
def reopenedSection : List Char :=
  "    a
    ## two
    b

# two

    c

# one

    d

# two
```
e
```
".toList

theorem lines_covered_once_reopenedSection :
    (extract reopenedSection).problems = [] ∧
    plainLines (codeLines reopenedSection) = [1, 3, 7, 11, 15] ∧
    (extract reopenedSection).sections.map (fun s => s.code.flatMap CodeNode.covered) =
      [[1, 7, 15, 3], [11]] ∧
    (∀ no, ((extract reopenedSection).sections.flatMap fun s =>
      s.code.flatMap CodeNode.covered).count no =
        if no ∈ plainLines (codeLines reopenedSection) then 1 else 0) ∧
    ∀ s ∈ (extract reopenedSection).sections, (∀ node ∈ s.code, node.StandsIn reopenedSection) ∧
      s.code.Pairwise fun a b => ownerOf reopenedSection a.line =
        ownerOf reopenedSection b.line → a.line < b.line := by
  have hclean : (extract reopenedSection).problems = [] := by cbv
  exact ⟨hclean, by decide +kernel, by cbv, lines_covered_once reopenedSection hclean⟩

end LayoutLR
