/-
  Layout-aware LR toolkit — the structure problems of a document are exact.

  A section at the top is expanded by a traversal that keeps the sections on the way to
  the current one and refuses a reference to any of these.  No section is left out by it:
  what the references lead to is either on the way already or entered.

  * `Unfolds`: the traversal, with the sections on the way to the current one;
  * `unfolds_expand`: each section has a traversal, and expansion is its result;
  * `Unfolds.onward`, `Unfolds.sound`: the traversal enters what can be reached, and what
    it refuses lies on a cycle;
  * `Unfolds.acyclic`: what can be reached without a refusal does not lie on a cycle;
  * `SectionProblem.Holds`, `reported_iff_holds`: what the problems say, and that they are
    reported where it is so;
  * `problems_exact`: the sections and the problems of a document in terms of its lines.
-/
import Mathlib.Logic.Relation
import LayoutLR.Proofs.Document.Covering
import LayoutLR.Proofs.Document.Mentions

namespace LayoutLR

open Relation

/-! ## Traversals -/

/-- The traversal of some parts.  `path` are the sections on the way to them: a reference to one
    of these is refused, and the code of any other section is put in its place. -/
inductive Unfolds (text : List Char) : List String → Nat → List Part → Expansion → Prop where
  | nil {path indent} : Unfolds text path indent [] .empty
  | code {path indent node rest x} (hrest : Unfolds text path indent rest x) :
    Unfolds text path indent (.code node :: rest)
      (.append ⟨[{ node with indent := node.indent + indent }], [], []⟩ x)
  | enter {path indent name width line rest inner x} (hnew : name ∉ path)
    (hinner : Unfolds text (name :: path) (indent + width) (partsOf text name) inner)
    (hrest : Unfolds text path indent rest x) :
    Unfolds text path indent (.reference name width line :: rest)
      (.append ⟨inner.code, name :: inner.reached, inner.cycles⟩ x)
  | refuse {path indent name width line rest x} (hpath : name ∈ path)
    (hrest : Unfolds text path indent rest x) :
    Unfolds text path indent (.reference name width line :: rest)
      (.append ⟨[], [], [.cycle name line]⟩ x)

section

variable {text : List Char} {path : List String} {indent : Nat} {ps : List Part} {x : Expansion}
  {root m n : String} {e : Entry}

/-- What a section refers to is mentioned. -/
theorem Refers.mem_names (h : Refers text m n) : n ∈ (outline text).map Entry.name := by
  obtain ⟨l, hl, columns, hreference⟩ := h
  exact mem_names_of_reference (List.mem_filter.1 hl).1 hreference

/-- Expansion is the traversal whose way are the sections that are not open to it. -/
theorem unfolds_expand {closed : List String} (hnodup : closed.Nodup)
    (hpath : ∀ m ∈ (outline text).map Entry.name, m ∈ closed ↔ m ∉ path)
    (hps : ∀ m columns line, .reference m columns line ∈ ps → m ∈ (outline text).map Entry.name) :
    Unfolds text path indent ps ((outline text).expand closed indent ps) := by
  fun_induction Outline.expand (outline text) closed indent ps generalizing path with
  | case1 => exact .nil
  | case2 closed indent node rest ih =>
    exact .code (ih hnodup hpath fun m columns line h => hps m columns line (.tail _ h))
  | case3 closed indent name width line rest hin inner ihInner =>
    rename_i ihRest
    subst inner
    rw [parts_outline] at ihInner ⊢
    have hname := hps name width line List.mem_cons_self
    refine .enter ((hpath name hname).1 hin) (ihInner (hnodup.erase name) (fun m hm => ?_) ?_)
      (ihRest hnodup hpath fun m columns line h => hps m columns line (.tail _ h))
    · rw [hnodup.mem_erase_iff, hpath m hm, List.mem_cons, not_or]
    · exact fun m columns line h => (refers_iff.2 ⟨columns, line, h⟩).mem_names
  | case4 closed indent name width line rest hin ih =>
    have hname := hps name width line List.mem_cons_self
    exact .refuse (not_not.1 fun h => hin ((hpath name hname).2 h))
      (ih hnodup hpath fun m columns line h => hps m columns line (.tail _ h))

/-- The traversal of a section at the top. -/
theorem unfolds_expandEntry (he : e ∈ (outline text).filter Entry.isRoot) :
    Unfolds text [e.name] 0 (partsOf text e.name) ((outline text).expandEntry e) := by
  have hnodup := (outline_tells text).nodup
  rw [expandEntry_eq he]
  refine unfolds_expand (hnodup.erase e.name) (fun m hm => ?_) fun m columns line h =>
    (refers_iff.2 ⟨columns, line, h⟩).mem_names
  rw [hnodup.mem_erase_iff, List.mem_singleton, and_iff_left hm]

/-! ## What a traversal enters and refuses -/

/-- A traversal goes on: whatever its parts and the entered sections refer to is on the way to
    them or is entered. -/
theorem Unfolds.onward (h : Unfolds text path indent ps x) :
    (∀ n columns line, .reference n columns line ∈ ps → n ∈ path ∨ n ∈ x.reached) ∧
    ∀ m ∈ x.reached, ∀ n, Refers text m n → n ∈ path ∨ n ∈ x.reached := by
  induction h with
  | nil => simp [Expansion.empty]
  | code hrest ih => simpa [Expansion.append] using ih
  | @enter path indent name width line rest inner x hnew hinner hrest ihInner ihRest =>
    obtain ⟨hparts, hreached⟩ := ihInner
    -- what the inner traversal finds on its way may be the section that it was made for
    have hout : ∀ n, n ∈ name :: path ∨ n ∈ inner.reached →
        n ∈ path ∨ n ∈ (name :: inner.reached) ++ x.reached := fun n hn => by
      simp only [List.mem_cons, List.mem_append] at hn ⊢
      tauto
    have hlater : ∀ n, n ∈ path ∨ n ∈ x.reached →
        n ∈ path ∨ n ∈ (name :: inner.reached) ++ x.reached := fun n hn =>
      hn.imp_right (List.mem_append_right _)
    constructor
    · intro n columns line' hn
      rcases List.mem_cons.1 hn with heq | hn
      · cases heq
        exact Or.inr (List.mem_append_left _ List.mem_cons_self)
      · exact hlater n (ihRest.1 n columns line' hn)
    · intro m hm n hrefers
      rcases List.mem_append.1 hm with hm | hm
      · rcases List.mem_cons.1 hm with rfl | hm
        · obtain ⟨columns, line', hn⟩ := refers_iff.1 hrefers
          exact hout n (hparts n columns line' hn)
        · exact hout n (hreached m hm n hrefers)
      · exact hlater n (ihRest.2 m hm n hrefers)
  | @refuse path indent name width line rest x hpath hrest ih =>
    refine ⟨fun n columns line' hn => ?_, ih.2⟩
    rcases List.mem_cons.1 hn with heq | hn
    · cases heq
      exact Or.inl hpath
    · exact ih.1 n columns line' hn

/-- The traversal of a section enters sections that can be reached from it, and a reference that
    it refuses is to a section that can be reached and lies on a cycle. -/
theorem Unfolds.sound (h : Unfolds text path indent ps x)
    (hpath : ∀ p ∈ path, ReflTransGen (Refers text) p m)
    (hps : ∀ n columns line, .reference n columns line ∈ ps →
      .reference n columns line ∈ partsOf text m) :
    (∀ n ∈ x.reached, ReflTransGen (Refers text) m n) ∧
    ∀ problem ∈ x.cycles, ∃ n line, problem = .cycle n line ∧ line ∈ referenceLines text n ∧
      ReflTransGen (Refers text) m n ∧ TransGen (Refers text) n n := by
  induction h generalizing m with
  | nil => simp [Expansion.empty]
  | code hrest ih =>
    exact ih hpath fun n columns line hn => hps n columns line (.tail _ hn)
  | @enter path indent name width line rest inner x hnew hinner hrest ihInner ihRest =>
    have hname : Refers text m name :=
      refers_iff.2 ⟨width, line, hps name width line List.mem_cons_self⟩
    have hway : ∀ p ∈ name :: path, ReflTransGen (Refers text) p name :=
      List.forall_mem_cons.2 ⟨.refl, fun p hp => (hpath p hp).tail hname⟩
    obtain ⟨hreached, hcycles⟩ := ihInner hway fun _ _ _ hn => hn
    obtain ⟨hreached', hcycles'⟩ :=
      ihRest hpath fun n columns line hn => hps n columns line (.tail _ hn)
    constructor
    · refine List.forall_mem_append.2 ⟨List.forall_mem_cons.2 ⟨.single hname, ?_⟩, hreached'⟩
      exact fun n hn => .head hname (hreached n hn)
    · refine List.forall_mem_append.2 ⟨fun problem hproblem => ?_, hcycles'⟩
      obtain ⟨n, line', heq, hline, hn, hcycle⟩ := hcycles problem hproblem
      exact ⟨n, line', heq, hline, .head hname hn, hcycle⟩
  | @refuse path indent name width line rest x hin hrest ih =>
    have hreference := hps name width line List.mem_cons_self
    have hname : Refers text m name := refers_iff.2 ⟨width, line, hreference⟩
    obtain ⟨hreached, hcycles⟩ :=
      ih hpath fun n columns line hn => hps n columns line (.tail _ hn)
    refine ⟨hreached, List.forall_mem_append.2 ⟨List.forall_mem_singleton.2 ?_, hcycles⟩⟩
    exact ⟨name, line, rfl, mem_referenceLines hreference, .single hname,
      .tail' (hpath name hin) hname⟩

/-- Where no reference is refused, each one is entered, and nothing is refused there. -/
theorem Unfolds.entered (h : Unfolds text path indent ps x) (hcycles : x.cycles = []) :
    ∀ n columns line, .reference n columns line ∈ ps →
      n ∉ path ∧ ∃ indent inner, Unfolds text (n :: path) indent (partsOf text n) inner ∧
        inner.cycles = [] := by
  induction h with
  | nil => exact fun _ _ _ hn => absurd hn List.not_mem_nil
  | code hrest ih => simpa using ih hcycles
  | enter hnew hinner hrest ihInner ihRest =>
    obtain ⟨hfirst, hcycles⟩ := List.append_eq_nil_iff.1 hcycles
    intro n columns line hn
    rcases List.mem_cons.1 hn with heq | hn
    · cases heq
      exact ⟨hnew, _, _, hinner, hfirst⟩
    · exact ihRest hcycles n columns line hn
  | refuse hpath hrest ih => exact absurd hcycles (List.cons_ne_nil _ _)

/-- What is reached from a section is traversed in turn, with the way to it in front; the way
    keeps what was on it. -/
theorem Unfolds.along (h : Unfolds text (m :: path) indent (partsOf text m) x)
    (hcycles : x.cycles = []) (hn : TransGen (Refers text) m n) :
    ∃ path' indent' x', m ∈ path' ∧ n ∉ path' ∧
      Unfolds text (n :: path') indent' (partsOf text n) x' ∧ x'.cycles = [] := by
  induction hn with
  | single hrefers =>
    obtain ⟨columns, line, hn⟩ := refers_iff.1 hrefers
    obtain ⟨hnew, indent', x', hx', hcycles'⟩ := h.entered hcycles _ columns line hn
    exact ⟨m :: path, indent', x', List.mem_cons_self, hnew, hx', hcycles'⟩
  | tail _ hrefers ih =>
    obtain ⟨path', indent', x', hm, -, hx', hcycles'⟩ := ih
    obtain ⟨columns, line, hn⟩ := refers_iff.1 hrefers
    obtain ⟨hnew, indent'', x'', hx'', hcycles''⟩ := hx'.entered hcycles' _ columns line hn
    exact ⟨_ :: path', indent'', x'', List.mem_cons_of_mem _ hm, hnew, hx'', hcycles''⟩

/-- **Where no reference is refused, no cycle can be reached.** -/
theorem Unfolds.acyclic (h : Unfolds text (m :: path) indent (partsOf text m) x)
    (hcycles : x.cycles = []) (hn : ReflTransGen (Refers text) m n) :
    ¬TransGen (Refers text) n n := by
  intro hcycle
  have hstart : ∃ path' indent' x',
      Unfolds text (n :: path') indent' (partsOf text n) x' ∧ x'.cycles = [] := by
    rcases reflTransGen_iff_eq_or_transGen.1 hn with rfl | hn
    · exact ⟨path, indent, x, h, hcycles⟩
    · obtain ⟨path', indent', x', -, -, hx', hcycles'⟩ := h.along hcycles hn
      exact ⟨path', indent', x', hx', hcycles'⟩
  obtain ⟨path', indent', x', hx', hcycles'⟩ := hstart
  obtain ⟨path'', -, -, hin, hnot, -⟩ := hx'.along hcycles' hcycle
  exact hnot hin

/-- What the sections at the top enter is what can be reached from them. -/
theorem mem_reached_iff (he : e ∈ (outline text).filter Entry.isRoot) :
    n ∈ e.name :: ((outline text).expandEntry e).reached ↔
      ReflTransGen (Refers text) e.name n := by
  have hunfolds := unfolds_expandEntry he
  constructor
  · intro hn
    rcases List.mem_cons.1 hn with rfl | hn
    · exact .refl
    · exact (hunfolds.sound (List.forall_mem_singleton.2 .refl) fun _ _ _ h => h).1 n hn
  · intro hn
    obtain ⟨hparts, hreached⟩ := hunfolds.onward
    simp only [List.mem_singleton, ← List.mem_cons] at hparts hreached
    induction hn with
    | refl => exact List.mem_cons_self
    | tail _ hrefers ih =>
      rcases List.mem_cons.1 ih with rfl | ih
      · obtain ⟨columns, line, hn⟩ := refers_iff.1 hrefers
        exact hparts _ columns line hn
      · exact hreached _ ih _ hrefers

end

/-! ## Problems and lines -/

section

variable {text : List Char} {name : String} {e : Entry}

/-- What an entry says, in terms of the lines of the document. -/
theorem entry_lines (he : e ∈ outline text) :
    (e.parts = [] ↔ sectionLines text e.name = []) ∧
    e.references = (referenceLines text e.name).length ∧
    e.firstReference = (referenceLines text e.name).head?.getD 0 ∧
    (mentions text).find? (fun m => m.1 == e.name) = some (e.name, e.firstLine) := by
  obtain ⟨hparts, hreferences⟩ := (outline_tells text).entry e he
  have hnotes := outline_notes text
  refine ⟨?_, ?_, ?_, hnotes.firstLine e he⟩
  · rw [hparts, partsOf_eq_nil_iff]
  · rw [hreferences, referencesTo_eq]
  · rw [hnotes.firstReference e he, referenceLines_eq, List.head?_map, List.head?_filter]

/-- A section that is referred to has an entry. -/
theorem exists_entry (h : referenceLines text name ≠ []) : ∃ e ∈ outline text, e.name = name := by
  by_contra habsent
  have hcount := ((outline_tells text).absent name fun hmem => habsent (List.mem_map.1 hmem)).2
  rw [referencesTo_eq, List.length_eq_zero_iff] at hcount
  exact h hcount

/-- The sections at the top have code and are not referred to. -/
theorem isRoot_eq (he : e ∈ outline text) : e.isRoot =
    decide (sectionLines text e.name ≠ [] ∧ referenceLines text e.name = []) := by
  obtain ⟨hparts, hreferences, -⟩ := entry_lines he
  rw [Entry.isRoot, Bool.eq_iff_iff, Bool.and_eq_true_iff, decide_eq_true_iff, and_comm, ne_eq,
    ← hparts, hreferences]
  simp

/-- A section of the extraction is the result of a traversal. -/
theorem mem_sections {s : Section} (hs : s ∈ (extract text).sections) :
    ∃ e ∈ (outline text).filter Entry.isRoot,
      s = ⟨e.name, ((outline text).expandEntry e).code⟩ := by
  rw [sections_eq] at hs
  obtain ⟨e, he, rfl⟩ := List.mem_map.1 hs
  exact ⟨e, he, rfl⟩

theorem mem_sections_root (he : e ∈ (outline text).filter Entry.isRoot) :
    ⟨e.name, ((outline text).expandEntry e).code⟩ ∈ (extract text).sections := by
  rw [sections_eq]
  exact List.mem_map_of_mem he

/-- The names of the sections that are returned, in order. -/
theorem map_name_sections (text : List Char) : (extract text).sections.map Section.name =
    (mentionedNames text).filter fun name =>
      sectionLines text name ≠ [] ∧ referenceLines text name = [] := by
  rw [mentionedNames, ← (outline_notes text).names, sections_eq, List.map_map, List.filter_map]
  exact congrArg (List.map Entry.name) (List.filter_congr fun e he => isRoot_eq he)

end

/-! ## Problems -/

/-- What a problem says about the document. -/
def SectionProblem.Holds (text : List Char) : SectionProblem → Prop
  | multipleReferences name count line =>
    1 < count ∧ (referenceLines text name).length = count ∧
      (referenceLines text name).head? = some line
  | undefined name line =>
    sectionLines text name = [] ∧ (referenceLines text name).head? = some line
  | cycle name line => line ∈ referenceLines text name ∧ TransGen (Refers text) name name ∧
    ∃ s ∈ (extract text).sections, ReflTransGen (Refers text) s.name name
  | unreachable name line =>
    sectionLines text name ≠ [] ∧ referenceLines text name ≠ [] ∧
      (mentions text).find? (fun m => m.1 == name) = some (name, line) ∧
      ∀ s ∈ (extract text).sections, ¬ReflTransGen (Refers text) s.name name
  | unterminatedFence line => ∃ lines, .unclosed line lines ∈ blocks text

/-- All sections that the expansions enter. -/
def reachedNames (text : List Char) : List String :=
  ((outline text).filter Entry.isRoot).flatMap fun e => ((outline text).expandEntry e).reached

section

variable {text : List Char} {name : String} {e : Entry} {problem : SectionProblem}

/-- Problems are found in the fences, in the entries, and at the references that are refused. -/
theorem mem_problems : problem ∈ (extract text).problems ↔
    problem ∈ fenceProblems (blocks text) ∨
    (∃ e ∈ outline text, problem ∈ e.referenceProblems) ∨
    (∃ e ∈ (outline text).filter Entry.isRoot, problem ∈ ((outline text).expandEntry e).cycles) ∨
    ∃ e ∈ outline text, problem ∈ e.unreachedProblems (reachedNames text) := by
  simp only [extract, reachedNames, List.mem_append, List.mem_flatMap, List.flatMap_map, or_assoc]

theorem Entry.mem_referenceProblems : problem ∈ e.referenceProblems ↔
    (1 < e.references ∧ problem = .multipleReferences e.name e.references e.firstReference) ∨
    0 < e.references ∧ e.parts = [] ∧ problem = .undefined e.name e.firstReference := by
  rw [referenceProblems, List.mem_append]
  refine or_congr ?_ ?_
  · split_ifs with h <;> simp [h]
  · split_ifs with h <;> simp_all

theorem Entry.mem_unreachedProblems {reached : List String} :
    problem ∈ e.unreachedProblems reached ↔ 0 < e.references ∧ e.parts ≠ [] ∧
      e.name ∉ reached ∧ problem = .unreachable e.name e.firstLine := by
  rw [unreachedProblems]
  split_ifs with h <;> simp_all

/-- What is entered and referred to is what can be reached from the sections at the top. -/
theorem mem_reachedNames (h : referenceLines text name ≠ []) : name ∈ reachedNames text ↔
    ∃ s ∈ (extract text).sections, ReflTransGen (Refers text) s.name name := by
  constructor
  · intro hmem
    obtain ⟨e, he, hmem⟩ := List.mem_flatMap.1 hmem
    exact ⟨_, mem_sections_root he, (mem_reached_iff he).1 (List.mem_cons_of_mem _ hmem)⟩
  · rintro ⟨s, hs, hreach⟩
    obtain ⟨e, he, rfl⟩ := mem_sections hs
    refine List.mem_flatMap.2 ⟨e, he, ?_⟩
    rcases List.mem_cons.1 ((mem_reached_iff he).2 hreach) with rfl | hmem
    · -- a section at the top is not referred to
      have hroot := referencesTo_root he
      rw [referencesTo_eq, List.length_eq_zero_iff] at hroot
      exact absurd hroot h
    · exact hmem

/-- **Each problem that is reported holds of the document.** -/
theorem problems_hold (h : problem ∈ (extract text).problems) : problem.Holds text := by
  rcases mem_problems.1 h with h | ⟨e, he, h⟩ | ⟨e, he, h⟩ | ⟨e, he, h⟩
  · obtain ⟨b, hb, heq⟩ := List.mem_filterMap.1 h
    cases b <;> cases heq
    exact ⟨_, hb⟩
  · obtain ⟨hparts, hreferences, hfirst, -⟩ := entry_lines he
    have hhead : 0 < e.references → (referenceLines text e.name).head? = some e.firstReference :=
      fun hpos => by
        rw [hreferences] at hpos
        rw [hfirst, List.head?_eq_some_head (List.ne_nil_of_length_pos hpos), Option.getD_some]
    rcases Entry.mem_referenceProblems.1 h with ⟨hmany, rfl⟩ | ⟨hpos, hempty, rfl⟩
    · exact ⟨hmany, hreferences.symm, hhead (Nat.lt_trans Nat.zero_lt_one hmany)⟩
    · exact ⟨hparts.1 hempty, hhead hpos⟩
  · obtain ⟨n, line, rfl, hline, hreach, hcycle⟩ := ((unfolds_expandEntry he).sound
      (List.forall_mem_singleton.2 .refl) fun _ _ _ h => h).2 _ h
    exact ⟨hline, hcycle, _, mem_sections_root he, hreach⟩
  · obtain ⟨hparts, hreferences, -, hmention⟩ := entry_lines he
    obtain ⟨hpos, hcode, hunreached, rfl⟩ := Entry.mem_unreachedProblems.1 h
    rw [hreferences] at hpos
    have hreferred := List.ne_nil_of_length_pos hpos
    rw [mem_reachedNames hreferred, not_exists] at hunreached
    exact ⟨fun h => hcode (hparts.2 h), hreferred, hmention, fun s hs hreach =>
      hunreached s ⟨hs, hreach⟩⟩

/-- A reference cycle that can be reached is met. -/
theorem exists_cycle {s : Section} {n : String} (hs : s ∈ (extract text).sections)
    (hreach : ReflTransGen (Refers text) s.name n) (hcycle : TransGen (Refers text) n n) :
    ∃ name line, .cycle name line ∈ (extract text).problems := by
  obtain ⟨e, he, rfl⟩ := mem_sections hs
  have hunfolds := unfolds_expandEntry he
  cases hcycles : ((outline text).expandEntry e).cycles with
  | nil => exact absurd hcycle (hunfolds.acyclic hcycles hreach)
  | cons problem rest =>
    have hmem : problem ∈ ((outline text).expandEntry e).cycles := by
      rw [hcycles]
      exact List.mem_cons_self
    obtain ⟨name, line, rfl, -⟩ :=
      (hunfolds.sound (List.forall_mem_singleton.2 .refl) fun _ _ _ h => h).2 _ hmem
    exact ⟨name, line, mem_problems.2 (Or.inr (Or.inr (Or.inl ⟨e, he, hmem⟩)))⟩

/-- **The problems that are reported are those that hold of the document**, cycles apart: of
    these, one is met where there are any. -/
theorem reported_iff_holds (hcycle : ∀ name line, problem ≠ .cycle name line) :
    problem ∈ (extract text).problems ↔ problem.Holds text := by
  refine ⟨problems_hold, fun h => ?_⟩
  rw [mem_problems]
  cases problem with
  | multipleReferences name count line =>
    obtain ⟨hmany, hcount, hhead⟩ := h
    have hreferred : referenceLines text name ≠ [] := List.ne_nil_of_length_pos (by omega)
    obtain ⟨e, he, rfl⟩ := exists_entry hreferred
    obtain ⟨-, hreferences, hfirst, -⟩ := entry_lines he
    rw [hhead, Option.getD_some] at hfirst
    refine Or.inr (Or.inl ⟨e, he, Entry.mem_referenceProblems.2 (Or.inl ⟨by omega, ?_⟩)⟩)
    rw [hreferences, hcount, hfirst]
  | undefined name line =>
    obtain ⟨hempty, hhead⟩ := h
    have hreferred : referenceLines text name ≠ [] :=
      List.ne_nil_of_mem (List.mem_of_mem_head? hhead)
    obtain ⟨e, he, rfl⟩ := exists_entry hreferred
    obtain ⟨hparts, hreferences, hfirst, -⟩ := entry_lines he
    rw [hhead, Option.getD_some] at hfirst
    refine Or.inr (Or.inl ⟨e, he, Entry.mem_referenceProblems.2
      (Or.inr ⟨?_, hparts.2 hempty, by rw [hfirst]⟩)⟩)
    rw [hreferences]
    exact List.length_pos_of_ne_nil hreferred
  | cycle name line => exact absurd rfl (hcycle name line)
  | unreachable name line =>
    obtain ⟨hcode, hreferred, hmention, hunreached⟩ := h
    obtain ⟨e, he, rfl⟩ := exists_entry hreferred
    obtain ⟨hparts, hreferences, -, hfirst⟩ := entry_lines he
    rw [hmention] at hfirst
    cases hfirst
    refine Or.inr (Or.inr (Or.inr ⟨e, he, Entry.mem_unreachedProblems.2
      ⟨?_, fun h => hcode (hparts.1 h), ?_, rfl⟩⟩))
    · rw [hreferences]
      exact List.length_pos_of_ne_nil hreferred
    · rw [mem_reachedNames hreferred]
      rintro ⟨s, hs, hreach⟩
      exact hunreached s hs hreach
  | unterminatedFence line =>
    obtain ⟨lines, hlines⟩ := h
    exact Or.inl (List.mem_filterMap.2 ⟨_, hlines, rfl⟩)

end

/-- **The structure problems of a document are exact, and extraction ends.**  The sections that
    are returned are those with code and without a reference, in order of first mention, and the
    code of each is what its traversal collects.  A problem is reported if it holds of the
    document: more than one line refers to a section; a section that is referred to has no code,
    or it has code that no section returned leads to; and a section on a reference cycle can be
    reached from one that is returned. -/
theorem problems_exact (text : List Char) :
    ((extract text).sections.map Section.name = (mentionedNames text).filter fun name =>
      sectionLines text name ≠ [] ∧ referenceLines text name = []) ∧
    (∀ s ∈ (extract text).sections, ∃ x, Unfolds text [s.name] 0 (partsOf text s.name) x ∧
      x.code = s.code) ∧
    (∀ name count line, .multipleReferences name count line ∈ (extract text).problems ↔
      1 < count ∧ (referenceLines text name).length = count ∧
        (referenceLines text name).head? = some line) ∧
    (∀ name line, .undefined name line ∈ (extract text).problems ↔
      sectionLines text name = [] ∧ (referenceLines text name).head? = some line) ∧
    (∀ name line, .unreachable name line ∈ (extract text).problems ↔
      sectionLines text name ≠ [] ∧ referenceLines text name ≠ [] ∧
      (mentions text).find? (fun m => m.1 == name) = some (name, line) ∧
      ∀ s ∈ (extract text).sections, ¬ReflTransGen (Refers text) s.name name) ∧
    ((∃ name line, .cycle name line ∈ (extract text).problems) ↔
      ∃ s ∈ (extract text).sections, ∃ n, ReflTransGen (Refers text) s.name n ∧
        TransGen (Refers text) n n) := by
  refine ⟨map_name_sections text, fun s hs => ?_, fun name count line => ?_, fun name line => ?_,
    fun name line => ?_, ?_⟩
  · obtain ⟨e, he, rfl⟩ := mem_sections hs
    exact ⟨_, unfolds_expandEntry he, rfl⟩
  · exact reported_iff_holds (by simp)
  · exact reported_iff_holds (by simp)
  · exact reported_iff_holds (by simp)
  · constructor
    · rintro ⟨name, line, h⟩
      obtain ⟨-, hcycle, s, hs, hreach⟩ := problems_hold h
      exact ⟨s, hs, name, hreach, hcycle⟩
    · rintro ⟨s, hs, n, hreach, hcycle⟩
      exact exists_cycle hs hreach hcycle

/-- A cycle that the section at the top leads into, and one that stands alone. -/
def twoCycles : List Char :=
  "    ## one

# one

    ## two

# two

    ## one

# three

    ## three
".toList

example : (extract twoCycles).problems = [.multipleReferences "one" 2 1, .cycle "one" 9,
    .unreachable "three" 11] := by
  cbv

end LayoutLR
