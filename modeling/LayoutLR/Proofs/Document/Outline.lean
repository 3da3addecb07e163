/-
  Layout-aware LR toolkit — the outline of a document in terms of its code blocks.

  The outline has one entry for every section that is mentioned.  An entry holds
  the parts of the blocks that belong to the section, in document order, and the
  number of references to the section among the parts of all blocks.

  * `partsOf`, `referencesTo`: the parts and the references, read off the blocks;
  * `Outline.Tells`: an outline that records given parts and references;
  * `outline_tells`: the outline of a document records those of the document;
  * `sections_eq`: the sections that are returned, in terms of the outline.
-/
import Mathlib.Data.List.Permutation
import Mathlib.Tactic.SplitIfs
import LayoutLR.Proofs.Document.CodeLines

namespace LayoutLR

/-! ## Parts and references of a document -/

/-- The parts of a code block. -/
def Passage.parts (p : Passage) : List Part :=
  LayoutLR.parts p.indented p.lines

/-- Whether a part refers to the named section. -/
def Part.refersTo (name : String) : Part → Bool
  | .code _ => false
  | .reference n _ _ => n == name

/-- The parts that some blocks give to the named section. -/
def partsAmong (ps : List Passage) (name : String) : List Part :=
  (ps.filter fun p => p.owner == name).flatMap Passage.parts

/-- How often some blocks refer to the named section. -/
def referencesAmong (ps : List Passage) (name : String) : Nat :=
  (ps.flatMap Passage.parts).countP (Part.refersTo name)

/-- The parts of the named section. -/
def partsOf (text : List Char) (name : String) : List Part :=
  partsAmong (passages text) name

/-- How often a document refers to the named section. -/
def referencesTo (text : List Char) (name : String) : Nat :=
  referencesAmong (passages text) name

namespace Outline

/-! ## What an outline records -/

/-- An outline that records, for each section, the given parts and references. -/
structure Tells (o : Outline) (parts : String → List Part) (references : String → Nat) : Prop where
  nodup : (o.map Entry.name).Nodup
  entry : ∀ e ∈ o, e.parts = parts e.name ∧ e.references = references e.name
  absent : ∀ name ∉ o.map Entry.name, parts name = [] ∧ references name = 0

variable {o : Outline} {parts : String → List Part} {references : String → Nat} {name m : String}
  {line : Nat} {ps : List Part} {f : Entry → Entry}

theorem entry?_isSome : (o.entry? name).isSome = true ↔ name ∈ o.map Entry.name := by
  simp [Outline.entry?, List.find?_isSome, beq_iff_eq]

/-- The parts that expansion looks up. -/
theorem Tells.parts_eq (h : o.Tells parts references) (name : String) :
    o.parts name = parts name := by
  rw [Outline.parts]
  cases he : o.entry? name with
  | none =>
    have habsent : name ∉ o.map Entry.name := by
      rw [← entry?_isSome, he]
      exact Bool.false_ne_true
    rw [(h.absent name habsent).1]
    rfl
  | some e =>
    have hname : e.name = name := by
      have := List.find?_some he
      simpa using this
    have := (h.entry e (List.mem_of_find?_eq_some he)).1
    rw [hname] at this
    exact this

theorem Tells.congr (h : o.Tells parts references) {parts' : String → List Part}
    {references' : String → Nat} (hparts : ∀ m, parts' m = parts m)
    (hreferences : ∀ m, references' m = references m) : o.Tells parts' references' := by
  rwa [funext hparts, funext hreferences]

/-! ## Mentions and references -/

theorem mem_names_mention : name ∈ (o.mention m line).map Entry.name ↔
    name ∈ o.map Entry.name ∨ name = m := by
  unfold mention
  split_ifs with hm
  · rw [entry?_isSome] at hm
    constructor
    · exact Or.inl
    · rintro (h | rfl)
      · exact h
      · exact hm
  · simp [eq_comm]

/-- A mention adds at most an entry without parts and references. -/
theorem Tells.mention (h : o.Tells parts references) (name : String) (line : Nat) :
    (o.mention name line).Tells parts references := by
  constructor
  · unfold Outline.mention
    split_ifs with hm
    · exact h.nodup
    · rw [entry?_isSome] at hm
      simpa using List.Nodup.concat hm h.nodup
  · unfold Outline.mention
    split_ifs with hm
    · exact h.entry
    · rw [entry?_isSome] at hm
      intro e he
      rcases List.mem_append.1 he with he | he
      · exact h.entry e he
      · obtain rfl := List.mem_singleton.1 he
        obtain ⟨hparts, hreferences⟩ := h.absent name hm
        exact ⟨hparts.symm, hreferences.symm⟩
  · intro m hm
    rw [mem_names_mention, not_or] at hm
    exact h.absent m hm.1

theorem names_update (hf : ∀ e, (f e).name = e.name) :
    (o.update name f).map Entry.name = o.map Entry.name := by
  rw [update, List.map_map]
  refine List.map_congr_left fun e _ => ?_
  simp only [Function.comp_apply]
  split_ifs
  · exact hf e
  · rfl

/-- A change to one entry. -/
theorem Tells.update (h : o.Tells parts references) (hname : name ∈ o.map Entry.name)
    (hf : ∀ e, (f e).name = e.name) {parts' : String → List Part} {references' : String → Nat}
    (hself : ∀ e ∈ o, e.name = name →
      (f e).parts = parts' name ∧ (f e).references = references' name)
    (hother : ∀ m, m ≠ name → parts' m = parts m ∧ references' m = references m) :
    (o.update name f).Tells parts' references' := by
  constructor
  · rw [names_update hf]
    exact h.nodup
  · intro e' he'
    obtain ⟨e, he, rfl⟩ := List.mem_map.1 he'
    split_ifs with hn
    · rw [hf, hn]
      exact hself e he hn
    · obtain ⟨hparts, hreferences⟩ := hother e.name hn
      rw [hparts, hreferences]
      exact h.entry e he
  · intro m hm
    rw [names_update hf] at hm
    have hne : m ≠ name := by
      rintro rfl
      exact hm hname
    obtain ⟨hparts, hreferences⟩ := hother m hne
    rw [hparts, hreferences]
    exact h.absent m hm

theorem Tells.refer (h : o.Tells parts references) (name : String) (line : Nat) :
    (o.refer name line).Tells parts
      fun m => references m + if name == m then 1 else 0 := by
  refine (h.mention name line).update (mem_names_mention.2 (Or.inr rfl)) ?_ ?_ ?_
  · exact fun _ => rfl
  · intro e he hn
    obtain ⟨hparts, hreferences⟩ := (h.mention name line).entry e he
    rw [hn] at hparts hreferences
    simp [hparts, hreferences]
  · intro m hm
    simp [Ne.symm hm]

theorem Tells.referAll (h : o.Tells parts references) (ps : List Part) :
    (o.referAll ps).Tells parts fun m => references m + ps.countP (Part.refersTo m) := by
  induction ps generalizing o references with
  | nil => exact h
  | cons p ps ih =>
    cases p with
    | code node =>
      refine (ih h).congr (fun _ => rfl) fun m => ?_
      rw [List.countP_cons_of_neg (by simp [Part.refersTo])]
    | reference name indent line =>
      refine (ih (h.refer name line)).congr (fun _ => rfl) fun m => ?_
      rw [List.countP_cons, Part.refersTo]
      omega

theorem mem_names_referAll (h : name ∈ o.map Entry.name) (ps : List Part) :
    name ∈ (o.referAll ps).map Entry.name := by
  induction ps generalizing o with
  | nil => exact h
  | cons p ps ih =>
    cases p with
    | code node => exact ih h
    | reference n indent line =>
      have hnames : (o.refer n line).map Entry.name = (o.mention n line).map Entry.name :=
        names_update fun _ => rfl
      exact ih (hnames ▸ mem_names_mention.2 (Or.inl h))

/-! ## Blocks -/

theorem Tells.addCode (h : o.Tells parts references) (name : String) (line : Nat)
    (ps : List Part) : (o.addCode name line ps).Tells
      (fun m => parts m ++ if name == m then ps else [])
      fun m => references m + ps.countP (Part.refersTo m) := by
  have hall := (h.mention name line).referAll ps
  refine hall.update (mem_names_referAll (mem_names_mention.2 (Or.inr rfl)) ps) ?_ ?_ ?_
  · exact fun _ => rfl
  · intro e he hn
    obtain ⟨hparts, hreferences⟩ := hall.entry e he
    rw [hn] at hparts hreferences
    simp [hparts, hreferences]
  · intro m hm
    simp [Ne.symm hm]

theorem partsAmong_cons (p : Passage) (ps : List Passage) (m : String) :
    partsAmong (p :: ps) m = (if p.owner == m then p.parts else []) ++ partsAmong ps m := by
  rw [partsAmong, List.filter_cons]
  split_ifs <;> rfl

theorem referencesAmong_cons (p : Passage) (ps : List Passage) (m : String) :
    referencesAmong (p :: ps) m = p.parts.countP (Part.refersTo m) + referencesAmong ps m := by
  rw [referencesAmong, List.flatMap_cons, List.countP_append]
  rfl

/-- A code block is recorded. -/
theorem Tells.passage (p : Passage) (h : o.Tells parts references) (line : Nat)
    {ps : List Passage} {after : Outline}
    (hafter : (o.addCode p.owner line p.parts).Tells
        (fun m => parts m ++ if p.owner == m then p.parts else [])
        (fun m => references m + p.parts.countP (Part.refersTo m)) →
      after.Tells
        (fun m => (parts m ++ if p.owner == m then p.parts else []) ++ partsAmong ps m)
        (fun m => references m + p.parts.countP (Part.refersTo m) + referencesAmong ps m)) :
    after.Tells (fun m => parts m ++ partsAmong (p :: ps) m)
      (fun m => references m + referencesAmong (p :: ps) m) := by
  refine (hafter (h.addCode p.owner line p.parts)).congr (fun m => ?_) fun m => ?_
  · rw [partsAmong_cons, List.append_assoc]
  · rw [referencesAmong_cons, Nat.add_assoc]

theorem Tells.addBlocks (h : o.Tells parts references) (current : String) (bs : List Block) :
    (o.addBlocks current bs).Tells
      (fun m => parts m ++ partsAmong (passagesFrom current bs) m)
      fun m => references m + referencesAmong (passagesFrom current bs) m := by
  induction bs generalizing o parts references current with
  | nil =>
    refine h.congr (fun m => ?_) fun m => ?_
    · exact List.append_nil _
    · rfl
  | cons b bs ih =>
    cases b with
    | heading name line => exact ih (h.mention name line) name
    | code start indented lines =>
      exact Tells.passage ⟨current, indented, lines⟩ h start fun h => ih h current
    | unclosed start lines =>
      exact Tells.passage ⟨current, false, lines⟩ h start fun h => ih h current

end Outline

/-- **The outline of a document records its parts and references.** -/
theorem outline_tells (text : List Char) :
    (outline text).Tells (partsOf text) (referencesTo text) := by
  have hempty : Outline.Tells [] (fun _ => []) (fun _ => 0) :=
    ⟨List.nodup_nil, nofun, fun _ _ => ⟨rfl, rfl⟩⟩
  refine (hempty.addBlocks "" (blocks text)).congr (fun m => rfl) fun m => ?_
  exact (Nat.zero_add _).symm

/-- The sections that a document yields. -/
theorem sections_eq (text : List Char) : (extract text).sections =
    ((outline text).filter Entry.isRoot).map fun e =>
      ⟨e.name, ((outline text).expandEntry e).code⟩ := by
  rw [extract]
  dsimp only
  generalize (outline text).filter Entry.isRoot = roots
  induction roots with
  | nil => rfl
  | cons e roots ih => rw [List.map_cons, List.zip_cons_cons, List.map_cons, ih, List.map_cons]

end LayoutLR
