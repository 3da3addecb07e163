/-
  Layout-aware LR toolkit — the code sections of a literate document.

  The code below headings of one name forms a section, and a section may refer
  to others.  The sections that nothing refers to are the top-level ones; each
  is turned into plain code by putting the code of the sections that it refers
  to in the place of the references.

  * `outline`: every section that is mentioned, in order of first mention;
  * `expand`: the code of a list of parts, with references replaced;
  * `extract`: the top-level sections, and the problems found on the way.
-/
import LayoutLR.Document.Block

namespace LayoutLR

/-! ## Sections and problems -/

/-- A top-level section with its references replaced. -/
structure Section where
  name : String
  code : List CodeNode
deriving DecidableEq, Repr

/-- The first section of the given name. -/
def Section.find? (sections : List Section) (name : String) : Option Section :=
  sections.find? fun s => s.name == name

/-- What is wrong with the structure of a document. -/
inductive SectionProblem where
  /-- More than one line refers to the section. -/
  | multipleReferences (name : String) (count line : Nat)
  /-- The section is referred to and has no code. -/
  | undefined (name : String) (line : Nat)
  /-- A section is referred to while it is being expanded. -/
  | cycle (name : String) (line : Nat)
  /-- No top-level section leads to the section. -/
  | unreachable (name : String) (line : Nat)
  /-- A fenced block runs to the end of the document. -/
  | unterminatedFence (line : Nat)
deriving DecidableEq, Repr

/-- The document line that a problem is reported at. -/
def SectionProblem.line : SectionProblem → Nat
  | multipleReferences _ _ line | undefined _ line | cycle _ line | unreachable _ line
  | unterminatedFence line => line

/-- The wording of a problem. -/
def SectionProblem.message : SectionProblem → String
  | multipleReferences name count line =>
    s!"line {line}: section \"{name}\" is referenced {count} times"
  | undefined name line => s!"line {line}: section \"{name}\" is referenced but never defined"
  | cycle name line => s!"line {line}: section \"{name}\" includes itself"
  | unreachable name line =>
    s!"line {line}: section \"{name}\" is not reachable from any top-level section"
  | unterminatedFence line => s!"line {line}: code fence is never closed"

/-! ## Outline -/

/-- All that a document says about one section. -/
structure Entry where
  name : String
  /-- The pieces of its blocks in document order. -/
  parts : List Part
  /-- How many lines refer to it. -/
  references : Nat
  /-- The line of the first reference, zero without one. -/
  firstReference : Nat
  /-- The line of the first mention. -/
  firstLine : Nat
deriving Repr

/-- The sections of a document in order of first mention. -/
abbrev Outline := List Entry

namespace Outline

/-- The entry of the given name. -/
def entry? (o : Outline) (name : String) : Option Entry :=
  o.find? fun e => e.name == name

/-- Adds an entry unless there is one of this name. -/
def mention (o : Outline) (name : String) (line : Nat) : Outline :=
  if (o.entry? name).isSome then o else o ++ [⟨name, [], 0, 0, line⟩]

/-- Changes the entry of the given name. -/
def update (o : Outline) (name : String) (f : Entry → Entry) : Outline :=
  o.map fun e => if e.name = name then f e else e

/-- Counts a reference to a section. -/
def refer (o : Outline) (name : String) (line : Nat) : Outline :=
  (o.mention name line).update name fun e =>
    { e with
      references := e.references + 1
      firstReference := if e.firstReference = 0 then line else e.firstReference }

/-- Counts the references among the parts of a block. -/
def referAll (o : Outline) (ps : List Part) : Outline :=
  ps.foldl (fun o p => match p with
    | .code _ => o
    | .reference name _ line => o.refer name line) o

/-- Adds the parts of a block to the section `name`. -/
def addCode (o : Outline) (name : String) (line : Nat) (ps : List Part) : Outline :=
  ((o.mention name line).referAll ps).update name fun e => { e with parts := e.parts ++ ps }

/-- Takes the blocks in, `current` being the section that code belongs to; code
    before the first heading belongs to the section without a name. -/
def addBlocks (o : Outline) (current : String) : List Block → Outline
  | [] => o
  | .heading name line :: rest => (o.mention name line).addBlocks name rest
  | .code start indented lines :: rest =>
    (o.addCode current start (LayoutLR.parts indented lines)).addBlocks current rest
  | .unclosed start lines :: rest =>
    (o.addCode current start (LayoutLR.parts false lines)).addBlocks current rest

/-- The parts of the named section. -/
def parts (o : Outline) (name : String) : List Part :=
  ((o.entry? name).map Entry.parts).getD []

end Outline

/-- The outline of a document. -/
def outline (text : List Char) : Outline :=
  Outline.addBlocks [] "" (blocks text)

/-! ## Expansion -/

/-- Code with the references replaced. -/
structure Expansion where
  code : List CodeNode
  /-- The sections that were entered, in order. -/
  reached : List String
  /-- The references to a section that was being expanded already. -/
  cycles : List SectionProblem
deriving Repr

/-- Nothing expanded yet. -/
def Expansion.empty : Expansion :=
  ⟨[], [], []⟩

/-- One expansion after the other. -/
def Expansion.append (a b : Expansion) : Expansion :=
  ⟨a.code ++ b.code, a.reached ++ b.reached, a.cycles ++ b.cycles⟩

/-- The code of a list of parts, `indent` columns further in.  Only the sections in
    `closed`, those not being expanded at the moment, may be entered. -/
def Outline.expand (o : Outline) (closed : List String) (indent : Nat) : List Part → Expansion
  | [] => .empty
  | .code node :: rest =>
    Expansion.append ⟨[{ node with indent := node.indent + indent }], [], []⟩
      (o.expand closed indent rest)
  | .reference name width line :: rest =>
    if name ∈ closed then
      let inner := o.expand (closed.erase name) (indent + width) (o.parts name)
      Expansion.append ⟨inner.code, name :: inner.reached, inner.cycles⟩
        (o.expand closed indent rest)
    else
      Expansion.append ⟨[], [], [.cycle name line]⟩ (o.expand closed indent rest)
termination_by ps => (closed.length, ps.length)
decreasing_by
  · exact Prod.Lex.right _ (by simp)
  · rename_i h
    refine Prod.Lex.left _ _ ?_
    have := List.length_erase_of_mem h
    have := List.length_pos_of_mem h
    omega
  · exact Prod.Lex.right _ (by simp)
  · exact Prod.Lex.right _ (by simp)

/-- Whether a section stands at the top: it has code, and nothing refers to it. -/
def Entry.isRoot (e : Entry) : Bool :=
  e.references == 0 && !e.parts.isEmpty

/-- The expansion of a whole section. -/
def Outline.expandEntry (o : Outline) (e : Entry) : Expansion :=
  o.expand ((o.map Entry.name).erase e.name) 0 e.parts

/-! ## Extraction -/

/-- The problems that the references to one section show. -/
def Entry.referenceProblems (e : Entry) : List SectionProblem :=
  (if 1 < e.references then [.multipleReferences e.name e.references e.firstReference] else []) ++
  (if 0 < e.references ∧ e.parts.isEmpty = true then [.undefined e.name e.firstReference] else [])

/-- The problem of a section that is referred to, but not from a section that is
    used. -/
def Entry.unreachedProblems (reached : List String) (e : Entry) : List SectionProblem :=
  if 0 < e.references ∧ e.parts.isEmpty = false ∧ e.name ∉ reached then
    [.unreachable e.name e.firstLine]
  else []

/-- The fences without an end. -/
def fenceProblems (bs : List Block) : List SectionProblem :=
  bs.filterMap fun
    | .unclosed start _ => some (.unterminatedFence start)
    | _ => none

/-- What a document yields. -/
structure Extraction where
  sections : List Section
  problems : List SectionProblem
deriving Repr

/-- The top-level sections of a document, in order of first mention, and the
    problems of its structure. -/
def extract (text : List Char) : Extraction :=
  let o := outline text
  let roots := o.filter Entry.isRoot
  let expansions := roots.map o.expandEntry
  let reached := expansions.flatMap Expansion.reached
  { sections := (roots.zip expansions).map fun (e, x) => ⟨e.name, x.code⟩
    problems := fenceProblems (blocks text) ++ o.flatMap Entry.referenceProblems ++
      expansions.flatMap Expansion.cycles ++ o.flatMap (Entry.unreachedProblems reached) }

end LayoutLR
