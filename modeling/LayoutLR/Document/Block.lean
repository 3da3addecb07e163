/-
  Layout-aware LR toolkit — the headings and code blocks of a literate document.

  A document is read line by line.  A line that starts with `#` is a heading, a
  line of three or more backticks or tildes opens a fenced block, and an
  indented line after a blank one opens an indented block; all other lines are
  prose.  Inside a block, a line whose first visible characters are `##` refers
  to another section.

  * `documentLines`: the lines with their numbers;
  * `blocks`: the headings and code blocks in document order;
  * `parts`: the runs of code and the references of one block.
-/
import LayoutLR.Document.Code

namespace LayoutLR

open Text

/-! ## Numbered lines -/

/-- A line of a document. -/
structure DocLine where
  /-- The line with its line break. -/
  raw : List Char
  /-- The number of the line, from one. -/
  no : Nat
deriving DecidableEq, Repr, Inhabited

/-- The line without its line break and the carriage returns before it. -/
def DocLine.text (line : DocLine) : List Char :=
  dropTrailing (· == '\r') (dropTrailing (· == '\n') line.raw)

/-- Lines numbered from `no` on. -/
def numberLines (no : Nat) : List (List Char) → List DocLine
  | [] => []
  | raw :: rest => ⟨raw, no⟩ :: numberLines (no + 1) rest

/-- The lines of a document. -/
def documentLines (text : List Char) : List DocLine :=
  numberLines 1 (splitLines text)

/-! ## Fences -/

/-- The characters that open or close a fenced block. -/
structure Fence where
  /-- A backtick or a tilde. -/
  mark : Char
  /-- How many of them stand in a row, at least three. -/
  size : Nat
deriving DecidableEq, Repr

/-- The run of `mark` at the front of a text, if it is long enough for a fence. -/
def Fence.run? (mark : Char) (text : List Char) : Option Fence :=
  let size := (text.takeWhile (· == mark)).length
  if 3 ≤ size then some ⟨mark, size⟩ else none

/-- The fence of a line; at most three spaces may stand in front of it. -/
def Fence.ofLine? (line : List Char) : Option Fence :=
  let spaces := (line.takeWhile (· == ' ')).length
  if 3 < spaces then none
  else
    let body := line.drop spaces
    (Fence.run? '\x60' body).or (Fence.run? '~' body)

/-- Whether a line closes a block that `fence` opened: the same mark, as often or
    more. -/
def Fence.closedBy (fence : Fence) (line : DocLine) : Bool :=
  match Fence.ofLine? line.text with
  | some other => other.mark == fence.mark && decide (fence.size ≤ other.size)
  | none => false

/-! ## Blocks -/

/-- What a document is made of, prose apart. -/
inductive Block where
  /-- A heading names the section of the code that follows it. -/
  | heading (name : String) (line : Nat)
  /-- The lines of a code block that starts at line `start`: an indented one, or a
      fenced one without its fences. -/
  | code (start : Nat) (indented : Bool) (lines : List DocLine)
  /-- A fence that no later line closes; its block runs to the end. -/
  | unclosed (start : Nat) (lines : List DocLine)
deriving Repr

/-- A name after its hash marks, without surrounding blanks. -/
def sectionName (text : List Char) : String :=
  String.ofList (trim (text.dropWhile (· == '#')))

/-- Whether a line continues an indented block. -/
def DocLine.continuesBlock (line : DocLine) : Bool :=
  isBlankLine line.text || decide (0 < blockIndent line.text)

/-- The lines after the first one of an indented block; blank lines at the end are
    not part of it. -/
def indentedRest (rest : List DocLine) : List DocLine :=
  ((rest.takeWhile DocLine.continuesBlock).reverse.dropWhile
    fun line => isBlankLine line.text).reverse

/-- The blocks of the given lines; `afterBlank` tells whether an indented block may
    start here. -/
def blocksFrom (afterBlank : Bool) : List DocLine → List Block
  | [] => []
  | line :: rest =>
    let text := line.text
    if isBlankLine text then blocksFrom true rest
    else match Fence.ofLine? text with
      | some fence =>
        let body := rest.takeWhile fun l => !fence.closedBy l
        match rest.drop body.length with
        | [] => [.unclosed line.no body]
        | _ :: _ => .code line.no false body :: blocksFrom true (rest.drop (body.length + 1))
      | none =>
        if text.head? = some '#' then
          .heading (sectionName text) line.no :: blocksFrom true rest
        else if afterBlank && decide (0 < blockIndent text) then
          let body := indentedRest rest
          .code line.no true (line :: body) :: blocksFrom false (rest.drop body.length)
        else blocksFrom false rest
termination_by lines => lines.length
decreasing_by all_goals simp_wf; try omega

/-- The blocks of a document. -/
def blocks (text : List Char) : List Block :=
  blocksFrom true (documentLines text)

/-! ## Parts of a block -/

/-- A piece of a code block. -/
inductive Part where
  /-- A run of code. -/
  | code (node : CodeNode)
  /-- A line that stands for the code of the named section, `indent` columns wide
      in front. -/
  | reference (name : String) (indent line : Nat)
deriving DecidableEq, Repr

/-- The run of code that is made of whole lines, if there are any. -/
def runOf (indented : Bool) : List DocLine → List Part
  | [] => []
  | line :: rest =>
    [.code ⟨(line :: rest).flatMap DocLine.raw, line.no, 0, indented⟩]

/-- The reference that a line makes, if its first visible characters are `##`. -/
def referenceOf? (indented : Bool) (line : DocLine) : Option Part :=
  let content := if indented then stripBlockIndent line.text else line.text
  match trimLeft content with
  | '#' :: '#' :: rest =>
    let front := content.take (content.length - (rest.length + 2))
    some (.reference (sectionName rest) (width front) line.no)
  | _ => none

/-- The pieces of a block whose lines `run` (newest first) belong to a run of code
    that is still open. -/
def partsFrom (indented : Bool) (run : List DocLine) : List DocLine → List Part
  | [] => runOf indented run.reverse
  | line :: rest =>
    match referenceOf? indented line with
    | some reference => runOf indented run.reverse ++ reference :: partsFrom indented [] rest
    | none => partsFrom indented (line :: run) rest

/-- The runs of code and the references of a block. -/
def parts (indented : Bool) (lines : List DocLine) : List Part :=
  partsFrom indented [] lines

end LayoutLR
