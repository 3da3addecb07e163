/-
  Layout-aware LR toolkit — runs of code and their text.

  Code that was cut out of a document stays in runs of whole lines.  A run
  remembers the line it came from, how far it is to be indented, and whether
  its lines still carry the block indent of an indented paragraph.

  * `splitLines`: the lines of a text, each with its line break;
  * `CodeNode.render`: a run as it reads after indenting, and `codeText` for a
    list of runs;
  * `annotatedText`: the same with a comment wherever the lines of the document
    are left.
-/
import LayoutLR.Text.Class
import LayoutLR.Text.Measure

namespace LayoutLR

open Text

/-! ## Lines -/

/-- The lines of a text, each with the line break that ends it; only the last may
    lack one. -/
def splitLines : List Char → List (List Char)
  | [] => []
  | c :: cs =>
    if c = '\n' then [c] :: splitLines cs
    else match splitLines cs with
      | [] => [[c]]
      | l :: ls => (c :: l) :: ls

/-- Whether a line holds blanks only. -/
def isBlankLine (line : List Char) : Bool :=
  line.all isBlank

/-- The width of the block indent at the front of a line: a tab or four spaces. -/
def blockIndent : List Char → Nat
  | '\t' :: _ => 1
  | ' ' :: ' ' :: ' ' :: ' ' :: _ => 4
  | _ => 0

/-- The line without its block indent. -/
def stripBlockIndent (line : List Char) : List Char :=
  line.drop (blockIndent line)

/-! ## Code -/

/-- A run of code lines taken from a document. -/
structure CodeNode where
  /-- The lines as they stand in the document. -/
  text : List Char
  /-- The line of the document at which the run starts. -/
  line : Nat
  /-- The columns put in front of every line. -/
  indent : Nat
  /-- Whether the lines still carry a block indent. -/
  needsStrip : Bool
deriving DecidableEq, Repr, Inhabited

/-- Plain text as a single run that starts at line one. -/
def CodeNode.ofText (text : List Char) : CodeNode :=
  ⟨text, 1, 0, false⟩

/-- One line after indenting; a blank line keeps its line break only. -/
def CodeNode.renderLine (node : CodeNode) (line : List Char) : List Char :=
  let body := if node.needsStrip then stripBlockIndent line else line
  if isBlankLine body then
    if body.getLast? = some '\n' then ['\n'] else []
  else List.replicate node.indent ' ' ++ body

/-- The run after indenting. -/
def CodeNode.render (node : CodeNode) : List Char :=
  (splitLines node.text).flatMap node.renderLine

/-- The number of line breaks of a run. -/
def CodeNode.lineBreaks (node : CodeNode) : Nat :=
  node.text.count '\n'

/-- The text of linearized code. -/
def codeText (code : List CodeNode) : List Char :=
  code.flatMap CodeNode.render

/-- The comment that names the document line of what follows. -/
def originMarker (path : String) (line : Nat) : List Char :=
  s!"// {path}:{line}\n".toList

/-- The text of linearized code, `expected` being the document line that would
    follow on. -/
def annotatedFrom (path : String) (expected : Option Nat) : List CodeNode → List Char
  | [] => []
  | node :: rest =>
    (if expected = some node.line then [] else originMarker path node.line) ++ node.render ++
      annotatedFrom path (some (node.line + node.lineBreaks)) rest

/-- The text of linearized code with a comment at every jump between document
    lines. -/
def annotatedText (path : String) (code : List CodeNode) : List Char :=
  annotatedFrom path none code

end LayoutLR
