/-
  Layout-aware LR toolkit — what the commands do.

  A command reads its files through a function that is handed to it, and
  answers with what it prints, the file that it wants to write and an exit
  status.  Where several things are wrong, the first in this order is reported:
  the document, its section, the grammar, then whatever the command needs
  beyond.

  * `CommandError`: why a command fails;
  * `Response`: what it answers;
  * `Request.respond`: the response to a request;
  * `respond`: the response to a command line;
  * `Folder.respond`: the same on the files of a folder.
-/
import LayoutLR.Automaton.Chart
import LayoutLR.Automaton.Report
import LayoutLR.Command.Arguments
import LayoutLR.Command.Folder
import LayoutLR.Document.Section
import LayoutLR.Grammar.Reader
import LayoutLR.Grammar.Report
import LayoutLR.Host.Source
import LayoutLR.Parser.Trace
import LayoutLR.Parser.Tree
import LayoutLR.Text.Grid

namespace LayoutLR

/-! ## Errors and responses -/

/-- Why a command fails. -/
inductive CommandError where
  | file (e : FileError)
  | noSection (path name : String)
  | noCode (path : String)
  | grammar (path : String) (errors : List GrammarError)
  | host (e : HostError)
  /-- The parser does not come to an end. -/
  | endless

/-- The message about a command that fails. -/
def CommandError.message : CommandError → String
  | .file e => e.message
  | .noSection path name => s!"{path}: no code section named `{name}`"
  | .noCode path => s!"{path}: document contains no code"
  | .grammar path errors =>
    s!"{path}: " ++ "\n".intercalate (errors.map GrammarError.message)
  | .host e => e.message
  | .endless => "the parser does not come to an end"

/-- What a command answers. -/
structure Response where
  exit : Nat := 0
  /-- What it prints. -/
  out : String := ""
  /-- What it prints about trouble. -/
  err : String := ""
  /-- The file that it writes. -/
  file : Option (String × String) := none

/-- The response of a command that fails. -/
def Response.failure (e : CommandError) : Response where
  exit := 1
  err := s!"Error: {e.message}\n"

/-- The text goes to a file if one is named, and else is printed. -/
def Response.deliver (output : Option String) (text : String) : Response :=
  match output with
  | some path => { file := some (path, text) }
  | none => { out := text ++ "\n" }

/-! ## Documents and grammars -/

/-- How files are read. -/
abbrev ReadFile := String → Except FileError String

/-- The text of a file. -/
def ReadFile.text (read : ReadFile) (path : String) : Except CommandError (List Char) :=
  match read path with
  | .ok s => .ok s.toList
  | .error e => .error (.file e)

/-- The section of a document with the given name, or the first one. -/
def sectionOf (path : String) (text : List Char) (name? : Option String) :
    Except CommandError Section :=
  let sections := (extract text).sections
  match name? with
  | some name => match Section.find? sections name with
    | some s => .ok s
    | none => .error (.noSection path name)
  | none => match sections.head? with
    | some s => .ok s
    | none => .error (.noCode path)

namespace Target

/-- The section that a command is about. -/
def load (t : Target) (read : ReadFile) : Except CommandError Section := do
  sectionOf t.file (← read.text t.file) t.name?

/-- The automaton of the grammar that a command is about. -/
def automaton (t : Target) (read : ReadFile) (strength : Strength) :
    Except CommandError Automaton := do
  let s ← t.load read
  match Grammar.read s.code with
  | .ok g => return Automaton.build g strength
  | .error errors => throw (.grammar t.file errors)

end Target

/-! ## Commands -/

/-- Everything about an automaton: FIRST sets from SLR on, FOLLOW sets at SLR only. -/
def Automaton.report (a : Automaton) : String :=
  let g := a.grammar
  let follow := if a.strength = .slr then some a.basis.follow else none
  g.symbolsReport ++ g.productionsReport ++
    showIf (decide (Strength.slr.rank ≤ a.strength.rank)) (g.setsReport a.basis.first follow) ++
    a.statesReport ++ a.conflictsReport

/-- The number of values after which a parse is given up. -/
def parseBudget : Nat :=
  1000000

/-- Parses a text: the tree or `no parse` is printed, the trace and the number of errors are
    shown apart. -/
def Automaton.parseText (a : Automaton) (input : List Char) (trace : Bool) :
    Except CommandError Response :=
  let t := a.table
  let config : Config := { ignored := t.ignored, known := t.known.map String.toList }
  let stream := (Scanner.ofText config input).stream
  let run := parse t treeActions {} (.ofTokens (stream.map Prod.fst)) parseBudget
  match run.verdict with
  | .finished value =>
    let script := run.transcript t (if trace then .unlimited else .off) (stream.map Prod.snd)
    let errors := run.machine.memory.errors.length
    .ok { out := (value.map (Tree.text a.grammar.plainStyle)).getD "no parse" ++ "\n"
          err := unlines script.trace ++ showIf (decide (0 < errors)) s!"{errors} syntax errors\n" }
  | _ => .error .endless

/-- The code of the header section, if one is named. -/
def Target.headerCode (t : Target) (read : ReadFile) :
    Option String → Except CommandError (List Char)
  | none => .ok []
  | some name => do
    let s ← sectionOf t.file (← read.text t.file) (some name)
    return codeText s.code

/-- The module of host code for an automaton. -/
def Automaton.sourceText (a : Automaton) (header : List Char) : Except CommandError String :=
  match a.source header with
  | .ok s => .ok s
  | .error e => .error (.host e)

/-- The name and the version of the program, or of one of its commands. -/
def versionText : Option Command → String
  | none => "lrtide 0.1.0\n"
  | some c => s!"lrtide-{c.name} \n"

/-- How the program is used. -/
def usageText : String :=
  unlines (["lrtide 0.1.0", "", "USAGE:"] ++ Command.all.map fun c =>
    s!"    lrtide {c.name}" ++ String.join (c.files.map fun f => s!" <{f}>") ++
      String.join (c.options.map fun o =>
        s!" [--{o.long}" ++ showIf o.takesValue " <value>" ++ "]"))

namespace Request

/-- The response to a request, or why there is none. -/
def respond? (read : ReadFile) : Request → Except CommandError Response
  | .version c => .ok { out := versionText c }
  | .help => .ok { out := usageText }
  | .extract target lines => do
    let s ← target.load read
    let text := if lines then annotatedText target.file s.code else codeText s.code
    return { out := String.ofList text }
  | .tokens target => do
    let s ← target.load read
    return { out := unlines ((Scanner.ofCode {} s.code).tokens.map Token.display) }
  | .report target strength => do
    return { out := (← target.automaton read strength).report }
  | .table target strength csv => do
    let chart := (← target.automaton read strength).chart
    return match csv with
      | some path => { file := some (path, Text.csvText chart) }
      | none => { out := Text.gridText chart ++ "\n" }
  | .graph target strength output => do
    return .deliver output (← target.automaton read strength).graph
  | .generate target strength header output => do
    let a ← target.automaton read strength
    let header ← target.headerCode read header
    return .deliver output (← a.sourceText header)
  | .parse target strength input trace => do
    let a ← target.automaton read strength
    a.parseText (← read.text input) trace

/-- The response to a request. -/
def respond (r : Request) (read : ReadFile) : Response :=
  match r.respond? read with
  | .ok response => response
  | .error e => .failure e

end Request

/-! ## Command lines -/

/-- The response to a command line. -/
def respond (args : List String) (read : ReadFile) : Response :=
  match Request.read args with
  | .ok r => r.respond read
  | .error .noArguments => { exit := 1, err := usageText }
  | .error e => { exit := 1, err := s!"error: {e.message}\n\n{usageText}" }

/-- The response to a command line on the files of a folder, with the path at which a file was
    written inside it. -/
def Folder.respond (f : Folder) (args : List String) : Response :=
  let response := LayoutLR.respond args f.read
  match response.file with
  | none => response
  | some (name, text) => match f.place name with
    | .ok p => { response with file := if p.isOutside then none else some (p.text, text) }
    | .error e => .failure (.file e)

end LayoutLR
