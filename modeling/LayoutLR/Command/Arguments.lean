/-
  Layout-aware LR toolkit — the arguments of the command line.

  The first argument names a command.  Options may stand before, between and
  after the file names; a value follows its option as the next argument, after
  an equals sign, or right behind a short option.  After `--` only file names
  follow.  An option whose value does not follow is refused unless it has a
  default, but only after all arguments were read, so that a later question for
  the version or for help is still answered.

  * `Command`, `Opt`: the commands and the options that they take;
  * `Request`: what a command line asks for;
  * `UsageError`: what is wrong with one;
  * `Request.read`: the request of a command line.
-/
import LayoutLR.Automaton.Strength

namespace LayoutLR

/-! ## Commands and options -/

/-- The commands. -/
inductive Command where
  | extract
  | tokens
  | report
  | table
  | graph
  | generate
  | parse
deriving DecidableEq, Repr

/-- The options. -/
inductive Opt where
  | sectionName
  | strength
  | csv
  | output
  | header
  | lines
  | trace
deriving DecidableEq, Repr

/-- The long name of an option. -/
def Opt.long : Opt → String
  | .sectionName => "section"
  | .strength => "strength"
  | .csv => "csv"
  | .output => "output"
  | .header => "header"
  | .lines => "lines"
  | .trace => "trace"

/-- The letter of an option that has one. -/
def Opt.short? : Opt → Option Char
  | .sectionName => some 's'
  | .output => some 'o'
  | _ => none

/-- Whether a value belongs to an option. -/
def Opt.takesValue : Opt → Bool
  | .lines | .trace => false
  | _ => true

/-- Whether an option that is given without its value has one to fall back on. -/
def Opt.hasDefault : Opt → Bool
  | .strength => true
  | _ => false

namespace Command

/-- The name of a command. -/
def name : Command → String
  | .extract => "extract"
  | .tokens => "tokens"
  | .report => "report"
  | .table => "table"
  | .graph => "graph"
  | .generate => "generate"
  | .parse => "parse"

/-- All commands. -/
def all : List Command :=
  [.extract, .tokens, .report, .table, .graph, .generate, .parse]

/-- The command of a name. -/
def ofName? (name : String) : Option Command :=
  all.find? fun c => c.name == name

/-- The options of a command. -/
def options : Command → List Opt
  | .extract => [.sectionName, .lines]
  | .tokens => [.sectionName]
  | .report => [.sectionName, .strength]
  | .table => [.sectionName, .strength, .csv]
  | .graph => [.sectionName, .strength, .output]
  | .generate => [.sectionName, .strength, .header, .output]
  | .parse => [.sectionName, .strength, .trace]

/-- The files that a command has to be given. -/
def files : Command → List String
  | .parse => ["file", "input"]
  | _ => ["file"]

end Command

/-! ## Requests -/

/-- The section of a document that a command is about; the first one unless named. -/
structure Target where
  file : String
  name? : Option String

/-- What a command line asks for. -/
inductive Request where
  /-- The version, under the name of a command if one is given. -/
  | version (command : Option Command)
  | help
  | extract (target : Target) (lines : Bool)
  | tokens (target : Target)
  | report (target : Target) (strength : Strength)
  | table (target : Target) (strength : Strength) (csv : Option String)
  | graph (target : Target) (strength : Strength) (output : Option String)
  | generate (target : Target) (strength : Strength) (header output : Option String)
  | parse (target : Target) (strength : Strength) (input : String) (trace : Bool)

/-- What is wrong with a command line. -/
inductive UsageError where
  | noArguments
  | unknown (argument : String)
  | noValue (option : Opt)
  | repeated (option : Opt)
  | missing (file : String)
  | badStrength (value : String)
deriving DecidableEq, Repr

/-- The message about a command line. -/
def UsageError.message : UsageError → String
  | .noArguments => "a command is needed"
  | .unknown argument => s!"unexpected argument '{argument}'"
  | .noValue option => s!"'--{option.long}' needs a value"
  | .repeated option => s!"'--{option.long}' was given more than once"
  | .missing file => s!"the argument <{file}> is missing"
  | .badStrength value => s!"'{value}' is none of LR0, LR05, SLR, LALR, LR1"

namespace Command

/-! ## Scanning -/

/-- The arguments that were met. -/
structure Scan where
  /-- The options in order, each with its value if it has one. -/
  options : List (Opt × Option String) := []
  files : List String := []

/-- What an option argument means. -/
inductive Switch where
  | version
  | help
  /-- An option with what was written behind it. -/
  | option (o : Opt) (value : Option String)

/-- Whether an argument is no file name and no value. -/
def isSwitch (arg : String) : Bool :=
  match arg.toList with
  | '-' :: _ :: _ => true
  | _ => false

/-- A value without the equals signs in front of it. -/
def plainValue (cs : List Char) : String :=
  String.ofList (cs.dropWhile (· == '='))

/-- A long option, its dashes taken off. -/
def longSwitch? (c : Command) (cs : List Char) : Option Switch :=
  let name := String.ofList (cs.takeWhile (· != '='))
  let value := if cs.contains '=' then some (plainValue (cs.dropWhile (· != '='))) else none
  if name = "version" then some .version
  else if name = "help" then some .help
  else (c.options.find? fun o => o.long == name).map fun o =>
    .option o (if o.takesValue then value else none)

/-- A short option and what is written behind its letter. -/
def shortSwitch? (c : Command) (letter : Char) (cs : List Char) : Option Switch :=
  if letter = 'V' then some .version
  else if letter = 'h' then some .help
  else (c.options.find? fun o => o.short? == some letter).map fun o =>
    .option o (if cs.isEmpty then none else some (plainValue cs))

/-- The meaning of an option argument. -/
def switch? (c : Command) (arg : String) : Option Switch :=
  let body := arg.toList.dropWhile (· == '-')
  if ['-', '-'].isPrefixOf arg.toList then c.longSwitch? body
  else match body with
    | letter :: cs => c.shortSwitch? letter cs
    | [] => none

/-- How scanning can end before the last argument. -/
inductive Stop where
  | version
  | help
  | usage (e : UsageError)

/-- Adds an option. -/
def Scan.addOption (s : Scan) (o : Opt) (value : Option String) : Scan :=
  { s with options := s.options ++ [(o, value)] }

/-- Adds a file, if one is still expected. -/
def Scan.addFile (s : Scan) (c : Command) (arg : String) : Except Stop Scan :=
  if s.files.length < c.files.length then .ok { s with files := s.files ++ [arg] }
  else .error (.usage (.unknown arg))

/-- Scans the arguments of a command.  An option at the end or before another one goes without
    its value. -/
def scan (c : Command) (s : Scan) : List String → Except Stop Scan
  | [] => .ok s
  | "--" :: files => files.foldlM (fun s arg => s.addFile c arg) s
  | arg :: rest =>
    if !isSwitch arg then do scan c (← s.addFile c arg) rest
    else match c.switch? arg with
      | none => .error (.usage (.unknown arg))
      | some .version => .error .version
      | some .help => .error .help
      | some (.option o (some value)) => scan c (s.addOption o (some value)) rest
      | some (.option o none) =>
        if !o.takesValue then scan c (s.addOption o none) rest
        else match rest with
          | [] => .ok (s.addOption o none)
          | next :: more =>
            if isSwitch next then scan c (s.addOption o none) (next :: more)
            else scan c (s.addOption o (some next)) more

/-! ## Reading -/

/-- The value of an option. -/
def Scan.value? (s : Scan) (o : Opt) : Option String :=
  (s.options.find? fun e => e.1 == o).bind Prod.snd

/-- Whether an option was given. -/
def Scan.has (s : Scan) (o : Opt) : Bool :=
  s.options.any fun e => e.1 == o

/-- The names of strengths on the command line, in any mixture of cases. -/
def strengthNames : List String :=
  ["lr0", "lr05", "slr", "lalr", "lr1"]

/-- The strength that was asked for. -/
def Scan.strength (s : Scan) : Except UsageError Strength :=
  match s.value? .strength with
  | none => .ok .lalr
  | some value =>
    if strengthNames.contains (String.ofList (value.toList.map Char.toLower)) then
      match Strength.ofName? value with
      | some strength => .ok strength
      | none => .error (.badStrength value)
    else .error (.badStrength value)

/-- The option that was given more than once, if there is one. -/
def Scan.repeated? (s : Scan) (c : Command) : Option Opt :=
  c.options.find? fun o => decide (1 < s.options.countP fun e => e.1 == o)

/-- The first option whose value is missing and has no default. -/
def Scan.bare? (s : Scan) : Option Opt :=
  (s.options.find? fun e => e.1.takesValue && !e.1.hasDefault && e.2.isNone).map Prod.fst

/-- The file at a position. -/
def Scan.file (s : Scan) (c : Command) (i : Nat) : Except UsageError String :=
  match s.files[i]? with
  | some file => .ok file
  | none => .error (.missing (c.files[i]?.getD ""))

/-- The request of a command with scanned arguments. -/
def request (c : Command) (s : Scan) : Except UsageError Request := do
  if let some o := s.bare? then throw (.noValue o)
  if let some o := s.repeated? c then throw (.repeated o)
  let target : Target := ⟨← s.file c 0, s.value? .sectionName⟩
  let strength ← s.strength
  match c with
  | .extract => return .extract target (s.has .lines)
  | .tokens => return .tokens target
  | .report => return .report target strength
  | .table => return .table target strength (s.value? .csv)
  | .graph => return .graph target strength (s.value? .output)
  | .generate => return .generate target strength (s.value? .header) (s.value? .output)
  | .parse => return .parse target strength (← s.file c 1) (s.has .trace)

/-- The request of the arguments after the name of a command. -/
def read (c : Command) (args : List String) : Except UsageError Request :=
  match c.scan {} args with
  | .ok s => c.request s
  | .error .version => .ok (.version (some c))
  | .error .help => .ok .help
  | .error (.usage e) => .error e

end Command

/-- The request for help on at most one topic: a command, or help itself. -/
def Request.readHelp : List String → Except UsageError Request
  | [] => .ok .help
  | topic :: rest =>
    if topic = "help" ∨ (Command.ofName? topic).isSome = true then
      match rest with
      | [] => .ok .help
      | arg :: _ => .error (.unknown arg)
    else .error (.unknown topic)

/-- The request of a command line. -/
def Request.read : List String → Except UsageError Request
  | [] => .error .noArguments
  | arg :: rest => match Command.ofName? arg with
    | some c => c.read rest
    | none =>
      let body := arg.toList.dropWhile (· == '-')
      let name := String.ofList (body.takeWhile (· != '='))
      if arg = "help" then readHelp rest
      else if ['-', '-'].isPrefixOf arg.toList then
        if name = "version" then .ok (.version none)
        else if name = "help" then .ok .help
        else .error (.unknown arg)
      else if Command.isSwitch arg && body.head? == some 'V' then .ok (.version none)
      else if Command.isSwitch arg && body.head? == some 'h' then .ok .help
      else .error (.unknown arg)

end LayoutLR
