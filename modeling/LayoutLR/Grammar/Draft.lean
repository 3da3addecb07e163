/-
  Layout-aware LR toolkit — a grammar while it is being read.

  Statements mention symbols before it is known what they are.  A draft collects
  the mentions in order; `Draft.finish` numbers them and makes the grammar, or
  tells what is wrong with it.

  * `GrammarError`: what can be wrong with a grammar, with its wording;
  * `Draft.defineHead`, `Draft.bodySymbol`, `Draft.literal`, `Draft.declare`: what
    a statement says about a name;
  * `Draft.order`: the final numbering.
-/
import LayoutLR.Grammar.Analysis
import LayoutLR.Text.Measure

namespace LayoutLR

/-! ## Errors -/

/-- What is wrong with a grammar. -/
inductive GrammarError where
  /-- A statement goes on with something else than it has to. -/
  | unexpected (line : Nat) (expected found : String)
  /-- A line that continues a production comes before any production. -/
  | strayBar (line : Nat)
  /-- A precedence declaration without symbols. -/
  | emptyDeclaration (line : Nat) (assoc : Assoc)
  | terminalHead (line : Nat) (name : String)
  | conflictingKind (line : Nat) (name : String)
  | precedenceRedeclared (line : Nat) (name : String)
  | precedenceOnNonterminal (line : Nat) (name : String)
  | virtualInBody (line : Nat) (name : String)
  | unterminatedAction (line : Nat)
  | undefined (line : Nat) (name : String)
  /-- There is no production at all. -/
  | empty
deriving DecidableEq, Repr

namespace GrammarError

/-- The line of an error; zero if it is about the whole grammar. -/
def line : GrammarError → Nat
  | unexpected line _ _ | strayBar line | emptyDeclaration line _ | terminalHead line _
  | conflictingKind line _ | precedenceRedeclared line _ | precedenceOnNonterminal line _
  | virtualInBody line _ | unterminatedAction line | undefined line _ => line
  | empty => 0

/-- The cause of an error without its line. -/
def cause : GrammarError → String
  | unexpected _ expected found => s!"expected {expected}, found {found}"
  | strayBar _ => "`|` without a production to continue"
  | emptyDeclaration _ assoc => s!"`$ {assoc.keyword}` names no symbols"
  | terminalHead _ name => s!"{name} is a terminal and cannot have productions"
  | conflictingKind _ name => s!"{name} is used both as a terminal and as a nonterminal"
  | precedenceRedeclared _ name => s!"{name} already has a precedence"
  | precedenceOnNonterminal _ name => s!"{name} is a nonterminal and cannot have a precedence"
  | virtualInBody _ name => s!"virtual symbol {name} cannot appear in a production"
  | unterminatedAction _ => "action code is not closed with `\x7d$`"
  | undefined _ name => s!"{name} is used but has no productions"
  | empty => "grammar has no productions"

/-- The wording of an error. -/
def message : GrammarError → String
  | empty => empty.cause
  | e => s!"line {e.line}: {e.cause}"

end GrammarError

/-! ## Drafts -/

/-- A symbol as far as it is known. -/
structure Mention where
  name : String
  /-- The role, unknown for a name that was only met in bodies. -/
  kind : Option SymbolKind
  precedence : Option Precedence := none
  valueType : Option ValueType := none
  /-- The line of the first mention. -/
  line : Nat
deriving DecidableEq, Repr, Inhabited

/-- A symbol with its number, which is that of its first mention. -/
structure Draft.Entry extends Mention where
  num : Nat
deriving DecidableEq, Repr, Inhabited

/-- The statements read so far. -/
structure Draft where
  symbols : Array Draft.Entry
  productions : Array Production := #[]
  /-- The type that new heads get. -/
  valueType : Option ValueType := none
  /-- The number of precedence declarations. -/
  level : Nat := 0
  /-- The head that a line of alternatives continues. -/
  head : Option Nat := none
  /-- The head of the first production. -/
  firstHead : Option Nat := none
deriving Inhabited

namespace Draft

/-- The draft before the first statement, which knows the predefined terminals. -/
def new : Draft where
  symbols := ((Kind.predefined.filterMap Kind.name?).zipIdx.map fun (name, num) =>
    (⟨⟨name, some .terminal, none, none, 0⟩, num⟩ : Entry)).toArray

/-- The number of the symbol with the given name. -/
def find? (d : Draft) (name : String) : Option Nat :=
  d.symbols.findIdx? fun m => m.name == name

/-- Adds a symbol, which gets the next number. -/
def add (d : Draft) (m : Mention) : Nat × Draft :=
  (d.symbols.size, { d with symbols := d.symbols.push ⟨m, d.symbols.size⟩ })

/-- The symbol of the given number. -/
def mention (d : Draft) (i : Nat) : Mention :=
  (d.symbols[i]?.map Entry.toMention).getD default

/-- Changes a symbol, but not its number. -/
def update (d : Draft) (i : Nat) (f : Mention → Mention) : Draft :=
  { d with symbols := d.symbols.modify i fun s => ⟨f s.toMention, s.num⟩ }

/-- What a statement does to a draft: it fails or gives a result, and leaves a draft either
    way. -/
abbrev Effect (α : Type) := Except GrammarError α × Draft

/-- Makes a name the head of productions.  A new head gets the current value type. -/
def defineHead (d : Draft) (name : String) (line : Nat) : Effect Nat :=
  match d.find? name with
  | none =>
    let (i, d) := d.add ⟨name, some .nonterminal, none, d.valueType, line⟩
    (.ok i, d)
  | some i =>
    match (d.mention i).kind with
    | none =>
      (.ok i, d.update i fun m => { m with kind := some .nonterminal, valueType := d.valueType })
    | some .nonterminal => (.ok i, d)
    | some .terminal | some .virtual => (.error (.terminalHead line name), d)

/-- The symbol that a word in a body stands for. -/
def bodySymbol (d : Draft) (name : String) (line : Nat) : Effect Nat :=
  match d.find? name with
  | none =>
    let (i, d) := d.add ⟨name, none, none, none, line⟩
    (.ok i, d)
  | some i =>
    if (d.mention i).kind = some .virtual then (.error (.virtualInBody line name), d)
    else (.ok i, d)

/-- The terminal that a mark or a string in a body stands for. -/
def literal (d : Draft) (name : String) (line : Nat) : Effect Nat :=
  match d.find? name with
  | none =>
    let (i, d) := d.add ⟨name, some .terminal, none, none, line⟩
    (.ok i, d)
  | some i =>
    match (d.mention i).kind with
    | some .terminal => (.ok i, d)
    | some .virtual => (.ok i, d.update i fun m => { m with kind := some .terminal })
    | none | some .nonterminal => (.error (.conflictingKind line name), d)

/-- Gives a precedence to a symbol, which is a new one of the given role if the name is
    new. -/
def declare (d : Draft) (p : Precedence) (name : String) (kind : SymbolKind) (line : Nat) :
    Effect Unit :=
  let (i, d) := match d.find? name with
    | some i => (i, d)
    | none => d.add ⟨name, some kind, none, none, line⟩
  let m := d.mention i
  if m.kind = none ∨ m.kind = some .nonterminal then
    (.error (.precedenceOnNonterminal line name), d)
  else if m.precedence.isSome then (.error (.precedenceRedeclared line name), d)
  else (.ok (), d.update i fun m => { m with precedence := some p })

/-- The precedence of the symbol with the given name. -/
def precedenceOf (d : Draft) (name : String) : Option Precedence :=
  (d.find? name).bind fun i => (d.mention i).precedence

/-- The precedence of the last symbol of a body that has one. -/
def bodyPrecedence (d : Draft) (body : List Nat) : Option Precedence :=
  body.reverse.findSome? fun i => (d.mention i).precedence

/-! ## The finished grammar -/

/-- The symbols of a role, from place `start` on. -/
def entriesOf (d : Draft) (start : Nat) (kind : SymbolKind) : List Entry :=
  (d.symbols.toList.drop start).filter fun s => s.kind == some kind

/-- The numbers of the symbols of a role, from place `start` on. -/
def ofKind (d : Draft) (start : Nat) (kind : SymbolKind) : List Nat :=
  (d.entriesOf start kind).map Entry.num

/-- The literal terminals by their bytes. -/
def literals (d : Draft) : List Nat :=
  ((d.entriesOf Kind.reservedBase .terminal).mergeSort fun a b =>
    Text.order a.name.toList b.name.toList != .gt).map Entry.num

/-- The symbols in their final order, `start` being the number of the start symbol: the
    predefined ones, the literals, the start symbol, the other nonterminals, the virtual
    ones. -/
def order (d : Draft) (start : Nat) : List Nat :=
  List.range Kind.reservedBase ++ d.literals ++ [start] ++
    (d.ofKind 0 .nonterminal).filter (· != start) ++ d.ofKind 0 .virtual

/-- The symbol of a mention, with the number it has in the grammar. -/
def symbol (num : Nat) (m : Mention) : Symbol :=
  { name := m.name, kind := m.kind.getD .virtual, num, precedence := m.precedence,
    valueType := m.valueType, line := m.line }

/-- The grammar whose first head is `first`. -/
def toGrammar (d : Draft) (first : Nat) : Grammar :=
  let (start, d) := d.add ⟨"$start", some .nonterminal, none, none, 0⟩
  let order := d.order start
  let renumber := fun i => order.idxOf i
  let productions := (⟨start, [first, Kind.eof.num], none, none, 0, .anywhere, 0⟩ : Production) ::
    d.productions.toList
  Grammar.assemble (order.mapIdx fun num i => symbol num (d.mention i)).toArray
    (productions.map fun p =>
      { p with head := renumber p.head, body := p.body.map renumber }).toArray

/-- The symbols that no production explains. -/
def undefinedErrors (d : Draft) : List GrammarError :=
  (d.symbols.toList.filter fun m => m.kind == none).map fun m => .undefined m.line m.name

/-- The grammar, or all that is wrong with it; `errors` are those of single statements. -/
def finish (d : Draft) (errors : List GrammarError) : Except (List GrammarError) Grammar :=
  match d.firstHead with
  | none => .error (errors ++ [.empty])
  | some first =>
    match errors ++ d.undefinedErrors with
    | [] => .ok (d.toGrammar first)
    | all => .error all

end Draft

end LayoutLR
