/-
  Layout-aware LR toolkit — symbols, productions and grammars.

  Symbols are numbers.  The predefined kinds of tokens come first, then the
  literal terminals by their bytes, then `$start` and the other nonterminals,
  last the virtual symbols, which only carry a precedence.  Production 0 is
  `$start -> S $eof` for the first head `S`.

  * `Symbol`, `Production`, `Grammar`: the data;
  * `Grammar.lookup`, `Grammar.known`: what is read off it;
  * `Grammar.enterAll`: the productions of each head, as they are collected;
  * `Grammar.ignoredTokens`: the tokens that such a grammar has no use for;
  * `Grammar.productionText`: a production, with a dot in it or without.
-/
import LayoutLR.Token.Basic
import LayoutLR.Grammar.Precedence

namespace LayoutLR

/-! ## Symbols and productions -/

/-- The role of a symbol. -/
inductive SymbolKind where
  /-- Only gives its precedence to productions. -/
  | virtual
  | terminal
  | nonterminal
deriving DecidableEq, Repr, Inhabited

/-- The declared type of the values of a nonterminal. -/
inductive ValueType where
  /-- Kept behind a pointer. -/
  | boxed (name : String)
  /-- Kept as it is. -/
  | plain (name : String)
deriving DecidableEq, Repr

/-- The text of the declared type. -/
def ValueType.name : ValueType → String
  | boxed name | plain name => name

/-- A symbol of a grammar. -/
structure Symbol where
  name : String
  kind : SymbolKind
  /-- Its place among the symbols. -/
  num : Nat
  precedence : Option Precedence := none
  valueType : Option ValueType := none
  /-- The number of its first production. -/
  firstProduction : Option Nat := none
  /-- The line of the first mention. -/
  line : Nat := 0
  /-- Whether it derives the empty text. -/
  nullable : Bool := false
  /-- Whether it is the line break or derives one. -/
  lineLike : Bool := false
deriving DecidableEq, Repr, Inhabited

/-- The layout boundary that a production has to end at. -/
inductive Boundary where
  | anywhere
  | newline
  | outdent
deriving DecidableEq, Repr, Inhabited

/-- A production. -/
structure Production where
  head : Nat
  body : List Nat
  precedence : Option Precedence := none
  /-- The raw text of its action. -/
  action : Option (List Char) := none
  actionLine : Nat := 0
  boundary : Boundary := .anywhere
  line : Nat := 0
deriving DecidableEq, Repr, Inhabited

/-- A grammar with numbered symbols. -/
structure Grammar where
  symbols : Array Symbol
  productions : Array Production
  /-- The numbers of the productions of each symbol, in order. -/
  byHead : Array (List Nat)
deriving DecidableEq, Repr, Inhabited

namespace Grammar

variable (g : Grammar)

/-! ## Symbols of a grammar -/

/-- The name of a symbol. -/
def name (s : Nat) : String :=
  (g.symbols[s]?.map Symbol.name).getD ""

/-- The kind of a symbol. -/
def kind? (s : Nat) : Option SymbolKind :=
  g.symbols[s]?.map Symbol.kind

/-- Whether a symbol is a terminal. -/
def isTerminal (s : Nat) : Bool :=
  g.kind? s == some .terminal

/-- Whether a symbol is a nonterminal. -/
def isNonterminal (s : Nat) : Bool :=
  g.kind? s == some .nonterminal

/-- The precedence of a symbol. -/
def precedenceOf (s : Nat) : Option Precedence :=
  g.symbols[s]?.bind Symbol.precedence

/-- Whether a symbol derives the empty text. -/
def isNullable (s : Nat) : Bool :=
  (g.symbols[s]?.map Symbol.nullable).getD false

/-- Whether a symbol is the line break or derives one. -/
def isLineLike (s : Nat) : Bool :=
  (g.symbols[s]?.map Symbol.lineLike).getD false

/-- The nonterminals in order. -/
def nonterminals : List Symbol :=
  g.symbols.toList.filter fun s => s.kind == .nonterminal

/-- The number of the last symbol with the given name. -/
def lookup (name : String) : Option Nat :=
  ((g.symbols.toList.filter fun s => s.name == name).map Symbol.num).getLast?

/-- The literal terminals in order; entry `i` is read as the known text number `i`. -/
def known : Array String :=
  (g.symbols.toList.filter fun s => s.kind == .terminal && decide (Kind.reservedBase ≤ s.num)).map
    Symbol.name |>.toArray

/-! ## Productions of a grammar -/

/-- The body of a production. -/
def body (p : Nat) : List Nat :=
  (g.productions[p]?.map Production.body).getD []

/-- The head of a production. -/
def head (p : Nat) : Nat :=
  (g.productions[p]?.map Production.head).getD 0

/-- The start symbol. -/
def start : Nat :=
  g.head 0

/-- The numbers of the productions of a symbol, in order. -/
def productionsOf (s : Nat) : List Nat :=
  g.byHead[s]?.getD []

/-- The number of the first production of a symbol. -/
def firstProduction? (s : Nat) : Option Nat :=
  g.symbols[s]?.bind Symbol.firstProduction

/-- Enters production number `i` under its head, where the first one is kept as well. -/
def enter (i head : Nat) : Grammar :=
  { g with
    byHead := g.byHead.modify head fun ps => ps ++ [i]
    symbols := g.symbols.modify head fun s =>
      { s with firstProduction := s.firstProduction.or (some i) } }

/-- Enters productions, which are numbered from `i` on. -/
def enterAll (g : Grammar) : Nat → List Production → Grammar
  | _, [] => g
  | i, p :: ps => (g.enter i p.head).enterAll (i + 1) ps

/-- Whether some body has the given kind of token. -/
def uses (k : Kind) : Bool :=
  g.productions.any fun p => p.body.contains k.num

/-- Whether some production has to end at the given boundary. -/
def endsAt (b : Boundary) : Bool :=
  g.productions.any fun p => p.boundary == b

/-- The tokens that are of no use: always comments, and layout tokens that no body has and
    no production ends at.  Levels stay wherever line breaks do, because they decide where a
    line may end. -/
def ignoredTokens : Ignored :=
  let newlines := g.uses .newline || g.endsAt .newline
  let levels := newlines || g.uses .indent || g.uses .outdent || g.endsAt .outdent
  { Ignored.comments with indent := !levels, outdent := !levels, newline := !newlines }

/-! ## Text of a production -/

/-- The symbols of a body from position `pos` on, each after a space, with a dot before
    position `dot`. -/
def bodyText (dot : Option Nat) (pos : Nat) : List Nat → String
  | [] => if dot = some pos then " ." else ""
  | s :: rest =>
    (if dot = some pos then " ." else "") ++ " " ++ g.name s ++ bodyText dot (pos + 1) rest

/-- A production, with a dot before body position `dot`. -/
def productionText (p : Nat) (dot : Option Nat) : String :=
  g.name (g.head p) ++ " ->" ++ g.bodyText dot 0 (g.body p)

end Grammar

end LayoutLR
