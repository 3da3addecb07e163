/-
  Layout-aware LR toolkit — reports about a grammar.

  * `Grammar.symbolsReport`: a line for each symbol;
  * `Grammar.productionsReport`: a line for each production;
  * `Grammar.setsReport`: the beginnings of the nonterminals, and what follows
    them.
-/
import LayoutLR.Grammar.Analysis
import LayoutLR.Text.Measure

namespace LayoutLR

open Text

/-- The word for the role of a symbol. -/
def SymbolKind.word : SymbolKind → String
  | .terminal => "terminal"
  | .nonterminal => "nonterminal"
  | .virtual => "virtual"

/-- Lines, each ended by a line break. -/
def unlines (lines : List String) : String :=
  String.join (lines.map (· ++ "\n"))

/-- The text if there is one to show. -/
def showIf (b : Bool) (s : String) : String :=
  if b then s else ""

namespace Grammar

variable (g : Grammar)

/-- The line about a symbol. -/
def symbolLine (s : Symbol) : String :=
  s!" {padLeft 3 s.num}: {s.name} {s.kind.word}" ++
    (s.precedence.map fun p => s!" ({p.display})").getD "" ++
    showIf s.nullable " nullable" ++ showIf s.lineLike " line-like" ++
    (s.valueType.map fun t => s!" <{t.name}>").getD ""

/-- A line for each symbol. -/
def symbolsReport : String :=
  unlines ("Symbols:" :: g.symbols.toList.map symbolLine)

/-- The line about production number `i`. -/
def productionLine (i : Nat) (p : Production) : String :=
  s!" {padLeft 3 i}: {g.productionText i none}" ++
    (p.precedence.map fun q => s!" $${q.display}").getD "" ++
    (match p.boundary with
      | .anywhere => ""
      | .newline => " [ends at NEWLINE]"
      | .outdent => " [ends at OUT]") ++
    showIf p.action.isSome " $\x7b...\x7d$"

/-- A line for each production. -/
def productionsReport : String :=
  unlines ("Productions:" :: (g.productions.mapIdx g.productionLine).toList)

/-- The names of the members of a set, each after a space. -/
def memberNames (s : SymSet) : String :=
  String.join (s.keys.map fun k => " " ++ g.name k)

/-- The beginning of a nonterminal. -/
def firstLine (first : SymSets) (s : Symbol) : String :=
  s!"FIRST({s.name}) = \x7b" ++ showIf s.nullable " `empty'" ++
    g.memberNames (first.of s.num) ++ " \x7d"

/-- What follows a nonterminal. -/
def followLine (follow : SymSets) (s : Symbol) : String :=
  s!"FOLLOW({s.name}) = \x7b" ++ g.memberNames (follow.of s.num) ++ " \x7d"

/-- The beginnings of the nonterminals and, if given, what follows them. -/
def setsReport (first : SymSets) (follow : Option SymSets) : String :=
  unlines (g.nonterminals.map (g.firstLine first) ++
    (follow.map fun sets => g.nonterminals.map (g.followLine sets)).getD [])

end Grammar

end LayoutLR
