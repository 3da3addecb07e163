/-
  Layout-aware LR toolkit — parse tables.

  A table is what is left of an automaton when it runs: for each state its
  transitions, at most one reduction, and how it treats layout.

  * `Row`, `Reduction`, `Table`: the data;
  * `Row.goto?`: the transition on a symbol;
  * `Automaton.table`: the table of an automaton.
-/
import LayoutLR.Automaton.Basic

namespace LayoutLR

/-- The reduction of a state. -/
structure Reduction where
  /-- The production; number 0 accepts. -/
  prod : Nat
  /-- The number of symbols of its body. -/
  size : Nat
  /-- Its head. -/
  sym : Nat
  /-- Whether it has to end at a line boundary. -/
  newlineOnly : Bool := false
deriving DecidableEq, Repr, Inhabited

/-- What a state does. -/
structure Row where
  /-- The transitions. -/
  goTo : SortedMap Nat Nat := ∅
  reduce : Option Reduction := none
  /-- Whether some item waits for a line-like symbol. -/
  startsLine : Bool := false
  /-- The first position of the dot in the kernel, other than the start. -/
  minPrefix : Nat := 0
deriving DecidableEq, Inhabited

/-- The transition on a symbol. -/
def Row.goto? (r : Row) (sym : Nat) : Option Nat :=
  r.goTo.find? sym

/-- A parse table. -/
structure Table where
  rows : Array Row
  /-- The names of the symbols by number. -/
  names : Array String
  /-- The literal terminals in the order in which they have to be known. -/
  known : Array String := #[]
  /-- The tokens that are of no use. -/
  ignored : Ignored := {}
deriving DecidableEq, Inhabited

/-- The row of a state. -/
def Table.row? (t : Table) (state : Nat) : Option Row :=
  t.rows[state]?

/-- The reduction by a production. -/
def Grammar.reductionBy (g : Grammar) (p : Nat) : Reduction :=
  { prod := p, size := (g.body p).length, sym := g.head p
    newlineOnly := (g.productions[p]?.map fun q => decide (q.boundary ≠ .anywhere)).getD false }

/-- The row of a state of an automaton. -/
def State.row (g : Grammar) (s : State) : Row where
  goTo := s.goTo
  reduce := s.reduce.map g.reductionBy
  startsLine := s.startsLine
  minPrefix := s.minPrefix

/-- The table of an automaton. -/
def Automaton.table (a : Automaton) : Table where
  rows := a.states.map (State.row a.grammar)
  names := a.grammar.symbols.map Symbol.name
  known := a.grammar.known
  ignored := a.grammar.ignoredTokens

end LayoutLR
