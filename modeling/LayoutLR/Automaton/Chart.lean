/-
  Layout-aware LR toolkit — parse tables to look at.

  * `Automaton.chart`: the table of an automaton as rows of cells, a row for each
    state and a column for each symbol of some transition;
  * `Automaton.graph`: the states and their transitions as a drawing in the
    language of graph drawing tools.
-/
import LayoutLR.Automaton.Conflict
import LayoutLR.Automaton.Table

namespace LayoutLR

namespace Automaton

variable (a : Automaton)

/-! ## Charts -/

/-- The symbols of all transitions. -/
def chartColumns : List Nat :=
  (SymSet.ofKeys (a.states.toList.flatMap fun s => s.goTo.keys)).keys

/-- The first row of a chart. -/
def chartTitle (columns : List Nat) : List String :=
  ["#", "Item closure", "Reduce", "Flags"] ++ columns.map a.grammar.name

/-- The reduction of a state: its production and the number of symbols. -/
def reduceCell (r : Row) : String :=
  (r.reduce.map fun d => s!"r{d.prod} ({d.size})").getD ""

/-- What is special about a state. -/
def flagsCell (r : Row) : String :=
  let newlineOnly := (r.reduce.map Reduction.newlineOnly).getD false
  "\n".intercalate ((if r.startsLine then ["starts line"] else []) ++
    (if newlineOnly then ["newline only"] else []) ++
    (if 0 < r.minPrefix then [s!"min prefix {r.minPrefix}"] else []))

/-- The transition on a symbol; terminals are shifted. -/
def goToCell (r : Row) (sym : Nat) : String :=
  ((r.goto? sym).map fun target =>
    if a.grammar.isTerminal sym then s!"s{target}" else s!"{target}").getD ""

/-- The row of a state. -/
def chartRow (columns : List Nat) (i : Nat) (s : State) : List String :=
  let r := s.row a.grammar
  [s!"{i}", "\n".intercalate (s.closure.keys.map (Item.text a.grammar)), reduceCell r,
    flagsCell r] ++ columns.map (a.goToCell r)

/-- The table as rows of cells. -/
def chart : List (List String) :=
  let columns := a.chartColumns
  a.chartTitle columns :: (a.states.mapIdx (a.chartRow columns)).toList

/-! ## Graphs -/

/-- Text inside a label. -/
def labelText (s : String) : String :=
  String.join (s.toList.map fun c =>
    if c = '&' then "&amp;" else if c = '<' then "&lt;" else if c = '>' then "&gt;"
    else if c = '\x22' then "&quot;" else String.singleton c)

/-- The row of an item: kernel items are bold, and the lookahead of the production that is
    reduced is underlined. -/
def graphItem (s : State) (e : Item × Handle) : String :=
  let g := a.grammar
  let item := labelText (e.1.text g)
  let item := if s.kernel.contains e.1 then s!"<B>{item}</B>" else item
  let lookahead := if e.1.isComplete g then (a.reduceLookahead e.1 e.2).keys.map g.name else []
  let lookahead := labelText (" ".intercalate lookahead)
  let lookahead := if s.reduce = some e.1.prod then s!"<U>{lookahead}</U>" else lookahead
  s!"      <TR><TD>{item}</TD><TD>{lookahead}</TD></TR>"

/-- The node of a state. -/
def graphNode (i : Nat) (s : State) : String :=
  s!"  State{i} [shape=plain label=<\n" ++
    "    <TABLE BORDER=\x220\x22 CELLBORDER=\x221\x22 CELLSPACING=\x220\x22>\n" ++
    s!"      <TR><TD><B>State #{i}</B></TD><TD><B>Lookahead</B></TD></TR>\n" ++
    "\n".intercalate (s.closure.entries.map (a.graphItem s)) ++
    "\n    </TABLE>\n  >];"

/-- The arrow of a transition. -/
def graphArrow (i : Nat) (e : Nat × Nat) : String :=
  let label := labelText (a.grammar.name e.1)
  s!"  State{i} -> State{e.2} [label=\x22{label}\x22];"

/-- The automaton as a graph. -/
def graph : String :=
  "\n".intercalate ([s!"digraph {a.strength.name}_states \x7b"] ++
    (a.states.mapIdx fun i s =>
      a.graphNode i s :: s.goTo.entries.map (a.graphArrow i)).toList.flatten ++ ["\x7d"])

end Automaton

end LayoutLR
