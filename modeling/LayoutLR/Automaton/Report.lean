/-
  Layout-aware LR toolkit — reports about an automaton.

  * `Automaton.statesReport`: every state with its items, transitions and reduction;
  * `Automaton.conflictsReport`: every conflict with its items.
-/
import LayoutLR.Automaton.Conflict
import LayoutLR.Grammar.Report

namespace LayoutLR

namespace Automaton

variable (a : Automaton)

/-- The line about an item of a state; kernel items are marked. -/
def itemLine (s : State) (e : Item × Handle) : String :=
  let mark := if s.kernel.contains e.1 then "*" else " "
  s!"  {mark} {e.1.text a.grammar}" ++
    ((a.grammar.productions[e.1.prod]?.bind Production.precedence).map fun p =>
      s!" [{p.display}]").getD "" ++
    a.lookaheadText e.1 e.2

/-- The lines about a state. -/
def stateLines (i : Nat) (s : State) : List String :=
  let g := a.grammar
  [s!"State {i}:" ++ showIf s.startsLine " starts line" ++ s!" min prefix {s.minPrefix}"] ++
    s.closure.entries.map (a.itemLine s) ++
    s.goTo.entries.map (fun e => s!"    {g.name e.1} -> {e.2}") ++
    (s.reduce.map fun p => s!"    reduce {p}: {g.productionText p none}").toList

/-- Every state. -/
def statesReport : String :=
  unlines (s!"{a.states.size} states at {a.strength.name}:" ::
    (a.states.mapIdx a.stateLines).toList.flatten)

/-- Every conflict. -/
def conflictsReport : String :=
  let conflicts := a.conflicts
  unlines (s!"{conflicts.length} conflicts" :: conflicts.map fun c => "  " ++ a.describe c)

end Automaton

end LayoutLR
