/-
  Layout-aware LR toolkit — how much lookahead an automaton is built with.

  The strengths form a chain from `LR0` to `LR1`; `Strength.ofName?` reads a name in
  any mixture of cases.
-/

namespace LayoutLR

/-- How much is known about the token that follows a reduction. -/
inductive Strength where
  /-- Nothing. -/
  | lr0
  /-- Nothing either, but only two possible reductions count as a conflict. -/
  | lr05
  /-- What can follow the head anywhere. -/
  | slr
  /-- What can follow the head in a state, with states of equal items merged. -/
  | lalr
  /-- What can follow the head in a state. -/
  | lr1
deriving DecidableEq, Repr, Inhabited

namespace Strength

/-- The place in the chain of strengths. -/
def rank : Strength → Nat
  | .lr0 => 0
  | .lr05 => 1
  | .slr => 2
  | .lalr => 3
  | .lr1 => 4

/-- Whether items carry lookahead sets of their own. -/
def usesLookahead (s : Strength) : Bool :=
  decide (lalr.rank ≤ s.rank)

/-- The name of a strength. -/
def name : Strength → String
  | .lr0 => "LR0"
  | .lr05 => "LR05"
  | .slr => "SLR"
  | .lalr => "LALR"
  | .lr1 => "LR1"

/-- The strength of a name, in any mixture of cases. -/
def ofName? (name : String) : Option Strength :=
  match String.ofList (name.toList.map Char.toLower) with
  | "lr0" => some .lr0
  | "lr05" | "lr0.5" => some .lr05
  | "slr" => some .slr
  | "lalr" => some .lalr
  | "lr1" => some .lr1
  | _ => none

/-- The message about a name that is none. -/
def unknownMessage (name : String) : String :=
  s!"unknown strength `{name}`, expected one of LR0, LR05, SLR, LALR, LR1"

/-- The given strengths from the weakest to the strongest. -/
def sort (ss : List Strength) : List Strength :=
  ss.mergeSort fun a b => decide (a.rank ≤ b.rank)

end Strength

end LayoutLR
