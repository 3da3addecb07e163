/-
  Layout-aware LR toolkit — parsing a whole input.

  A table may reduce for ever, so a run has a budget: the number of values that it
  may ask the actions for.  Every step takes a token or asks for a value, which
  bounds the number of steps by the input and the budget.

  * `Verdict`: how a run ends;
  * `Machine.runFor`: at most some number of steps;
  * `parse`: a run over a whole input.
-/
import LayoutLR.Parser.Machine

namespace LayoutLR

variable {σ V : Type}

/-- How a run ends. -/
inductive Verdict (V : Type) where
  /-- With the value of the start symbol, or without one if there was no way to go on. -/
  | finished (value : Option V)
  /-- The table has no state of a number that it names. -/
  | broken
  /-- The budget is used up. -/
  | exhausted

/-- A run that ended. -/
structure Run (σ V : Type) where
  verdict : Verdict V
  /-- The parser as it was left. -/
  machine : Machine σ V

/-- The run that ends with the given verdict, unless the budget was exceeded before. -/
def Run.within (budget : Nat) (verdict : Verdict V) (m : Machine σ V) : Run σ V :=
  ⟨if budget < m.calls then .exhausted else verdict, m⟩

/-- Runs a parser for at most `steps` steps. -/
def Machine.runFor (t : Table) (acts : Actions σ V) (budget : Nat) :
    (steps : Nat) → Machine σ V → Run σ V
  | 0, m => ⟨.exhausted, m⟩
  | n + 1, m =>
    match m.step t acts with
    | .next m => if budget < m.calls then ⟨.exhausted, m⟩ else runFor t acts budget n m
    | .done value m => .within budget (.finished value) m
    | .broken m => .within budget .broken m

/-- Parses an input, asking the actions for at most `budget` values. -/
def parse (t : Table) (acts : Actions σ V) (memory : σ) (input : Input) (budget : Nat) : Run σ V :=
  (Machine.start t memory input).runFor t acts budget (input.tokens.length + budget + 2)

end LayoutLR
