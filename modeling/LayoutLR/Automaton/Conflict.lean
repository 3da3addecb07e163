/-
  Layout-aware LR toolkit — conflicts of an automaton.

  A state with a complete item has a conflict where a token could be shifted as
  well, unless precedence settles it, and where another complete item could be
  reduced.  Without lookahead, this concerns the state as a whole; with
  lookahead, single tokens.

  * `Automaton.conflicts`: all conflicts in order;
  * `Automaton.describe`: a conflict with the items that it is about.
-/
import LayoutLR.Automaton.Basic

namespace LayoutLR

/-- What a conflict is between. -/
inductive ConflictKind where
  | shiftReduce
  | reduceReduce
deriving DecidableEq, Repr

/-- The name of a kind of conflict. -/
def ConflictKind.name : ConflictKind → String
  | .shiftReduce => "shift/reduce"
  | .reduceReduce => "reduce/reduce"

/-- A conflict of a state. -/
structure Conflict where
  kind : ConflictKind
  state : Nat
  /-- The token that it is about; `none` if it is about the state as a whole. -/
  lookahead : Option Nat
  /-- The productions that could be reduced. -/
  productions : List Nat
deriving DecidableEq, Repr

namespace Automaton

/-- Whether precedence settles reducing a production against shifting a symbol. -/
def resolved (g : Grammar) (prod sym : Nat) : Bool :=
  (g.productions[prod]?.bind Production.precedence).isSome && (g.precedenceOf sym).isSome

/-- The complete items of a state with their lookahead sets. -/
def completeItems (g : Grammar) (s : State) : List (Item × Handle) :=
  s.closure.entries.filter fun e => e.1.isComplete g

/-! ## Finding conflicts -/

/-- The conflicts of a state as a whole; `shifts` tells whether shifting counts. -/
def plainConflicts (g : Grammar) (shifts : Bool) (i : Nat) (s : State) : List Conflict :=
  let prods := (completeItems g s).map fun e => e.1.prod
  let shift := shifts && s.goTo.keys.any fun sym =>
    g.isTerminal sym && !prods.all fun p => resolved g p sym
  (if shift && !prods.isEmpty then [⟨.shiftReduce, i, none, prods⟩] else []) ++
  (if 1 < prods.length then [⟨.reduceReduce, i, none, prods⟩] else [])

/-- The conflicts of reducing `prod` before `sym`, where `claimed` lists the tokens that
    earlier items are reduced before. -/
def tokenConflicts (g : Grammar) (i : Nat) (s : State) (claimed : List (Nat × Nat))
    (prod sym : Nat) : List Conflict :=
  (if sym ≠ Kind.newline.num ∧ s.goTo.contains sym = true ∧ resolved g prod sym = false then
    [⟨.shiftReduce, i, some sym, [prod]⟩] else []) ++
  (match claimed.lookup sym with
    | some other => [⟨.reduceReduce, i, some sym, [other, prod]⟩]
    | none => [])

/-- The conflicts of the given complete items, each with the tokens that it is reduced
    before. -/
def lookaheadConflicts (g : Grammar) (i : Nat) (s : State) (claimed : List (Nat × Nat)) :
    List (Nat × List Nat) → List Conflict
  | [] => []
  | (prod, syms) :: rest =>
    syms.flatMap (tokenConflicts g i s claimed prod) ++
      lookaheadConflicts g i s (claimed ++ syms.map fun sym => (sym, prod)) rest

/-- The conflicts of a state. -/
def stateConflicts (a : Automaton) (i : Nat) (s : State) : List Conflict :=
  match a.strength with
  | .lr0 => plainConflicts a.grammar true i s
  | .lr05 => plainConflicts a.grammar false i s
  | .slr | .lalr | .lr1 =>
    lookaheadConflicts a.grammar i s [] ((completeItems a.grammar s).map fun e =>
      (e.1.prod, (a.reduceLookahead e.1 e.2).keys))

/-- All conflicts, state by state. -/
def conflicts (a : Automaton) : List Conflict :=
  (a.states.mapIdx a.stateConflicts).toList.flatten

/-! ## Describing conflicts -/

/-- The lookahead set of a complete item as text, where items have one. -/
def lookaheadText (a : Automaton) (i : Item) (h : Handle) : String :=
  if a.strength.usesLookahead && i.isComplete a.grammar then
    " LA \x7b" ++ ", ".intercalate ((a.set h).keys.map a.grammar.name) ++ "\x7d"
  else ""

/-- Whether a conflict is about an item of its state. -/
def involves (g : Grammar) (c : Conflict) (i : Item) : Bool :=
  match i.next? g with
  | none => c.productions.contains i.prod
  | some sym => c.kind == .shiftReduce && match c.lookahead with
    | some lookahead => sym == lookahead
    | none => g.isTerminal sym

/-- A line that names the conflict, then the items that it is about. -/
def describe (a : Automaton) (c : Conflict) : String :=
  let g := a.grammar
  let items := ((a.states[c.state]?.map fun s => s.closure.entries).getD []).filter fun e =>
    involves g c e.1
  s!"{c.kind.name} conflict in state {c.state}" ++
    (c.lookahead.map fun sym => s!" on {g.name sym}").getD "" ++
    String.join (items.map fun e => "\n    " ++ e.1.text g ++ a.lookaheadText e.1 e.2)

end Automaton

end LayoutLR
