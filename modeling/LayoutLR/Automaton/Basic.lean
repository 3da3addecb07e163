/-
  Layout-aware LR toolkit — the automaton of a grammar.

  The states of the automaton are sets of items.  From the state of the start
  production, states are processed until none is incomplete: the closure of a
  state is made, and for each symbol that some item waits for there is a
  transition to the state of the items with the dot behind it.  States with equal
  items are one; at `LALR` their lookahead sets are merged, which makes a state
  incomplete again if it grew, and at `LR1` equal sets are required as well.

  * `State`, `Automaton`: the data;
  * `Automaton.addState`: the state of some items, an old one if there is one;
  * `Automaton.process`: makes a state complete;
  * `Automaton.build`: the automaton of a grammar.
-/
import LayoutLR.Automaton.Closure
import LayoutLR.Sorted.Pool
import LayoutLR.Total

namespace LayoutLR

/-! ## States -/

/-- A state of an automaton. -/
structure State where
  /-- The items that the state was made from, with their lookahead sets. -/
  kernel : ItemMap Handle
  /-- The kernel and the items that come with it. -/
  closure : ItemMap Handle := ∅
  /-- The transitions. -/
  goTo : SortedMap Nat Nat := ∅
  /-- Whether the rest is up to date with the kernel. -/
  complete : Bool := false
  /-- The precedence of the production that can be reduced. -/
  precedence : Option Precedence := none
  /-- Whether some item waits for a line-like symbol. -/
  startsLine : Bool := false
  /-- The first position of the dot in the kernel, other than the start. -/
  minPrefix : Nat := 0
  /-- The production that can be reduced. -/
  reduce : Option Nat := none
deriving Inhabited

/-- The states of a grammar at some strength. -/
structure Automaton where
  basis : Basis
  states : Array State := #[]
  /-- The lookahead sets of all items. -/
  pool : Pool := .new
deriving Inhabited

namespace Automaton

/-- The grammar of an automaton. -/
abbrev grammar (a : Automaton) : Grammar :=
  a.basis.grammar

/-- The strength of an automaton. -/
abbrev strength (a : Automaton) : Strength :=
  a.basis.strength

/-- Changes a state. -/
def update (a : Automaton) (i : Nat) (f : State → State) : Automaton :=
  { a with states := a.states.modify i f }

/-- The set of a handle. -/
def set (a : Automaton) (h : Handle) : SymSet :=
  a.pool.get h

/-! ## Finding states -/

/-- Adds a set to the lookahead set of a kernel item; the flag tells whether a set of this
    state has grown so far. -/
def mergeItem (i : Nat) (r : Automaton × Bool) (e : Item × Handle) : Automaton × Bool :=
  let a := r.1
  match a.states[i]?.bind fun s => s.kernel.find? e.1 with
  | none => r
  | some old =>
    let merged := (a.set old).union (a.set e.2)
    if merged.size = (a.set old).size then r
    else
      let (h, pool) := a.pool.intern merged
      ({ a with pool }.update i fun s => { s with kernel := s.kernel.replace e.1 h }, true)

/-- Merges lookahead sets into those of a state, which has to be processed again if one of
    them grew. -/
def merge (a : Automaton) (i : Nat) (kernel : ItemMap Handle) : Automaton :=
  let (a, grown) := kernel.entries.foldl (mergeItem i) (a, false)
  if grown then a.update i fun s => { s with complete := false } else a

/-- Whether a state is the one of the given kernel at some strength. -/
def sameState (strength : Strength) (kernel : ItemMap Handle) (s : State) : Bool :=
  if strength = .lr1 then decide (s.kernel.entries = kernel.entries)
  else decide (s.kernel.keys = kernel.keys)

/-- The state of the given kernel, a new one if there is none. -/
def addState (a : Automaton) (kernel : ItemMap Handle) : Nat × Automaton :=
  match a.states.findIdx? (sameState a.strength kernel) with
  | some i => (i, if a.strength = .lalr then a.merge i kernel else a)
  | none => (a.states.size, { a with states := a.states.push { kernel } })

/-! ## Processing states -/

/-- Gives the lookahead sets of a closure their handles. -/
def internItems (items : List (Item × SymSet)) (pool : Pool) : ItemMap Handle × Pool :=
  items.foldl (fun (m, pool) e =>
    let (h, pool) := pool.intern e.2
    (m.insert e.1 h, pool)) (∅, pool)

/-- The production that a state reduces: the one with the longest body, the first of those
    in item order. -/
def reduction (g : Grammar) (closure : List Item) : Option Nat :=
  (closure.filter fun i => (i.next? g).isNone).foldl (fun best i =>
    match best with
    | some p => if (g.body i.prod).length ≤ (g.body p).length then some p else some i.prod
    | none => some i.prod) none

/-- The symbols that some item waits for. -/
def nextSymbols (g : Grammar) (closure : List Item) : List Nat :=
  (SymSet.ofKeys (closure.filterMap fun i => i.next? g)).keys

/-- Whether precedence rules a transition out: the production that can be reduced wins over
    the terminal. -/
def suppressed (g : Grammar) (reduce : Option Precedence) (sym : Nat) : Bool :=
  match reduce, g.precedenceOf sym with
  | some r, some s => g.isTerminal sym && !s.allowsShiftOver r
  | _, _ => false

/-- The kernel behind a transition. -/
def target (g : Grammar) (closure : ItemMap Handle) (sym : Nat) : ItemMap Handle :=
  SortedMap.ofList ((closure.entries.filter fun e => e.1.next? g == some sym).map fun e =>
    (e.1.advance, e.2))

/-- The first position of the dot in some items, other than the start; zero if there is
    none. -/
def leastDot (items : List Item) : Nat :=
  ((items.map Item.dot).filter (0 < ·)).min?.getD 0

/-- Adds the transition on a symbol. -/
def addTransition (closure : ItemMap Handle) (r : Automaton × SortedMap Nat Nat) (sym : Nat) :
    Automaton × SortedMap Nat Nat :=
  let (i, a) := r.1.addState (target r.1.grammar closure sym)
  (a, r.2.insert sym i)

/-- Makes a state complete. -/
def process (a : Automaton) (i : Nat) : Automaton :=
  let g := a.grammar
  let kernel := (a.states[i]?.getD default).kernel
  let items := a.basis.closure (kernel.entries.map fun e => (e.1, a.set e.2))
  let (closure, pool) := internItems items a.pool
  let reduce := reduction g closure.keys
  let precedence := reduce.bind fun p => g.productions[p]?.bind Production.precedence
  let symbols := nextSymbols g closure.keys
  let a := { a with pool }.update i fun s => { s with complete := true }
  let (a, goTo) := (symbols.filter fun s => !suppressed g precedence s).foldl
    (addTransition closure) (a, ∅)
  a.update i fun s =>
    { s with
      closure, goTo, precedence, reduce
      startsLine := symbols.any g.isLineLike
      minPrefix := leastDot kernel.keys }

/-! ## Building -/

/-- The first state that has to be processed. -/
def incomplete? (a : Automaton) : Option Nat :=
  a.states.findIdx? fun s => !s.complete

/-- Processes states until all are complete, `steps` states at most. -/
def completeAll : (steps : Nat) → Automaton → Automaton
  | 0, a => a
  | n + 1, a =>
    match a.incomplete? with
    | none => a
    | some i => completeAll n (a.process i)

/-- The number of items of a grammar. -/
def itemCount (g : Grammar) : Nat :=
  total (g.productions.toList.map fun p => p.body.length + 1)

/-- The steps that are enough to complete every state: there is at most one for each way to
    give lookahead sets to some of the items. -/
def buildSteps (g : Grammar) : Nat :=
  Nat.pow 2 (itemCount g * (g.symbols.size + 2))

/-- The automaton with the state of the start production alone. -/
def initial (b : Basis) : Automaton :=
  (({ basis := b } : Automaton).addState (SortedMap.ofList [(⟨0, 0⟩, Pool.emptyHandle)])).2

/-- The automaton of a grammar. -/
def build (g : Grammar) (strength : Strength) : Automaton :=
  completeAll (buildSteps g) (initial (.of g strength))

/-! ## Lookahead -/

/-- The tokens before which a complete item is reduced, `h` being its lookahead set. -/
def reduceLookahead (a : Automaton) (i : Item) (h : Handle) : SymSet :=
  if a.strength = .slr then a.basis.follow.of (a.grammar.head i.prod) else a.set h

end Automaton

end LayoutLR
