/-
  Layout-aware LR toolkit — the items that come with an item.

  Where an item waits for a nonterminal, the productions of that nonterminal are
  waited for as well, and what may come after them is what may come after the
  nonterminal there.  The closure adds these items, and enlarges their lookahead
  sets, until nothing is missing.

  * `Basis`: a grammar with what an automaton of some strength knows about it;
  * `Basis.lookahead`: what may come after the productions of a nonterminal;
  * `Basis.closeAll`: the items to look at, one after the other, first come first
    served;
  * `Basis.closure`: the closure of items with lookahead sets.
-/
import LayoutLR.Automaton.Item
import LayoutLR.Automaton.Strength
import LayoutLR.Grammar.Analysis

namespace LayoutLR

/-- A grammar, and what an automaton of some strength knows about it. -/
structure Basis where
  grammar : Grammar
  strength : Strength
  /-- The beginnings of the symbols; empty below `SLR`. -/
  first : SymSets
  /-- What follows the symbols; only known at `SLR`. -/
  follow : SymSets
deriving Inhabited

namespace Basis

/-- What an automaton of the given strength knows about a grammar. -/
def of (g : Grammar) (strength : Strength) : Basis :=
  let first :=
    if Strength.slr.rank ≤ strength.rank then g.firstSets
    else Array.replicate g.symbols.size ∅
  { grammar := g, strength, first
    follow := if strength = .slr then g.followSets first else #[] }

/-- What may come after the productions of `sym`, where `item` waits for `sym` and `set`
    may come after `item`.  What is line-like ends before a line break by itself. -/
def lookahead (b : Basis) (item : Item) (sym : Nat) (set : SymSet) : SymSet :=
  if b.strength.usesLookahead then
    let (begin', empty) := b.grammar.firstOfSeq b.first (item.rest b.grammar)
    let after := if empty then begin'.union set else begin'
    if b.grammar.isLineLike sym then after.erase Kind.newline.num else after
  else ∅

end Basis

/-! ## Closing -/

/-- A closure in the making. -/
structure Closing where
  /-- The items with their lookahead sets, in order of discovery. -/
  items : List (Item × SymSet)
  /-- The items to look at, those with a new lookahead set included. -/
  queue : List Item

namespace Closing

/-- The lookahead set of an item. -/
def find? (c : Closing) (i : Item) : Option SymSet :=
  (c.items.find? fun e => e.1 == i).map Prod.snd

/-- Adds an item, or enlarges its lookahead set; if that changed anything, the item is to be
    looked at. -/
def add (c : Closing) (i : Item) (set : SymSet) : Closing :=
  match c.find? i with
  | none => ⟨c.items ++ [(i, set)], c.queue ++ [i]⟩
  | some old =>
    let new := old.union set
    if new.size = old.size then c
    else ⟨c.items.map fun e => if e.1 = i then (i, new) else e, c.queue ++ [i]⟩

end Closing

namespace Basis

/-- Looks at an item: adds the productions that it waits for. -/
def visit (b : Basis) (c : Closing) (i : Item) : Closing :=
  match i.next? b.grammar with
  | none => c
  | some sym =>
    if b.grammar.isNonterminal sym then
      let set := b.lookahead i sym ((c.find? i).getD ∅)
      (b.grammar.productionsOf sym).foldl (fun c p => c.add ⟨p, 0⟩ set) c
    else c

/-- Looks at the queued items until none is left, `steps` items at most. -/
def closeAll (b : Basis) : (steps : Nat) → Closing → Closing
  | 0, c => c
  | n + 1, c =>
    match c.queue with
    | [] => c
    | i :: queue => closeAll b n (b.visit { c with queue } i)

/-- The steps that are enough for a closure: each item is looked at when it is found and
    when a symbol is added to its set. -/
def closureSteps (b : Basis) (kernel : List (Item × SymSet)) : Nat :=
  (kernel.length + b.grammar.productions.size) * (b.grammar.symbols.size + 2)

/-- The items that come with the given ones, in order of discovery, with their lookahead
    sets. -/
def closure (b : Basis) (kernel : List (Item × SymSet)) : List (Item × SymSet) :=
  (b.closeAll (b.closureSteps kernel) ⟨kernel, kernel.map Prod.fst⟩).items

end Basis

end LayoutLR
