/-
  Layout-aware LR toolkit — what the symbols of a grammar derive.

  Each analysis is the least solution of a few rules.  It is found by applying
  the rules to all productions in turn, over and over, until a round adds
  nothing.

  * `settle`: rounds until nothing grows;
  * `markSymbols`: which symbols derive the empty text, and which are the line
    break or derive one;
  * `assemble`: a grammar of its symbols and productions;
  * `firstSets`, `firstOfSeq`: the terminals that can begin what a symbol or a
    sequence derives;
  * `followSets`: the terminals that can come right after a symbol, found in two phases: inside
    bodies, then at their ends.
-/
import LayoutLR.Grammar.Basic
import LayoutLR.Sorted.Map
import LayoutLR.Total

namespace LayoutLR

/-- Repeats `round` until `measure` stays the same, `rounds` times at most. -/
def settle {α : Type} (measure : α → Nat) (round : α → α) : (rounds : Nat) → α → α
  | 0, a => a
  | n + 1, a =>
    let b := round a
    if measure b = measure a then b else settle measure round n b

/-- A set for each symbol. -/
abbrev SymSets := Array SymSet

namespace SymSets

/-- The set of a symbol. -/
def of (sets : SymSets) (s : Nat) : SymSet :=
  sets[s]?.getD ∅

/-- Adds to the set of a symbol. -/
def grow (sets : SymSets) (s : Nat) (more : SymSet) : SymSets :=
  sets.modify s fun set => set.union more

/-- Adds the set of `s'` to the set of `s`. -/
def growFrom (sets : SymSets) (s s' : Nat) : SymSets :=
  if s = s' then sets else sets.grow s (sets.of s')

/-- The number of members of all sets together. -/
def memberCount (sets : SymSets) : Nat :=
  total (sets.toList.map SortedMap.size)

end SymSets

namespace Grammar

variable (g : Grammar)

/-! ## Empty text and line breaks -/

/-- One round of a rule that puts heads into a set, depending on their bodies. -/
def headRound (rule : SymSet → List Nat → Bool) (s : SymSet) : SymSet :=
  g.productions.foldl (fun s p => if rule s p.body then s.add p.head else s) s

/-- The symbols that derive the empty text: the heads of bodies that are made of such
    symbols only. -/
def nullableSymbols : SymSet :=
  settle SortedMap.size (g.headRound fun s body => body.all s.contains)
    (g.productions.size + 1) ∅

/-- The line break, and the heads of bodies that hold a symbol of this set. -/
def lineLikeSymbols : SymSet :=
  settle SortedMap.size (g.headRound fun s body => body.any s.contains)
    (g.productions.size + 1) (SymSet.ofKeys [Kind.newline.num])

/-- Marks the symbols that derive the empty text, and those that are the line break or
    derive one. -/
def markSymbols : Grammar :=
  let nullable := g.nullableSymbols
  let lineLike := g.lineLikeSymbols
  { g with
    symbols := g.symbols.mapIdx fun i s =>
      { s with nullable := nullable.contains i, lineLike := lineLike.contains i } }

/-- The grammar of numbered symbols and productions. -/
def assemble (symbols : Array Symbol) (productions : Array Production) : Grammar :=
  let bare : Grammar := { symbols, productions, byHead := Array.replicate symbols.size [] }
  (bare.enterAll 0 productions.toList).markSymbols

/-! ## Beginnings -/

/-- The terminals that can begin what a sequence derives, and whether it derives the empty
    text. -/
def firstOfSeq (first : SymSets) : List Nat → SymSet × Bool
  | [] => (∅, true)
  | s :: rest =>
    if g.isNullable s then
      let (set, empty) := firstOfSeq first rest
      ((first.of s).union set, empty)
    else (first.of s, false)

/-- The sets of the terminals alone: each begins itself. -/
def terminalSets : SymSets :=
  (g.symbols.toList.filter fun s => s.kind == .terminal).foldl
    (fun sets s => sets.modify s.num fun set => set.add s.num)
    (Array.replicate g.symbols.size ∅)

/-- The rounds that are enough for all sets to be complete. -/
def setRounds : Nat :=
  g.symbols.size * g.symbols.size + 1

/-- The terminals that can begin what each symbol derives: a head begins like its
    bodies. -/
def firstSets : SymSets :=
  settle SymSets.memberCount
    (fun first => g.productions.foldl
      (fun first p => first.grow p.head (g.firstOfSeq first p.body).1) first)
    g.setRounds g.terminalSets

/-! ## Neighbours -/

/-- What can follow the symbols of a body inside of it: the beginning of the rest. -/
def followInside (first : SymSets) : List Nat → SymSets → SymSets
  | [], follow => follow
  | s :: rest, follow => followInside first rest (follow.grow s (g.firstOfSeq first rest).1)

/-- What can follow the end of a body: what follows the head comes behind each symbol, the last
    one first, up to one that does not derive the empty text. -/
def followEnd (head : Nat) : List Nat → SymSets → SymSets
  | [], follow => follow
  | s :: before, follow =>
    let follow := follow.growFrom s head
    if g.isNullable s then followEnd head before follow else follow

/-- What follows the symbols inside of the bodies. -/
def followsInside (first : SymSets) : SymSets :=
  g.productions.foldl (fun follow p => g.followInside first p.body follow)
    (Array.replicate g.symbols.size ∅)

/-- One round of what follows the symbols at the ends of the bodies. -/
def followRound (follow : SymSets) : SymSets :=
  g.productions.foldl (fun follow p => g.followEnd p.head p.body.reverse follow) follow

/-- The terminals that can come right after each symbol. -/
def followSets (first : SymSets) : SymSets :=
  settle SymSets.memberCount g.followRound g.setRounds (g.followsInside first)

end Grammar

end LayoutLR
