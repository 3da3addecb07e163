/-
  Layout-aware LR toolkit — precedences of operators.

  A precedence is a level, counted from one in the order of declaration, with an
  associativity.  `Precedence.allowsShiftOver` settles a terminal against a
  production that could be reduced instead.
-/

namespace LayoutLR

/-- How operators of one level group. -/
inductive Assoc where
  | left
  | right
  | non
deriving DecidableEq, Repr, Inhabited

/-- The associativity that a keyword names. -/
def Assoc.ofKeyword? : String → Option Assoc
  | "LEFT" => some .left
  | "RIGHT" => some .right
  | "NON" => some .non
  | _ => none

/-- The keyword of an associativity. -/
def Assoc.keyword : Assoc → String
  | .left => "LEFT"
  | .right => "RIGHT"
  | .non => "NON"

/-- A level with its associativity. -/
structure Precedence where
  level : Nat
  assoc : Assoc
deriving DecidableEq, Repr, Inhabited

/-- Whether a terminal of precedence `p` may be shifted where a production of
    precedence `reduce` could be reduced. -/
def Precedence.allowsShiftOver (p reduce : Precedence) : Bool :=
  decide (reduce.level < p.level) || (p.level == reduce.level && p.assoc == .right)

/-- The precedence in a report. -/
def Precedence.display (p : Precedence) : String :=
  s!"{p.level}:{p.assoc.keyword}"

end LayoutLR
