/-
  Layout-aware LR toolkit — parse trees.

  The simplest semantic actions keep everything: a token becomes a leaf, an error
  a leaf of its own, a production a node above the trees of its body.

  * `Tree`: a parse tree;
  * `treeActions`: the actions that build it, and remember errors and trees that
    were given up;
  * `Tree.text`: a tree in parentheses.
-/
import LayoutLR.Parser.Run

namespace LayoutLR

/-- A parse tree. -/
inductive Tree where
  | leaf (token : Token)
  /-- The error number `n`, from one. -/
  | error (n : Nat) (token : Token)
  | node (prod : Nat) (children : List Tree)

/-- What building trees leaves behind, newest first. -/
structure TreeMemory where
  /-- The tokens at which there was an error. -/
  errors : List Token := []
  /-- The trees that were given up. -/
  disposed : List Tree := []

/-- The actions that build trees. -/
def treeActions : Actions TreeMemory Tree where
  token mem t := (.leaf t, mem)
  reduce mem prod body := (.node prod body, mem)
  error mem t := (.error (mem.errors.length + 1) t, { mem with errors := t :: mem.errors })
  dispose mem tree := { mem with disposed := tree :: mem.disposed }

/-- The text of a leaf: that of its token, or the kind of the token if it has none. -/
def Token.leafText (t : Token) : String :=
  if t.text.isEmpty then t.kind.display else String.ofList t.text

/-- How the nodes of a tree are labelled. -/
structure TreeStyle where
  /-- The label of a production. -/
  node : Nat → String
  /-- The text of the error of some number. -/
  error : Nat → String

mutual

/-- The tree in parentheses. -/
def Tree.text (style : TreeStyle) : Tree → String
  | .leaf t => t.leafText
  | .error n _ => style.error n
  | .node prod children => "(" ++ style.node prod ++ Tree.texts style children ++ ")"

/-- Trees in parentheses, each after a space. -/
def Tree.texts (style : TreeStyle) : List Tree → String
  | [] => ""
  | t :: rest => " " ++ t.text style ++ Tree.texts style rest

end

/-- Nodes show the head of their production, errors the error symbol. -/
def Grammar.plainStyle (g : Grammar) : TreeStyle where
  node p := g.name (g.head p)
  error _ := "ERROR"

/-- Nodes show a head and the number of the production, errors their own number. -/
def numberedStyle (head : Nat → String) : TreeStyle where
  node p := s!"{head p}#{p}"
  error n := s!"!{n}"

end LayoutLR
