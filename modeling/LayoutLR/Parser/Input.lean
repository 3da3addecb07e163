/-
  Layout-aware LR toolkit — what a parser reads, and what it does with it.

  * `Input`: tokens, with the token at the end given out for ever after them;
  * `Actions`: how values are made from tokens and from the values of a body, and
    what becomes of values that are not used;  the actions carry a memory of
    their own along.
-/
import LayoutLR.Token.Scanner

namespace LayoutLR

/-- Tokens to come; after them the end is met again and again. -/
structure Input where
  tokens : List Token
  endLine : Nat
  endCol : Nat
deriving Repr

namespace Input

/-- The token at the end. -/
def eof (i : Input) : Token :=
  .synthetic .eof i.endLine i.endCol

/-- The next token. -/
def next (i : Input) : Token × Input :=
  match i.tokens with
  | [] => (i.eof, i)
  | t :: rest => (t, { i with tokens := rest })

/-- Tokens without a text around them: each is on a line of its own. -/
def ofList (tokens : List (Kind × List Char)) : Input where
  tokens := tokens.mapIdx fun i (kind, text) => { Token.synthetic kind (i + 1) 0 with text }
  endLine := tokens.length + 1
  endCol := 0

/-- The tokens of a scanner. -/
def ofTokens (tokens : List Token) : Input where
  tokens := tokens.dropLast
  endLine := (tokens.getLast?.map Token.line).getD 1
  endCol := (tokens.getLast?.map Token.col).getD 0

end Input

/-- Semantic actions with values in `V` and a memory in `σ`. -/
structure Actions (σ V : Type) where
  /-- The value of a token that was shifted. -/
  token : σ → Token → V × σ
  /-- The value of the head of a production, from the values of its body. -/
  reduce : σ → Nat → List V → V × σ
  /-- The value of an error at a token. -/
  error : σ → Token → V × σ
  /-- Takes a value that is not used. -/
  dispose : σ → V → σ

/-- Takes several values that are not used. -/
def Actions.disposeAll {σ V : Type} (acts : Actions σ V) (mem : σ) (values : List V) : σ :=
  values.foldl acts.dispose mem

end LayoutLR
