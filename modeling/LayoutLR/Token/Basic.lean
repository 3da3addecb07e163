/-
  Layout-aware LR toolkit — tokens and the categories that can be dropped.

  Every kind of token has a number, which is also the number of its symbol in a
  grammar: the twelve predefined kinds come first, then the known words and
  marks in the order of their table.

  * `Kind.num` and `Kind.ofNum` go back and forth between kinds and numbers;
  * `Token.display`: a token in a message;
  * `Ignored`: the categories that are dropped before a token is handed out.
-/
import LayoutLR.Text.Quoted

namespace LayoutLR

/-! ## Kinds -/

/-- The kind of a token. -/
inductive Kind where
  /-- Text that is no token. -/
  | error
  | number
  | word
  /-- A run of marks that is not known. -/
  | mark
  | string
  /-- Lines between two lines of three quotes. -/
  | multiString
  | lineComment
  | blockComment
  /-- A line that is further in than the one before. -/
  | indent
  /-- The end of an indented level. -/
  | outdent
  | newline
  | eof
  /-- An entry of the table of known words and marks. -/
  | reserved (index : Nat)
deriving DecidableEq, Repr, Inhabited

namespace Kind

/-- The kinds with a number of their own, in the order of the numbers. -/
def predefined : List Kind :=
  [.error, .number, .word, .mark, .string, .multiString, .lineComment, .blockComment,
    .indent, .outdent, .newline, .eof]

/-- The number of the first known word or mark. -/
def reservedBase : Nat := 12

/-- The symbol number of a kind. -/
def num : Kind → Nat
  | .error => 0
  | .number => 1
  | .word => 2
  | .mark => 3
  | .string => 4
  | .multiString => 5
  | .lineComment => 6
  | .blockComment => 7
  | .indent => 8
  | .outdent => 9
  | .newline => 10
  | .eof => 11
  | .reserved i => reservedBase + i

/-- The kind with the given symbol number. -/
def ofNum (n : Nat) : Kind :=
  predefined[n]?.getD (.reserved (n - reservedBase))

/-- The name of a predefined kind in grammars. -/
def name? : Kind → Option String
  | .error => some "ERROR"
  | .number => some "NUMBER"
  | .word => some "IDENTIFIER"
  | .mark => some "MARK"
  | .string => some "STRING"
  | .multiString => some "MULTI_STRING"
  | .lineComment => some "LINE_COMMENT"
  | .blockComment => some "BLOCK_COMMENT"
  | .indent => some "IN"
  | .outdent => some "OUT"
  | .newline => some "NEWLINE"
  | .eof => some "$eof"
  | .reserved _ => none

/-- The kind in a message. -/
def display (k : Kind) : String :=
  k.name?.getD s!"RESERVED({k.num - reservedBase})"

/-- Whether tokens of this kind stand for indentation and line ends. -/
def isLayout : Kind → Bool
  | .indent | .outdent | .newline => true
  | _ => false

@[simp]
theorem ofNum_num (k : Kind) : ofNum k.num = k := by
  cases k <;> simp [num, ofNum, predefined, reservedBase]

theorem num_inj {k k' : Kind} (h : k.num = k'.num) : k = k' := by
  rw [← ofNum_num k, h, ofNum_num]

theorem num_ofNum (n : Nat) : (ofNum n).num = n := by
  by_cases h : n < 12
  · revert h
    revert n
    decide
  · have : predefined[n]? = none := by simp [predefined]; omega
    simp [ofNum, this, num, reservedBase]
    omega

end Kind

/-! ## Tokens -/

/-- A token with the place where it starts. -/
structure Token where
  kind : Kind
  text : List Char
  /-- The run of code that the token was read from. -/
  node : Nat
  /-- The bytes of that run in front of the token. -/
  offset : Nat
  line : Nat
  col : Nat
deriving DecidableEq, Repr, Inhabited

/-- A token without text. -/
def Token.synthetic (kind : Kind) (line col : Nat) : Token :=
  ⟨kind, [], 0, 0, line, col⟩

/-- The token in a message: its place, its kind and its text between quotes. -/
def Token.display (t : Token) : String :=
  s!"{t.line}:{t.col} {t.kind.display}" ++
    (if t.text.isEmpty then "" else " " ++ Text.quote t.text)

/-! ## Ignored categories -/

/-- The categories of tokens that are dropped.  Unknown marks are never dropped:
    they turn into errors of one character. -/
structure Ignored where
  number : Bool := false
  word : Bool := false
  mark : Bool := false
  string : Bool := false
  multiString : Bool := false
  lineComment : Bool := false
  blockComment : Bool := false
  indent : Bool := false
  outdent : Bool := false
  newline : Bool := false
deriving DecidableEq, Repr, Inhabited

namespace Ignored

/-- Whether a kind of token is dropped. -/
def covers (i : Ignored) : Kind → Bool
  | .number => i.number
  | .word => i.word
  | .mark => i.mark
  | .string => i.string
  | .multiString => i.multiString
  | .lineComment => i.lineComment
  | .blockComment => i.blockComment
  | .indent => i.indent
  | .outdent => i.outdent
  | .newline => i.newline
  | .error | .eof | .reserved _ => false

/-- Every category by name, and whether it is dropped. -/
def flags (i : Ignored) : List (String × Bool) :=
  [("NUMBER", i.number), ("IDENT", i.word), ("MARK", i.mark), ("STRING", i.string),
    ("MULTI_STRING", i.multiString), ("LINE_COMMENT", i.lineComment),
    ("BLOCK_COMMENT", i.blockComment), ("IN", i.indent), ("OUT", i.outdent),
    ("NEWLINE", i.newline)]

/-- The names of the dropped categories. -/
def names (i : Ignored) : List String :=
  (i.flags.filter Prod.snd).map Prod.fst

/-- The dropped categories as a number, one bit each. -/
def bits (i : Ignored) : Nat :=
  i.flags.foldr (fun f n => 2 * n + f.2.toNat) 0

/-- Drops one more category, or one of the groups `LAYOUT` and `COMMENTS`. -/
def addName? (i : Ignored) : String → Option Ignored
  | "NUMBER" => some { i with number := true }
  | "IDENT" => some { i with word := true }
  | "MARK" => some { i with mark := true }
  | "STRING" => some { i with string := true }
  | "MULTI_STRING" => some { i with multiString := true }
  | "LINE_COMMENT" => some { i with lineComment := true }
  | "BLOCK_COMMENT" => some { i with blockComment := true }
  | "IN" => some { i with indent := true }
  | "OUT" => some { i with outdent := true }
  | "NEWLINE" => some { i with newline := true }
  | "LAYOUT" => some { i with indent := true, outdent := true, newline := true }
  | "COMMENTS" => some { i with lineComment := true, blockComment := true }
  | _ => none

/-- The categories of the given names. -/
def ofNames? (names : List String) : Option Ignored :=
  names.foldlM addName? {}

/-- Comments of both kinds. -/
def comments : Ignored :=
  { lineComment := true, blockComment := true }

end Ignored

end LayoutLR
