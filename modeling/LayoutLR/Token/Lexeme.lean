/-
  Layout-aware LR toolkit — the text of a single token.

  At a visible character, the kind of the next token and its length depend on
  the characters that follow and on the configuration only.  Each rule below
  tells how many characters belong to the token beyond the first one, so every
  token takes at least one character.

  * `Config`: what words, numbers and marks are made of, and what is known;
  * `comment?`, `numberMore`, `stringMore`, `multiStringMore`, `markLexeme`: the
    rules for the single kinds;
  * `lexeme`: the kind and the length of the token that starts here.
-/
import LayoutLR.Token.Basic
import LayoutLR.Text.Measure

namespace LayoutLR

open Text

/-! ## Configuration -/

/-- How text is cut into tokens. -/
structure Config where
  /-- The categories that are dropped. -/
  ignored : Ignored := {}
  /-- Characters that may start a word, besides letters and the underscore. -/
  wordStart : List Char := []
  /-- Characters that may continue a word, besides those that start one and numerals. -/
  wordMore : List Char := []
  /-- The known words and marks, sorted by bytes. -/
  known : Array (List Char) := #[]
  /-- Characters that may stand inside numbers, besides letters and numerals. -/
  numberChars : List Char := ['.', '_', '+', '-']
deriving Inhabited

namespace Config

/-- The position of a text in the table of known words and marks. -/
def lookup (cfg : Config) (text : List Char) : Option Nat :=
  search cfg.known text

/-- The length of the longest known text. -/
def longest (cfg : Config) : Nat :=
  cfg.known.foldl (fun n text => max n text.length) 0

/-- Whether a character starts a word. -/
def startsWord (cfg : Config) (c : Char) : Bool :=
  isLetter c || c == '_' || cfg.wordStart.contains c

/-- Whether a character continues a word. -/
def continuesWord (cfg : Config) (c : Char) : Bool :=
  isWordChar c || c == '_' || cfg.wordStart.contains c || cfg.wordMore.contains c

/-- Whether a character is one of the three quotes. -/
def isQuote (c : Char) : Bool :=
  c == '\x27' || c == '\x22' || c == '\x60'

/-- Whether a character belongs to marks: it is visible, and it is no part of words,
    numbers and strings. -/
def isMark (cfg : Config) (c : Char) : Bool :=
  !isBlank c && !isControl c && !isWordChar c && c != '_' && !cfg.wordStart.contains c &&
    !isQuote c

/-- Whether `#` starts a comment, which it does unless a known mark begins with it. -/
def hashComments (cfg : Config) : Bool :=
  !cfg.known.any fun known => known.head? == some '#'

end Config

/-! ## Comments -/

/-- The kind and the length of the rest of a block comment; one without an end is an
    error. -/
def blockCommentMore : List Char → Kind × Nat
  | [] => (.error, 0)
  | '*' :: '/' :: _ => (.blockComment, 2)
  | _ :: cs =>
    let (kind, n) := blockCommentMore cs
    (kind, n + 1)

/-- The comment that starts with `c`, if one does: its kind and the number of
    characters after `c`. -/
def comment? (cfg : Config) (c : Char) (cs : List Char) : Option (Kind × Nat) :=
  if c = '/' ∧ cs.head? = some '/' ∨ c = '#' ∧ cfg.hashComments = true then
    some (.lineComment, (cs.takeWhile (· != '\n')).length)
  else if c = '/' ∧ cs.head? = some '*' then
    let (kind, n) := blockCommentMore cs.tail
    some (kind, n + 1)
  else none

/-- Whether a comment starts at this place. -/
def commentAhead (cfg : Config) : List Char → Bool
  | '/' :: '/' :: _ => true
  | '/' :: '*' :: _ => true
  | '#' :: _ => cfg.hashComments
  | _ => false

/-! ## Numbers and strings -/

/-- The number of characters that continue a number.  A point or comma may come once
    and before a digit only, a sign only right after one of the letters `exponents`. -/
def numberMore (cfg : Config) (exponents : List Char) (seenPoint afterExponent : Bool) :
    List Char → Nat
  | [] => 0
  | c :: cs =>
    if isWordChar c then
      numberMore cfg exponents seenPoint (exponents.contains c) cs + 1
    else if !cfg.numberChars.contains c then 0
    else if c = '.' ∨ c = ',' then
      if seenPoint then 0
      else if (cs.head?.map Char.isDigit).getD false then
        numberMore cfg exponents true false cs + 1
      else 0
    else if c = '+' ∨ c = '-' then
      if afterExponent then numberMore cfg exponents seenPoint false cs + 1 else 0
    else numberMore cfg exponents seenPoint false cs + 1

/-- The number of characters that belong to a number after its first digit; after `0x`
    exponents are marked by `p` in place of `e`. -/
def numberLength (cfg : Config) (digit : Char) (cs : List Char) : Nat :=
  if digit = '0' ∧ (cs.head? = some 'x' ∨ cs.head? = some 'X') then
    numberMore cfg ['p', 'P'] false false cs.tail + 1
  else numberMore cfg ['e', 'E'] false false cs

/-- The kind and the length of the rest of a string; one that its line does not close is
    an error. -/
def stringMore (quote : Char) : List Char → Kind × Nat
  | [] => (.error, 0)
  | c :: cs =>
    if c = '\n' then (.error, 0)
    else if c = '\\' then
      match cs with
      | [] => (.error, 1)
      | d :: ds =>
        if d = '\n' then (.error, 1)
        else
          let (kind, n) := stringMore quote ds
          (kind, n + 2)
    else if c = quote then (.string, 1)
    else
      let (kind, n) := stringMore quote cs
      (kind, n + 1)

/-- Whether three quotes stand at this place. -/
def tripleAhead (quote : Char) : List Char → Bool
  | a :: b :: c :: _ => a == quote && b == quote && c == quote
  | _ => false

/-- The kind and the length of the rest of a multi-line string, which a line that starts
    with three quotes ends; `fresh` at the start of a line. -/
def multiStringMore (quote : Char) (fresh : Bool) : List Char → Kind × Nat
  | [] => (.error, 0)
  | c :: cs =>
    let blanks := ((c :: cs).takeWhile fun d => d == ' ' || d == '\t').length
    if fresh && tripleAhead quote ((c :: cs).drop blanks) then (.multiString, blanks + 3)
    else
      let (kind, n) := multiStringMore quote (c == '\n') cs
      (kind, n + 1)

/-- The string that the quote opens: a multi-line one if three quotes are all that the
    line holds from here, and they come first on it. -/
def stringLexeme (lineFirst : Bool) (quote : Char) (cs : List Char) : Kind × Nat :=
  if lineFirst && tripleAhead quote (quote :: cs) && (cs.drop 2).head? == some '\n' then
    let (kind, n) := multiStringMore quote true (cs.drop 3)
    (kind, n + 3)
  else stringMore quote cs

/-! ## Marks -/

/-- The marks that continue a run of marks; the run ends before a comment. -/
def markRun (cfg : Config) : List Char → List Char
  | [] => []
  | c :: cs => if cfg.isMark c && !commentAhead cfg (c :: cs) then c :: markRun cfg cs else []

/-- The longest known text in front of a run of marks: its position in the table and its
    length.  No known text is longer than `longest`, so longer prefixes need no look. -/
def knownPrefix? (cfg : Config) (run : List Char) : Option (Nat × Nat) :=
  (List.range (min run.length cfg.longest)).reverse.findSome? fun n =>
    (cfg.lookup (run.take (n + 1))).map fun i => (i, n + 1)

/-- The length of an unknown mark: it ends where a known one begins. -/
def unknownLength (cfg : Config) : List Char → Nat
  | [] => 0
  | _ :: cs => if (knownPrefix? cfg cs).isSome then 1 else unknownLength cfg cs + 1

/-- The mark that starts with `c`: the longest known one, else an unknown one, which is an
    error of one character where unknown marks are not wanted. -/
def markLexeme (cfg : Config) (c : Char) (cs : List Char) : Kind × Nat :=
  let run := c :: markRun cfg cs
  match knownPrefix? cfg run with
  | some (i, n) => (.reserved i, n - 1)
  | none => if cfg.ignored.mark then (.error, 0) else (.mark, unknownLength cfg run - 1)

/-! ## Lexemes -/

/-- The word that starts with `c`, known or not. -/
def wordLexeme (cfg : Config) (c : Char) (cs : List Char) : Kind × Nat :=
  let more := cs.takeWhile cfg.continuesWord
  match cfg.lookup (c :: more) with
  | some i => (.reserved i, more.length)
  | none => (.word, more.length)

/-- The kind of the token that starts with `c`, and the number of its characters after
    `c`. -/
def lexeme (cfg : Config) (lineFirst : Bool) (c : Char) (cs : List Char) : Kind × Nat :=
  if c.isDigit then (.number, numberLength cfg c cs)
  else if cfg.startsWord c then wordLexeme cfg c cs
  else if Config.isQuote c then stringLexeme lineFirst c cs
  else match comment? cfg c cs with
    | some comment => comment
    | none => if cfg.isMark c then markLexeme cfg c cs else (.error, 0)

end LayoutLR
