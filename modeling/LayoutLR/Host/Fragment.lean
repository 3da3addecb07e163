/-
  Layout-aware LR toolkit — fragments of host code.

  A grammar brings code along: actions, types of values and a header.  A
  fragment is such code as a sequence of names, literals, marks and brackets.
  Comments and blanks are gone, except that a documenting comment turns into
  the attribute it stands for, and marks that touched still touch.

  * `Piece`: a part of a fragment;
  * `front?`: what the text in front stands for;
  * `readFragment?`: the fragment of a text, if all of it can be read and its
    brackets match;
  * `fragmentText`: a fragment as text.
-/
import LayoutLR.Host.Literal
import LayoutLR.Text.Quoted

namespace LayoutLR.Host

open Text

/-! ## Pieces -/

/-- The three pairs of brackets. -/
inductive Bracket where
  | round
  | square
  | curly
deriving DecidableEq, Repr

/-- The opening character of a pair. -/
def Bracket.left : Bracket → Char
  | .round => '('
  | .square => '['
  | .curly => '\x7b'

/-- The closing character of a pair. -/
def Bracket.right : Bracket → Char
  | .round => ')'
  | .square => ']'
  | .curly => '\x7d'

/-- The pairs of brackets. -/
def Bracket.all : List Bracket :=
  [.round, .square, .curly]

/-- A part of a fragment. -/
inductive Piece where
  | name (text : List Char)
  | literal (text : List Char)
  /-- A single character; a joint one touches the next piece. -/
  | mark (c : Char) (joint : Bool)
  | opening (b : Bracket)
  | closing (b : Bracket)
deriving DecidableEq, Repr

/-- The text of a piece. -/
def Piece.text : Piece → List Char
  | .name text | .literal text => text
  | .mark c _ => [c]
  | .opening b => [b.left]
  | .closing b => [b.right]

/-- Whether a piece touches the next one. -/
def Piece.joint : Piece → Bool
  | .mark _ joint => joint
  | _ => false

/-- A fragment as text, with a space between pieces that do not touch. -/
def fragmentText : List Piece → String
  | [] => ""
  | [p] => String.ofList p.text
  | p :: rest => String.ofList p.text ++ (if p.joint then "" else " ") ++ fragmentText rest

/-- Whether every bracket is closed by its partner, `stack` listing the open ones from the
    innermost. -/
def balanced (stack : List Bracket) : List Piece → Bool
  | [] => stack.isEmpty
  | .opening b :: rest => balanced (b :: stack) rest
  | .closing b :: rest => match stack with
    | top :: stack => decide (top = b) && balanced stack rest
    | [] => false
  | _ :: rest => balanced stack rest

/-! ## Blanks and comments -/

/-- A blank of host code: the marks of writing direction count too. -/
def isGap (c : Char) : Bool :=
  isBlank c || c == '\u200e' || c == '\u200f'

/-- The number of characters that are left of a block comment; comments nest, and `depth` more
    of them are open. -/
def blockRestSize? (depth : Nat) : List Char → Option Nat
  | [] => none
  | '/' :: '*' :: cs => (blockRestSize? (depth + 1) cs).map (· + 2)
  | '*' :: '/' :: cs => match depth with
    | 0 => some 2
    | depth + 1 => (blockRestSize? depth cs).map (· + 2)
  | _ :: cs => (blockRestSize? depth cs).map (· + 1)

/-- The number of characters of the block comment in front. -/
def blockSize? : List Char → Option Nat
  | '/' :: '*' :: cs => (blockRestSize? 0 cs).map (· + 2)
  | _ => none

/-- The characters before the end of the line. -/
def lineRest (cs : List Char) : List Char :=
  cs.takeWhile (· != '\n')

/-- Whether every carriage return is followed by a line feed. -/
def returnsPaired : List Char → Bool
  | [] => true
  | '\r' :: '\n' :: cs => returnsPaired cs
  | c :: cs => c != '\r' && returnsPaired cs

/-- The attribute that a documenting comment stands for; an inner one documents what it
    stands in. -/
def docPieces? (inner : Bool) (text : List Char) : Option (List Piece) :=
  if returnsPaired text then
    some ([.mark '#' false] ++ (if inner then [.mark '!' false] else []) ++
      [.opening .square, .name "doc".toList, .mark '=' false,
        .literal (Text.literal (String.ofList text)).toList, .closing .square])
  else none

/-- A documenting comment up to the end of its line, `n` characters of which are its mark. -/
def docLine? (inner : Bool) (n : Nat) (cs : List Char) : Option (List Piece × Nat) :=
  let line := lineRest (cs.drop n)
  let ended := decide (n + line.length < cs.length)
  let text := if ended && line.getLast? == some '\r' then line.dropLast else line
  (docPieces? inner text).map fun ps => (ps, n + line.length)

/-- A documenting block comment. -/
def docBlock? (inner : Bool) (cs : List Char) : Option (List Piece × Nat) :=
  match blockSize? cs with
  | some n => (docPieces? inner ((cs.drop 3).take (n - 5))).map fun ps => (ps, n)
  | none => none

/-- The comment in front, which starts with a slash and a slash or a star. -/
def comment? (cs : List Char) : Option (List Piece × Nat) :=
  match cs with
  | '/' :: '/' :: '!' :: _ => docLine? true 3 cs
  | '/' :: '/' :: '/' :: '/' :: _ => some ([], (lineRest cs).length)
  | '/' :: '/' :: '/' :: _ => docLine? false 3 cs
  | '/' :: '/' :: _ => some ([], (lineRest cs).length)
  | '/' :: '*' :: '!' :: _ => docBlock? true cs
  | '/' :: '*' :: '*' :: '/' :: _ => some ([], 4)
  | '/' :: '*' :: '*' :: '*' :: _ => (blockSize? cs).map fun n => ([], n)
  | '/' :: '*' :: '*' :: _ => docBlock? false cs
  | _ => (blockSize? cs).map fun n => ([], n)

/-! ## Names and marks -/

/-- The names that cannot be written raw. -/
def neverRaw : List String :=
  ["_", "super", "self", "Self", "crate"]

/-- The number of characters of the name in front, raw or not. -/
def anyNameSize? : List Char → Option Nat
  | 'r' :: '#' :: cs => match nameSize? cs with
    | some n => if neverRaw.contains (String.ofList (cs.take n)) then none else some (n + 2)
    | none => none
  | cs => nameSize? cs

/-- What opens a string or a character, and hence no name. -/
def literalOpenings : List String :=
  ["r\x22", "r#\x22", "r##", "b\x22", "b\x27", "br\x22", "br#", "c\x22", "cr\x22", "cr#"]

/-- The characters that are marks. -/
def markChars : List Char :=
  "~!@#$%^&*-=+|;:,<.>/?\x27".toList

/-- Whether a comment is in front. -/
def startsComment : List Char → Bool
  | '/' :: '/' :: _ | '/' :: '*' :: _ => true
  | _ => false

/-- Whether a mark is in front. -/
def startsMark (cs : List Char) : Bool :=
  !startsComment cs && (cs.head?.map markChars.contains).getD false

/-- Whether the name of a lifetime is in front, rather than a character without its closing
    quote. -/
def startsLifetime (cs : List Char) : Bool :=
  match anyNameSize? cs with
  | some n =>
    let next := (cs.drop n).head?
    next != some '\x27' && !(next == some '#' && !(['r', '#'].isPrefixOf cs))
  | none => false

/-- The mark in front; a quote is one only before a lifetime. -/
def mark? (cs : List Char) : Option Piece :=
  match cs with
  | c :: rest =>
    if !startsMark cs then none
    else if c = '\x27' then if startsLifetime rest then some (.mark c true) else none
    else some (.mark c (startsMark rest))
  | [] => none

/-- The name in front. -/
def name? (cs : List Char) : Option (Piece × Nat) :=
  if literalOpenings.any fun s => s.toList.isPrefixOf cs then none
  else (anyNameSize? cs).map fun n => (.name (cs.take n), n)

/-! ## Reading -/

/-- The marker that stands for an expression which could not be expanded. -/
def errorMarker : List Char :=
  "(/*ERROR*/)".toList

/-- The bracket that a character is. -/
def bracket? (c : Char) : Option Piece :=
  ((Bracket.all.find? fun b => b.left == c).map .opening).or
    ((Bracket.all.find? fun b => b.right == c).map .closing)

/-- The single piece in front. -/
def piece? (c : Char) (cs : List Char) : Option (Piece × Nat) :=
  if errorMarker.isPrefixOf cs then some (.literal errorMarker, errorMarker.length)
  else ((bracket? c).map fun p => (p, 1)).or <|
    ((literalSize? cs).map fun n => (.literal (cs.take n), n)).or <|
    ((mark? cs).map fun p => (p, 1)).or (name? cs)

/-- What the text in front stands for, and how many characters it takes. -/
def front? (c : Char) (cs : List Char) : Option (List Piece × Nat) :=
  if isGap c then some ([], 1)
  else if startsComment cs then comment? cs
  else (piece? c cs).map fun r => ([r.1], r.2)

/-- The pieces of a text. -/
def pieces? (cs : List Char) : Option (List Piece) :=
  match cs with
  | [] => some []
  | c :: rest => match front? c (c :: rest) with
    | some (ps, n) => (pieces? (rest.drop (n - 1))).map (ps ++ ·)
    | none => none
termination_by cs.length
decreasing_by simp only [List.length_cons, List.length_drop]; omega

/-- The text without a byte order mark. -/
def dropOrderMark : List Char → List Char
  | '\ufeff' :: cs => cs
  | cs => cs

/-- The fragment of a text, if all of it can be read and its brackets match. -/
def readFragment? (cs : List Char) : Option (List Piece) :=
  match pieces? (dropOrderMark cs) with
  | some ps => if balanced [] ps then some ps else none
  | none => none

end LayoutLR.Host
