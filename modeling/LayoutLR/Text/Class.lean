/-
  Layout-aware LR toolkit — classes of characters.

  A character is a letter, a numeral, blank or a control character by its
  Unicode properties; the tables of `Text.Alphabetic` and `Text.Numeric` are
  only read beyond ASCII.

  * `isLetter`, `isNumeral`, `isWordChar`: what words are made of;
  * `isBlank`: the property `White_Space`, line breaks included;
  * `isControl`: the category `Cc`;
  * `isIdentifier`: the texts that a host program accepts as a name.
-/
import LayoutLR.Text.Alphabetic
import LayoutLR.Text.Numeric
import LayoutLR.Text.Identifier

namespace LayoutLR.Text

/-! ## Words -/

/-- A letter (property `Alphabetic`). -/
def isLetter (c : Char) : Bool :=
  if c.toNat < 0x80 then c.isAlpha else alphabetic.holds c

/-- A numeral of any kind, superscripts and fractions included. -/
def isNumeral (c : Char) : Bool :=
  if c.toNat < 0x80 then c.isDigit else numerals.holds c

/-- A decimal digit of any script. -/
def isDecimalDigit (c : Char) : Bool :=
  if c.toNat < 0x80 then c.isDigit else decimalDigits.holds c

/-- A letter or a numeral. -/
def isWordChar (c : Char) : Bool :=
  isLetter c || isNumeral c

/-! ## Space -/

/-- The code points with the Unicode property `White_Space`. -/
def blanks : Ranges :=
  [(0x9, 0xd), (0x20, 0x20), (0x85, 0x85), (0xa0, 0xa0), (0x1680, 0x1680), (0x2000, 0x200a),
    (0x2028, 0x2029), (0x202f, 0x202f), (0x205f, 0x205f), (0x3000, 0x3000)]

/-- A blank character; line breaks are blank too. -/
def isBlank (c : Char) : Bool :=
  blanks.holds c

/-- A control character (category `Cc`). -/
def isControl (c : Char) : Bool :=
  decide (c.toNat < 0x20) || (decide (0x7f ≤ c.toNat) && decide (c.toNat < 0xa0))

/-! ## Identifiers -/

/-- A character that may open an identifier, the underscore apart. -/
def isIdentifierStart (c : Char) : Bool :=
  if c.toNat < 0x80 then c.isAlpha else identifierStart.holds c

/-- A character that may stand inside an identifier. -/
def isIdentifierChar (c : Char) : Bool :=
  if c.toNat < 0x80 then c.isAlphanum || c == '_'
  else identifierStart.holds c || identifierMore.holds c

/-- Whether the text is an identifier: an underscore or a starting character, then
    identifier characters only. -/
def isIdentifier : List Char → Bool
  | [] => false
  | c :: cs => (c == '_' || isIdentifierStart c) && cs.all isIdentifierChar

/-! ## Trimming -/

/-- The text without its leading blanks. -/
def trimLeft (cs : List Char) : List Char :=
  cs.dropWhile isBlank

/-- The text without the trailing characters that satisfy `p`. -/
def dropTrailing (p : Char → Bool) (cs : List Char) : List Char :=
  (cs.reverse.dropWhile p).reverse

/-- The text without leading and trailing blanks. -/
def trim (cs : List Char) : List Char :=
  dropTrailing isBlank (trimLeft cs)

end LayoutLR.Text
