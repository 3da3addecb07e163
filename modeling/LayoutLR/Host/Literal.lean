/-
  Layout-aware LR toolkit — literals of the host language.

  Action code is copied into the generated program, so its literals have to be
  recognised: what looks like a comment or a parenthesis inside a string is
  neither.  Each rule tells how many characters a literal takes, and fails on
  one that is not well formed.

  * `Flavour`: texts, byte strings and texts that end in a null character;
  * `closedSize?`, `rawSize?`: strings with and without escapes;
  * `charSize?`: a character between single quotes;
  * `floatSize?`, `intSize?`: numbers;
  * `literalSize?`: any of them.
-/
import LayoutLR.Text.Class

namespace LayoutLR.Host

open Text

/-! ## Names -/

/-- Whether a character may open a name. -/
def startsName (c : Char) : Bool :=
  c == '_' || isIdentifierStart c

/-- The number of characters of the name in front, if there is one. -/
def nameSize? : List Char → Option Nat
  | [] => none
  | c :: cs => if startsName c then some (1 + (cs.takeWhile isIdentifierChar).length) else none

/-- The number of characters of the suffix that a literal may carry. -/
def suffixSize (cs : List Char) : Nat :=
  (nameSize? cs).getD 0

/-- A literal of `n` characters together with its suffix. -/
def withSuffix (cs : List Char) (n : Nat) : Nat :=
  n + suffixSize (cs.drop n)

/-! ## Escapes -/

/-- The three kinds of strings. -/
inductive Flavour where
  | text
  /-- ASCII only. -/
  | bytes
  /-- No null character inside. -/
  | terminated
deriving DecidableEq, Repr

/-- The value of a hexadecimal digit. -/
def hexDigit? (c : Char) : Option Nat :=
  if c.isDigit then some (c.toNat - '0'.toNat)
  else if 'a' ≤ c ∧ c ≤ 'f' then some (10 + c.toNat - 'a'.toNat)
  else if 'A' ≤ c ∧ c ≤ 'F' then some (10 + c.toNat - 'A'.toNat)
  else none

/-- Whether two hexadecimal digits may follow `\x`: a text has ASCII codes only, a
    terminated one no null. -/
def Flavour.hexAllowed (f : Flavour) (a b : Char) : Bool :=
  match hexDigit? a, hexDigit? b with
  | some x, some y => match f with
    | .text => decide (x < 8)
    | .bytes => true
    | .terminated => decide (x ≠ 0 ∨ y ≠ 0)
  | _, _ => false

/-- The code point in braces after `\u` and the number of characters up to the closing brace:
    one to six digits, with underscores after the first one. -/
def codePoint? (value digits : Nat) : List Char → Option (Nat × Nat)
  | [] => none
  | c :: cs =>
    if c = '_' ∧ 0 < digits then (codePoint? value digits cs).map fun r => (r.1, r.2 + 1)
    else if c = '\x7d' ∧ 0 < digits then
      if value.isValidChar then some (value, 1) else none
    else match hexDigit? c with
      | some d =>
        if digits = 6 then none
        else (codePoint? (16 * value + d) (digits + 1) cs).map fun r => (r.1, r.2 + 1)
      | none => none

/-- The escapes of one letter. -/
def Flavour.simpleEscape (f : Flavour) (c : Char) : Bool :=
  ['n', 'r', 't', '\\', '\x27', '\x22'].contains c || (c == '0' && f != .terminated)

/-- The number of characters of an escape after its backslash. -/
def escapeSize? (f : Flavour) : List Char → Option Nat
  | 'x' :: a :: b :: _ => if f.hexAllowed a b then some 3 else none
  | 'u' :: '\x7b' :: cs =>
    if f = .bytes then none
    else match codePoint? 0 0 cs with
      | some (value, n) => if f = .terminated ∧ value = 0 then none else some (n + 2)
      | none => none
  | c :: _ => if f.simpleEscape c then some 1 else none
  | [] => none

/-! ## Strings -/

/-- Whether a character may stand in a string as it is. -/
def Flavour.allows (f : Flavour) (c : Char) : Bool :=
  match f with
  | .text => true
  | .bytes => decide (c.toNat < 0x80)
  | .terminated => c != '\x00'

/-- The number of characters up to the closing quote.  A carriage return has to be followed by
    a line feed, and a backslash may stand before a line break. -/
def closedSize? (f : Flavour) (cs : List Char) : Option Nat :=
  match cs with
  | [] => none
  | '\r' :: '\n' :: cs => (closedSize? f cs).map (· + 2)
  | '\\' :: '\n' :: cs => (closedSize? f cs).map (· + 2)
  | '\\' :: '\r' :: '\n' :: cs => (closedSize? f cs).map (· + 3)
  | c :: cs =>
    if c = '\x22' then some 1
    else if c = '\r' then none
    else if c = '\\' then
      match escapeSize? f cs with
      | some n => (closedSize? f (cs.drop n)).map (· + (n + 1))
      | none => none
    else if f.allows c then (closedSize? f cs).map (· + 1)
    else none
termination_by cs.length
decreasing_by all_goals simp only [List.length_cons, List.length_drop]; omega

/-- The number of characters up to the closing quote and the `hashes` after it; nothing is
    escaped. -/
def rawCloseSize? (f : Flavour) (hashes : Nat) : List Char → Option Nat
  | [] => none
  | '\r' :: '\n' :: cs => (rawCloseSize? f hashes cs).map (· + 2)
  | c :: cs =>
    if c = '\x22' ∧ (List.replicate hashes '#').isPrefixOf cs = true then some (hashes + 1)
    else if c ≠ '\r' ∧ f.allows c = true then (rawCloseSize? f hashes cs).map (· + 1)
    else none

/-- The number of characters of a raw string after its letters: at most 255 hashes, a
    quote, and all up to the same number of hashes. -/
def rawSize? (f : Flavour) (cs : List Char) : Option Nat :=
  let hashes := (cs.takeWhile (· == '#')).length
  match cs.drop hashes with
  | '\x22' :: rest =>
    if hashes ≤ 255 then (rawCloseSize? f hashes rest).map (· + (hashes + 1)) else none
  | _ => none

/-- The number of characters of a character or a byte after its opening quote. -/
def charSize? (f : Flavour) (cs : List Char) : Option Nat :=
  let inner := match cs with
    | '\\' :: cs => (escapeSize? f cs).map (· + 1)
    | c :: _ => if f.allows c then some 1 else none
    | [] => none
  match inner with
  | some n => if (cs.drop n).head? = some '\x27' then some (n + 1) else none
  | none => none

/-! ## Numbers -/

/-- A number of `n` characters with its suffix; it may not run into a word. -/
def numberSize? (cs : List Char) (n : Nat) : Option Nat :=
  let size := withSuffix cs n
  match cs.drop size with
  | c :: _ => if isIdentifierChar c then none else some size
  | [] => some size

/-- The part of a floating-point number before its exponent. -/
structure Mantissa where
  size : Nat
  hasPoint : Bool
  /-- Whether the letter of an exponent follows. -/
  hasExponent : Bool

/-- The mantissa after its first digit; `point` tells whether a point was met.  A point before
    a name or another point belongs to what follows. -/
def mantissa? (point : Bool) : List Char → Option Mantissa
  | [] => some ⟨0, point, false⟩
  | c :: cs =>
    let more (point : Bool) : Option Mantissa :=
      (mantissa? point cs).map fun m => { m with size := m.size + 1 }
    if c.isDigit || c == '_' then more point
    else if c = '.' ∧ point = false then
      if (cs.head?.map fun d => d == '.' || startsName d).getD false then none else more true
    else some ⟨0, point, c == 'e' || c == 'E'⟩

/-- The number of characters of an exponent after its letter: one sign at most, then at least
    one digit. -/
def exponentSize? (sign digits : Bool) : List Char → Option Nat
  | [] => if digits then some 0 else none
  | c :: cs =>
    if c.isDigit then (exponentSize? sign true cs).map (· + 1)
    else if c = '_' then (exponentSize? sign digits cs).map (· + 1)
    else if digits then some 0
    else if (c = '+' ∨ c = '-') ∧ sign = false then (exponentSize? true digits cs).map (· + 1)
    else none

/-- The number of characters of a floating-point number: it has a point or an exponent, and
    the letter of an incomplete exponent is a suffix. -/
def floatSize? (cs : List Char) : Option Nat :=
  match cs with
  | [] => none
  | c :: rest =>
    if c.isDigit then
      match mantissa? false rest with
      | none => none
      | some m =>
        let plain := if m.hasPoint then some (m.size + 1) else none
        let size := if m.hasExponent then
            match exponentSize? false false (rest.drop (m.size + 1)) with
            | some n => some (m.size + 2 + n)
            | none => plain
          else plain
        size.bind (numberSize? cs)
    else none

/-- The number of digits in a base, with underscores; a decimal digit that is too large for
    the base is refused. -/
def digitsSize? (base : Nat) (empty : Bool) : List Char → Option Nat
  | [] => if empty then none else some 0
  | c :: cs =>
    if c = '_' ∧ (empty = false ∨ base ≠ 10) then (digitsSize? base empty cs).map (· + 1)
    else match hexDigit? c with
      | some d =>
        if d < base then (digitsSize? base false cs).map (· + 1)
        else if d < 10 then none
        else if empty then none else some 0
      | none => if empty then none else some 0

/-- The number of characters of an integer in base ten, sixteen, eight or two. -/
def intSize? (cs : List Char) : Option Nat :=
  let digits := match cs with
    | '0' :: 'x' :: rest => (digitsSize? 16 true rest).map (· + 2)
    | '0' :: 'o' :: rest => (digitsSize? 8 true rest).map (· + 2)
    | '0' :: 'b' :: rest => (digitsSize? 2 true rest).map (· + 2)
    | c :: _ => if c.isDigit then digitsSize? 10 true cs else none
    | [] => none
  digits.bind (numberSize? cs)

/-! ## All literals -/

/-- The number of characters of the literal in front, if there is one. -/
def literalSize? (cs : List Char) : Option Nat :=
  let quoted (n : Nat) (size : Option Nat) : Option Nat :=
    size.map fun more => withSuffix cs (n + more)
  match cs with
  | '\x22' :: rest => quoted 1 (closedSize? .text rest)
  | 'r' :: rest => quoted 1 (rawSize? .text rest)
  | 'b' :: '\x22' :: rest => quoted 2 (closedSize? .bytes rest)
  | 'b' :: 'r' :: rest => quoted 2 (rawSize? .bytes rest)
  | 'c' :: '\x22' :: rest => quoted 2 (closedSize? .terminated rest)
  | 'c' :: 'r' :: rest => quoted 2 (rawSize? .terminated rest)
  | 'b' :: '\x27' :: rest => quoted 2 (charSize? .bytes rest)
  | '\x27' :: rest => quoted 1 (charSize? .text rest)
  | _ => (floatSize? cs).or (intSize? cs)

end LayoutLR.Host
