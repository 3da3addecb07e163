/-
  Layout-aware LR toolkit — text shown between double quotes.

  Quoted text is readable whatever it holds: quotes and backslashes are escaped,
  the usual controls have short names, and every other character without a
  glyph of its own, or that would combine with its neighbour, is written by its
  code point in hexadecimal.

  * `quote`: the text of a token in a message or a trace;
  * `literal`: the text as a string literal of generated code, which differs in
    the form of the null character only.
-/
import LayoutLR.Text.Class
import LayoutLR.Text.Unprintable

namespace LayoutLR.Text

/-- Whether a character is shown as it is. -/
def isShown (c : Char) : Bool :=
  if c.toNat < 0x80 then decide (0x20 ≤ c.toNat) && decide (c.toNat < 0x7f)
  else !glyphless.holds c && !combining.holds c

/-- A code point in lower-case hexadecimal between braces. -/
def byNumber (c : Char) : List Char :=
  ['\\', 'u', '\x7b'] ++ Nat.toDigits 16 c.toNat ++ ['\x7d']

/-- One character between double quotes. -/
def escape (c : Char) : List Char :=
  if c = '\x00' then ['\\', '0']
  else if c = '\t' then ['\\', 't']
  else if c = '\r' then ['\\', 'r']
  else if c = '\n' then ['\\', 'n']
  else if c = '\\' ∨ c = '\x22' then ['\\', c]
  else if isShown c then [c]
  else byNumber c

/-- The text between double quotes. -/
def quote (cs : List Char) : String :=
  String.ofList ('\x22' :: cs.flatMap escape ++ ['\x22'])

/-- The inside of a string literal; a null before an octal digit is written in
    hexadecimal, so that it cannot be taken for a longer escape. -/
def literalBody : List Char → List Char
  | [] => []
  | c :: cs =>
    let octal := match cs with
      | d :: _ => decide ('0' ≤ d) && decide (d ≤ '7')
      | [] => false
    (if c = '\x00' ∧ octal = true then ['\\', 'x', '0', '0'] else escape c) ++ literalBody cs

/-- The text as a string literal of generated code. -/
def literal (s : String) : String :=
  String.ofList ('\x22' :: literalBody s.toList ++ ['\x22'])

end LayoutLR.Text
