/-
  Layout-aware LR toolkit — how wide a line is on a screen.

  A character takes one column, two if it is wide and none if it combines with
  its neighbour or is not drawn.  Some characters are drawn as one with their
  neighbours: a lam before an alef, and a Khmer letter below the one before it.
  A colour sequence, from an escape and a bracket to the letter `m`, counts for
  its escape only.

  * `charWidth`: the columns of a character on its own;
  * `drawnWidth`: the columns of a line, all of its characters drawn;
  * `lineWidth`: the same without what colour sequences hide.
-/
import LayoutLR.Text.Class
import LayoutLR.Text.Unprintable
import LayoutLR.Text.Wide

namespace LayoutLR.Text

/-! ## Characters -/

/-- Whether a character takes no column; the Tifinagh joiner is drawn unless it joins. -/
def isZeroWidth (c : Char) : Bool :=
  (combining.holds c || unseen.holds c) && c.toNat != 0x2d7f

/-- The columns that a character takes on its own; control characters are shown by a stand-in. -/
def charWidth (c : Char) : Nat :=
  if c.toNat < 0xa0 then 1
  else if isZeroWidth c then 0
  else if c.toNat = 0x17d8 then 3
  else if wide.holds c then 2
  else 1

/-! ## Letters drawn as one -/

/-- The lams of the Arabic script. -/
def lams : Ranges :=
  [(0x644, 0x644), (0x6b5, 0x6b8), (0x76a, 0x76a), (0x8a6, 0x8a6), (0x8c7, 0x8c7)]

/-- The alefs of the Arabic script. -/
def alefs : Ranges :=
  [(0x622, 0x623), (0x625, 0x625), (0x627, 0x627), (0x671, 0x673), (0x675, 0x675),
    (0x773, 0x774), (0x870, 0x882)]

/-- The Khmer letters that can stand below another one. -/
def subscripts : Ranges :=
  [(0x1780, 0x1782), (0x1784, 0x1787), (0x1789, 0x178c), (0x178e, 0x1793), (0x1795, 0x1798),
    (0x179b, 0x179d), (0x17a0, 0x17a0), (0x17a2, 0x17a2), (0x17a7, 0x17a7), (0x17ab, 0x17ac),
    (0x17af, 0x17af)]

/-- Whether a mark leaves the letters around it joined. -/
def isTransparent (c : Char) : Bool :=
  isZeroWidth c && c.toNat != 0x200c && c.toNat != 0x200d

/-- Whether a character takes no column of its own between its neighbours. -/
def isMerged (before : Option Char) (c : Char) (after : List Char) : Bool :=
  (lams.holds c && (after.dropWhile isTransparent).head?.any alefs.holds) ||
    (subscripts.holds c && before.any fun b => b.toNat == 0x17d2)

/-! ## Lines -/

/-- The columns of the rest of a line behind the given character. -/
def drawnAfter (before : Option Char) : List Char → Nat
  | [] => 0
  | c :: cs => (if isMerged before c cs then 0 else charWidth c) + drawnAfter (some c) cs

/-- The columns of a line. -/
def drawnWidth (cs : List Char) : Nat :=
  drawnAfter none cs

/-- Where a line stands with respect to colour sequences. -/
inductive ColourState where
  | outside
  /-- Behind an escape. -/
  | escape
  | inside
deriving DecidableEq, Repr

/-- The state behind a character, and whether the character is hidden; a control character stays
    visible inside a colour sequence. -/
def ColourState.next (s : ColourState) (c : Char) : ColourState × Bool :=
  match s with
  | .outside => (if c = '\x1b' then .escape else .outside, false)
  | .escape => if c = '[' then (.inside, true) else (.outside, false)
  | .inside => (if c = 'm' then .outside else .inside, !isControl c && decide (0 < charWidth c))

/-- The number of characters that colour sequences hide. -/
def hiddenAfter (s : ColourState) : List Char → Nat
  | [] => 0
  | c :: cs => (if (s.next c).2 then 1 else 0) + hiddenAfter (s.next c).1 cs

/-- The columns that a line takes on a screen. -/
def lineWidth (cs : List Char) : Nat :=
  drawnWidth cs - hiddenAfter .outside cs

end LayoutLR.Text
