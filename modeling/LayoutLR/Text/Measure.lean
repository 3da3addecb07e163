/-
  Layout-aware LR toolkit — how much room text takes.

  * `byteSize`: the size of a text in UTF-8;
  * `column`: the column after a character, with a tab stop every eight columns;
  * `search`: where a text stands in a table sorted by bytes;
  * `find`: where a text first occurs inside another.
-/
import LayoutLR.Total

namespace LayoutLR.Text

/-- The number of bytes of the text in UTF-8. -/
def byteSize (cs : List Char) : Nat :=
  total (cs.map Char.utf8Size)

/-- The column after `c` was written at column `col`; a tab moves to the next
    multiple of eight. -/
def column (col : Nat) (c : Char) : Nat :=
  if c = '\t' then (col / 8 + 1) * 8 else col + 1

/-- The columns that a text without line breaks takes from column zero. -/
def width (cs : List Char) : Nat :=
  cs.foldl column 0

/-- The order of texts by their bytes in UTF-8, which is the order by code points. -/
def order : List Char → List Char → Ordering
  | [], [] => .eq
  | [], _ :: _ => .lt
  | _ :: _, [] => .gt
  | a :: as, b :: bs => (compare a.toNat b.toNat).then (order as bs)

/-- Binary search between `lo` and `hi`: `probe` tells how an entry compares with
    what is looked for. -/
def bisect (probe : Nat → Ordering) (lo hi : Nat) : Option Nat :=
  if _h : lo < hi then
    let mid := lo + (hi - lo) / 2
    match probe mid with
    | .eq => some mid
    | .lt => bisect probe (mid + 1) hi
    | .gt => bisect probe lo mid
  else none
termination_by hi - lo
decreasing_by all_goals omega

/-- The position of `text` in a table sorted by `order`. -/
def search (table : Array (List Char)) (text : List Char) : Option Nat :=
  bisect (fun i => order (table[i]?.getD []) text) 0 table.size

/-- The number of characters before the first occurrence of `marker`. -/
def find (marker : List Char) : List Char → Option Nat
  | [] => if marker.isEmpty then some 0 else none
  | c :: cs => if marker.isPrefixOf (c :: cs) then some 0 else (find marker cs).map (· + 1)

/-- The number padded with spaces on the left to `n` columns. -/
def padLeft (n k : Nat) : String :=
  let digits := Nat.toDigits 10 k
  String.ofList (List.replicate (n - digits.length) ' ' ++ digits)

end LayoutLR.Text
