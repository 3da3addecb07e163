/-
  Layout-aware LR toolkit — rows of cells as text.

  A cell may have several lines.  As a grid, every row stands between rules and
  is as high as its highest cell, and a column is as wide as its widest line is
  on a screen; as comma-separated values, cells with separators, quotes or line
  breaks are quoted.

  * `cellLines`: the lines of a cell;
  * `gridText`: rows as a grid;
  * `csvText`: rows as comma-separated values.
-/
import LayoutLR.Text.Width

namespace LayoutLR.Text

/-! ## Cells -/

/-- The lines of a text, the last of which counts only if it is not empty; a carriage return
    before a line feed belongs to the line break. -/
def breakLines : List Char → List (List Char)
  | [] => []
  | '\r' :: '\n' :: cs => [] :: breakLines cs
  | c :: cs =>
    if c = '\n' then [] :: breakLines cs
    else match breakLines cs with
      | [] => [[c]]
      | l :: ls => (c :: l) :: ls

/-- The lines of a cell. -/
def cellLines (cell : String) : List (List Char) :=
  breakLines cell.toList

/-! ## Grids -/

/-- The number of columns that a cell takes. -/
def cellWidth (cell : String) : Nat :=
  ((cellLines cell).map lineWidth).foldl max 0

/-- The widths of two rows put together, column by column. -/
def widest : List Nat → List Nat → List Nat
  | [], ws => ws
  | vs, [] => vs
  | v :: vs, w :: ws => max v w :: widest vs ws

/-- The widths of the columns of some rows. -/
def columnWidths (rows : List (List String)) : List Nat :=
  rows.foldl (fun ws row => widest ws (row.map cellWidth)) []

/-- A rule between rows. -/
def gridRule (widths : List Nat) : String :=
  "+" ++ String.join (widths.map fun w => String.ofList (List.replicate (w + 2) '-') ++ "+") ++ "\n"

/-- A line of a cell, filled up with spaces. -/
def padRight (width : Nat) (line : List Char) : String :=
  String.ofList (line ++ List.replicate (width - lineWidth line) ' ')

/-- Line number `i` of a row. -/
def gridLine (widths : List Nat) (row : List String) (i : Nat) : String :=
  "|" ++ String.join (widths.mapIdx fun j w =>
    " " ++ padRight w ((cellLines (row[j]?.getD ""))[i]?.getD []) ++ " |") ++ "\n"

/-- A row. -/
def gridRow (widths : List Nat) (row : List String) : String :=
  let height := (row.map fun cell => (cellLines cell).length).foldl max 0
  String.join ((List.range height).map (gridLine widths row))

/-- Rows as a grid, with a rule above and below every row. -/
def gridText (rows : List (List String)) : String :=
  let widths := columnWidths rows
  gridRule widths ++ String.join (rows.map fun row => gridRow widths row ++ gridRule widths)

/-! ## Comma-separated values -/

/-- Whether a character makes a value be quoted. -/
def needsQuotes (c : Char) : Bool :=
  c == ',' || c == '\x22' || c == '\n' || c == '\r'

/-- A value, quoted where needed; a quote inside is doubled. -/
def csvField (cell : String) : String :=
  let text := List.intercalate ['\n'] (cellLines cell)
  if text.any needsQuotes then
    String.ofList (['\x22'] ++
      text.flatMap (fun c => if c = '\x22' then ['\x22', '\x22'] else [c]) ++ ['\x22'])
  else String.ofList text

/-- Rows as comma-separated values. -/
def csvText (rows : List (List String)) : String :=
  String.join (rows.map fun row => ",".intercalate (row.map csvField) ++ "\n")

end LayoutLR.Text
