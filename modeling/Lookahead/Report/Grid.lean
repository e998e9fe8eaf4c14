/-!
Plain tables: columns set flush right, with bars between them.
-/

namespace Lookahead.Grid

/-- The text behind blanks that make it at least `width` characters long. -/
def padLeft (width : Nat) (s : String) : String :=
  String.ofList (List.replicate (width - s.length) ' ') ++ s

/-- The length of the longest cell in column `j`. -/
def columnWidth (rows : List (List String)) (j : Nat) : Nat :=
  (rows.map fun row => ((row[j]?).getD "").length).foldl max 0

/-- One width for each cell of the first row. -/
def widths (rows : List (List String)) : List Nat :=
  (List.range (rows.headD []).length).map (columnWidth rows)

def renderRow (widths : List Nat) (row : List String) : String :=
  " | ".intercalate (widths.zipWith padLeft row)

/-- The rows, one a line. All are as long as the first, which holds the headings. -/
def render (rows : List (List String)) : String :=
  "\n".intercalate (rows.map (renderRow (widths rows)))

end Lookahead.Grid
