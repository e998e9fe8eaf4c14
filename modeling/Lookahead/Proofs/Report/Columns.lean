import Lookahead.Proofs.Report.Grid
import Lookahead.Proofs.Text.Lines

/-!
Plain tables can be taken apart again. Their lines are their rows, and all of them are equally long. Cut
at the widths of the columns, every line gives the cells of its row, with nothing but spaces before them.
-/

namespace Lookahead

namespace Text

/-- What ends a text with separators stands in one of them or in the last piece. -/
theorem mem_of_getLast?_intercalate {separator : List Char} (hseparator : separator ≠ [])
    {l : List (List Char)} {c : Char} (h : (separator.intercalate l).getLast? = some c) :
    c ∈ separator ∨ ∃ piece, l.getLast? = some piece ∧ c ∈ piece := by
  induction l with
  | nil => simp [List.intercalate_nil] at h
  | cons piece l ih =>
      cases l with
      | nil =>
          rw [List.intercalate_singleton] at h
          exact .inr ⟨piece, rfl, List.mem_of_getLast? h⟩
      | cons piece' l =>
          rw [List.intercalate_cons_cons, List.getLast?_append] at h
          rcases Option.or_eq_some_iff.mp h with h | ⟨-, h⟩
          · rw [List.getLast?_cons_cons]
            exact ih h
          · rw [List.getLast?_append_of_ne_nil _ hseparator] at h
            exact .inl (List.mem_of_getLast? h)

end Text

namespace Grid

def bar : List Char := [' ', '|', ' ']

/-- Cuts a line into pieces of the given widths. There has to be a bar between every two of them, and
nothing after the last one. -/
def cut? : List Nat → List Char → Option (List (List Char))
  | [], line => if line = [] then some [] else none
  | [width], line => if line.length = width then some [line] else none
  | width :: widths, line =>
    if bar <+: line.drop width then
      (cut? widths (line.drop (width + bar.length))).map (line.take width :: ·)
    else none

def span (widths : List Nat) : Nat := widths.sum + bar.length * (widths.length - 1)

def cellLengths (rows : List (List String)) (j : Nat) : Set Nat :=
  {n | ∃ (row : List String) (cell : String), row ∈ rows ∧ row[j]? = some cell ∧ cell.length = n}

/-- The width of every column is the length of its longest cell. -/
def Measures (widths : List Nat) (rows : List (List String)) : Prop :=
  widths.length = (rows.headD []).length ∧
    ∀ j width, widths[j]? = some width → IsGreatest (cellLengths rows j) width

def Pads (cell : String) (piece : List Char) : Prop :=
  ∃ k, piece = List.replicate k ' ' ++ cell.toList

/-- The text is an aligned grid of the rows. All rows have as many cells as the first, which holds the
headings, every row has its line, and all lines are equally long. Cut at the widths of the columns, each
gives its cells. -/
structure Aligned (rows : List (List String)) (text : String) : Prop where
  row_length : ∀ row ∈ rows, row.length = (rows.headD []).length
  line_count : (Text.lines text.toList).length = rows.length
  line_length : ∃ length, ∀ line ∈ Text.lines text.toList, line.length = length
  cut : ∃ widths, Measures widths rows ∧
    List.Forall₂ (fun row line => ∃ pieces, cut? widths line = some pieces ∧ List.Forall₂ Pads row pieces)
      rows (Text.lines text.toList)

/-! Lines and their pieces. -/

/-- Pieces with bars between them are cut apart at their lengths. -/
theorem cut?_intercalate (pieces : List (List Char)) :
    cut? (pieces.map List.length) (bar.intercalate pieces) = some pieces := by
  induction pieces with
  | nil => rfl
  | cons piece pieces ih =>
      cases pieces with
      | nil => simp [cut?]
      | cons piece' pieces =>
          have hrest : (piece ++ bar ++ bar.intercalate (piece' :: pieces)).drop
              (piece.length + bar.length) = bar.intercalate (piece' :: pieces) :=
            List.drop_left' List.length_append
          rw [List.map_cons, List.map_cons, List.intercalate_cons_cons, cut?, hrest,
            ← List.map_cons, ih, List.append_assoc, List.drop_left, List.take_left,
            if_pos (List.prefix_append _ _), Option.map_some]
          simp

/-- A line is cut into the pieces from which it was put together, and into no others. -/
theorem cut?_eq_some_iff {widths : List Nat} {line : List Char} {pieces : List (List Char)} :
    cut? widths line = some pieces ↔
      pieces.map List.length = widths ∧ bar.intercalate pieces = line := by
  constructor
  · intro h
    fun_induction cut? widths line generalizing pieces with
    | case1 =>
        cases h
        exact ⟨rfl, rfl⟩
    | case2 => cases h
    | case3 =>
        cases h
        exact ⟨rfl, List.intercalate_singleton⟩
    | case4 => cases h
    | case5 width widths line hne hbar ih =>
        obtain ⟨rest, hrest, rfl⟩ := Option.map_eq_some_iff.mp h
        obtain ⟨hlengths, hline⟩ := ih hrest
        obtain ⟨after, hafter⟩ := hbar
        have hle : width ≤ line.length := by
          have hlength := congrArg List.length hafter
          simp only [List.length_append, bar, List.length_cons, List.length_drop] at hlength
          omega
        have hmore : rest ≠ [] := by
          rintro rfl
          exact hne hlengths.symm
        constructor
        · rw [List.map_cons, hlengths, List.length_take_of_le hle]
        · rw [List.intercalate_cons_of_ne_nil hmore, hline, ← List.drop_drop, ← hafter, List.drop_left,
            List.append_assoc, hafter, List.take_append_drop]
    | case6 => cases h
  · rintro ⟨rfl, rfl⟩
    exact cut?_intercalate pieces

theorem length_intercalate_bar (pieces : List (List Char)) :
    (bar.intercalate pieces).length = span (pieces.map List.length) := by
  induction pieces with
  | nil => rfl
  | cons piece pieces ih =>
      cases pieces with
      | nil => simp [span]
      | cons piece' pieces =>
          rw [List.intercalate_cons_cons, List.length_append, List.length_append, ih]
          simp only [span, bar, List.map_cons, List.sum_cons, List.length_cons, List.length_nil]
          omega

theorem length_of_cut? {widths : List Nat} {line : List Char} {pieces : List (List Char)}
    (h : cut? widths line = some pieces) : line.length = span widths := by
  obtain ⟨hlengths, hline⟩ := cut?_eq_some_iff.mp h
  rw [← hline, length_intercalate_bar, hlengths]

/-! Rows and their lines. -/

theorem length_padLeft {width : Nat} {cell : String} (h : cell.length ≤ width) :
    (padLeft width cell).length = width := by
  simp only [padLeft, String.length_append, String.length_ofList, List.length_replicate]
  omega

theorem pads_padLeft (width : Nat) (cell : String) : Pads cell (padLeft width cell).toList :=
  ⟨width - cell.length, by simp [padLeft]⟩

variable {rows : List (List String)}

/-- The width of a column is the length of its longest cell. -/
theorem columnWidth_isGreatest (hne : rows ≠ []) {j : Nat} (hj : ∀ row ∈ rows, j < row.length) :
    IsGreatest (cellLengths rows j) (columnWidth rows j) := by
  have hcell : ∀ row ∈ rows, ∃ cell : String, row[j]? = some cell ∧
      ((row[j]?).getD "").length = cell.length := fun row hrow =>
    ⟨row.get ⟨j, hj row hrow⟩, by simp, by simp [hj row hrow]⟩
  set lengths := rows.map fun row => ((row[j]?).getD "").length with hlengths
  obtain ⟨width, hwidth⟩ : ∃ width, lengths.max? = some width :=
    Option.isSome_iff_exists.mp (by simpa [hlengths] using hne)
  have hcolumn : columnWidth rows j = width := by
    rw [columnWidth, ← hlengths, List.foldl_max, hwidth]
    simp
  obtain ⟨hmem, hle⟩ := List.max?_eq_some_iff.mp hwidth
  rw [hcolumn]
  constructor
  · obtain ⟨row, hrow, rfl⟩ := List.mem_map.mp hmem
    obtain ⟨cell, hsome, heq⟩ := hcell row hrow
    exact ⟨row, cell, hrow, hsome, heq.symm⟩
  · rintro n ⟨row, cell, hrow, hsome, rfl⟩
    exact hle _ (List.mem_map.mpr ⟨row, hrow, by rw [hsome]; rfl⟩)

def pieces (widths : List Nat) (row : List String) : List (List Char) :=
  (widths.zipWith padLeft row).map String.toList

theorem toList_renderRow (widths : List Nat) (row : List String) :
    (renderRow widths row).toList = bar.intercalate (pieces widths row) := by
  simp [renderRow, pieces, String.toList_intercalate, bar]

section Fits

variable {widths : List Nat} {row : List String}
  (h : List.Forall₂ (fun width cell => cell.length ≤ width) widths row)

include h

theorem map_length_pieces : (pieces widths row).map List.length = widths := by
  induction h with
  | nil => rfl
  | cons hfirst _ ih =>
      rw [pieces, List.zipWith_cons_cons, List.map_cons, List.map_cons, String.length_toList,
        length_padLeft hfirst]
      exact congrArg _ ih

theorem forall₂_pads_pieces : List.Forall₂ Pads row (pieces widths row) := by
  induction h with
  | nil => exact .nil
  | cons _ _ ih => exact .cons (pads_padLeft _ _) ih

theorem cut?_renderRow : cut? widths (renderRow widths row).toList = some (pieces widths row) :=
  cut?_eq_some_iff.mpr ⟨map_length_pieces h, (toList_renderRow widths row).symm⟩

end Fits

/-- A character of a piece is a space or one of the cell. -/
theorem Pads.mem {cell : String} {piece : List Char} (h : Pads cell piece) {c : Char} (hc : c ∈ piece) :
    c = ' ' ∨ c ∈ cell.toList := by
  obtain ⟨k, rfl⟩ := h
  exact (List.mem_append.mp hc).imp_left List.eq_of_mem_replicate

theorem exists_cell_of_mem {row : List String} {pieces : List (List Char)}
    (h : List.Forall₂ Pads row pieces) {piece : List Char} (hpiece : piece ∈ pieces) :
    ∃ cell ∈ row, Pads cell piece := by
  induction h with
  | nil => cases hpiece
  | cons hfirst _ ih =>
      rcases List.mem_cons.mp hpiece with rfl | hpiece
      · exact ⟨_, by simp, hfirst⟩
      · obtain ⟨cell, hcell, hpads⟩ := ih hpiece
        exact ⟨cell, by simp [hcell], hpads⟩

theorem exists_last_cell {row : List String} {pieces : List (List Char)}
    (h : List.Forall₂ Pads row pieces) {piece : List Char} (hpiece : pieces.getLast? = some piece) :
    ∃ cell, row.getLast? = some cell ∧ Pads cell piece := by
  induction h with
  | nil => cases hpiece
  | cons hfirst hrest ih =>
      cases hrest with
      | nil =>
          cases hpiece
          exact ⟨_, rfl, hfirst⟩
      | cons hsecond hrest =>
          rw [List.getLast?_cons_cons] at hpiece ⊢
          exact ih hpiece

/-- No cell of the row breaks its line. -/
structure OneLine (row : List String) : Prop where
  newline : ∀ cell ∈ row, '\n' ∉ cell.toList
  ending : ∀ cell, row.getLast? = some cell → '\r' ∉ cell.toList

/-- A row none of whose cells breaks the line makes one line. -/
theorem OneLine.isLine {row : List String} (h : OneLine row) {pieces : List (List Char)}
    (hpads : List.Forall₂ Pads row pieces) : Text.IsLine (bar.intercalate pieces) := by
  constructor
  · intro hmem
    rcases Text.mem_of_mem_intercalate hmem with hbar | ⟨piece, hpiece, hmem⟩
    · exact absurd hbar (by decide)
    · obtain ⟨cell, hcell, hpads⟩ := exists_cell_of_mem hpads hpiece
      exact h.newline cell hcell ((hpads.mem hmem).resolve_left (by decide))
  · intro hlast
    rcases Text.mem_of_getLast?_intercalate (by decide) hlast with hbar | ⟨piece, hpiece, hmem⟩
    · exact absurd hbar (by decide)
    · obtain ⟨cell, hcell, hpads⟩ := exists_last_cell hpads hpiece
      exact h.ending cell hcell ((hpads.mem hmem).resolve_left (by decide))

/-! The whole table. -/

variable (hlength : ∀ row ∈ rows, row.length = (rows.headD []).length)

include hlength

theorem measures_widths : Measures (widths rows) rows := by
  refine ⟨length_widths rows, fun j width hj => ?_⟩
  obtain ⟨i, hi, rfl⟩ := Option.map_eq_some_iff.mp (List.getElem?_map ▸ hj)
  obtain ⟨hlt, rfl⟩ := List.getElem?_eq_some_iff.mp hi
  rw [List.length_range] at hlt
  rw [List.getElem_range]
  refine columnWidth_isGreatest ?_ fun row hrow => hlength row hrow ▸ hlt
  rintro rfl
  exact absurd hlt (Nat.not_lt_zero _)

/-- Every cell fits into its column. -/
theorem forall₂_fits {row : List String} (hrow : row ∈ rows) :
    List.Forall₂ (fun width cell => cell.length ≤ width) (widths rows) row := by
  refine List.forall₂_iff_get.mpr ⟨by rw [length_widths, hlength row hrow], fun j hj hj' => ?_⟩
  exact ((measures_widths hlength).2 j _ (List.getElem?_eq_getElem hj)).2
    ⟨row, _, hrow, List.getElem?_eq_getElem hj', rfl⟩

/-- A table with two columns or more is an aligned grid, if no cell breaks a line. -/
theorem aligned_render (hwide : 2 ≤ (rows.headD []).length) (hlines : ∀ row ∈ rows, OneLine row) :
    Aligned rows (render rows) := by
  have hfits := fun row (hrow : row ∈ rows) => forall₂_fits hlength hrow
  have hspan : ∀ row ∈ rows, (renderRow (widths rows) row).toList.length = span (widths rows) :=
    fun row hrow => length_of_cut? (cut?_renderRow (hfits row hrow))
  have htext : Text.lines (render rows).toList =
      rows.map fun row => (renderRow (widths rows) row).toList := by
    have hjoin : (render rows).toList =
        ['\n'].intercalate (rows.map fun row => (renderRow (widths rows) row).toList) := by
      simp [render, String.toList_intercalate, Function.comp_def]
    rw [hjoin]
    refine Text.lines_intercalate fun line hline => ?_
    obtain ⟨row, hrow, rfl⟩ := List.mem_map.mp hline
    constructor
    · rw [toList_renderRow]
      exact (hlines row hrow).isLine (forall₂_pads_pieces (hfits row hrow))
    · intro hnil
      have hzero := hspan row hrow
      simp only [hnil, List.length_nil, span, bar, List.length_cons, length_widths] at hzero
      omega
  refine ⟨hlength, by rw [htext, List.length_map], ⟨span (widths rows), fun line hline => ?_⟩,
    widths rows, measures_widths hlength, ?_⟩
  · rw [htext] at hline
    obtain ⟨row, hrow, rfl⟩ := List.mem_map.mp hline
    exact hspan row hrow
  · rw [htext, List.forall₂_map_right_iff]
    refine List.forall₂_same.mpr fun row hrow => ?_
    exact ⟨_, cut?_renderRow (hfits row hrow), forall₂_pads_pieces (hfits row hrow)⟩

end Grid
end Lookahead
