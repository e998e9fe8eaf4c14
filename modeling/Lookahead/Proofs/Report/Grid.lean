import Lookahead.Proofs.Fallible
import Lookahead.Report.Grid

/-!
Plain tables with every cell and every width looked up by its place. If all rows are as long as the
first, no place is missing, and the table comes out as it does without looking.
-/

namespace Lookahead.Grid

variable {rows : List (List String)}

def columnWidth? (rows : List (List String)) (j : Nat) : Option Nat :=
  (rows.mapM fun row => (row[j]?).map String.length).map (·.foldl max 0)

def widths? (rows : List (List String)) : Option (List Nat) :=
  (List.range (rows.headD []).length).mapM (columnWidth? rows)

def renderRow? (widths : List Nat) (row : List String) : Option String :=
  (row.zipIdx.mapM fun (p : String × Nat) => (widths[p.2]?).map (padLeft · p.1)).map
    (" | ".intercalate ·)

def render? (rows : List (List String)) : Option String := do
  let widths ← widths? rows
  let lines ← rows.mapM (renderRow? widths)
  return "\n".intercalate lines

theorem length_widths (rows : List (List String)) :
    (widths rows).length = (rows.headD []).length := by
  simp [widths]

theorem columnWidth?_eq_some {j : Nat} (h : ∀ row ∈ rows, j < row.length) :
    columnWidth? rows j = some (columnWidth rows j) := by
  have hcell : ∀ row ∈ rows, (row[j]?).map String.length = some ((row[j]?).getD "").length := by
    intro row hrow
    simp [h row hrow]
  rw [columnWidth?, mapM_eq_some_map hcell]
  rfl

theorem renderRow?_eq_some {widths : List Nat} {row : List String}
    (h : row.length = widths.length) : renderRow? widths row = some (renderRow widths row) := by
  have hcell : ∀ p ∈ row.zipIdx, (widths[p.2]?).map (padLeft · p.1) =
      some (padLeft ((widths[p.2]?).getD 0) p.1) := by
    rintro ⟨s, i⟩ hp
    have hlt : i < widths.length := by
      rw [← h]
      exact (List.getElem?_eq_some_iff.mp (List.mem_zipIdx_iff_getElem?.mp hp)).1
    simp [hlt]
  have hcells : (row.zipIdx.map fun p => padLeft ((widths[p.2]?).getD 0) p.1) =
      widths.zipWith padLeft row := by
    apply List.ext_getElem
    · simp [h]
    · intro i hi hi'
      have hlt : i < widths.length := by simpa [h] using hi
      simp [hlt]
  rw [renderRow?, mapM_eq_some_map hcell, hcells]
  rfl

/-- Where all rows are as long as the first, no cell is looked for that is not there. -/
theorem render?_eq_some (h : ∀ row ∈ rows, row.length = (rows.headD []).length) :
    render? rows = some (render rows) := by
  have hwidths : widths? rows = some (widths rows) := by
    apply mapM_eq_some_map
    intro j hj
    apply columnWidth?_eq_some
    intro row hrow
    rw [h row hrow]
    exact List.mem_range.mp hj
  have hlines : rows.mapM (renderRow? (widths rows)) =
      some (rows.map (renderRow (widths rows))) := by
    apply mapM_eq_some_map
    intro row hrow
    apply renderRow?_eq_some
    rw [h row hrow, length_widths]
  rw [render?, hwidths, Option.bind_eq_bind, Option.bind_some, hlines]
  rfl

end Lookahead.Grid
