import Lookahead.LR0.Item
import Lookahead.Report.Latex
import Lookahead.Report.Name

/-!
Items with their dot, as text and as LaTeX. A dot beyond the end of the alternative is not shown.
-/

namespace Lookahead.Grammar

/-- An item such as `A -> x .y`. -/
def itemText? (g : Grammar) (i : Item) : Option String := do
  let left ← g.name? i.left
  let names ← g.names? (g.body i.left i.production)
  let shown := names.zipIdx.map fun (name, k) => if k = i.position then "." ++ name else name
  return left ++ " -> " ++ " ".intercalate shown ++ (if i.position = names.length then "." else "")

def itemLatex? (g : Grammar) (i : Item) : Option String := do
  let left ← g.name? i.left
  let names ← g.names? (g.body i.left i.production)
  let shown := names.zipIdx.flatMap fun (name, k) =>
    if k = i.position then [".", Latex.escape name] else [Latex.escape name]
  let right := " ".intercalate (if i.position = names.length then shown ++ ["."] else shown)
  return "$" ++ Latex.escape left ++ " \\rightarrow " ++ Latex.spellEpsilon "\\epsilon" right ++ "$"

end Lookahead.Grammar
