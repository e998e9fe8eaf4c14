import Lookahead.LL1.Table
import Lookahead.Report.Productions

/-!
The predictive table, by name, as a grid, as LaTeX and as JSON.
-/

namespace Lookahead.Report

/-- The cells of one nonterminal, one for each terminal. A cell holds at most one alternative. -/
structure LL1Row where
  left : String
  cells : List NamedRule
  deriving DecidableEq

structure LL1Table where
  terminals : List String
  rows : List LL1Row
  deriving DecidableEq

namespace LL1Row

def cell? (g : Grammar) (table : LL1.Table) (n : Nonterminal) (terminal : Nat) :
    Option NamedRule :=
  match table.find? n.index terminal with
  | none => some ⟨n.name, []⟩
  | some p => do
    let body ← n.bodies[p]?
    let right ← g.names? body
    return ⟨n.name, [right]⟩

def of? (g : Grammar) (table : LL1.Table) (n : Nonterminal) : Option LL1Row :=
  (g.terminals.mapM (cell? g table n)).map (LL1Row.mk n.name)

def text (r : LL1Row) : List String :=
  r.left :: r.cells.map (NamedRule.inlineText r.left.utf8ByteSize)

def latex (r : LL1Row) : String :=
  " & ".intercalate (Latex.escape r.left :: r.cells.map (NamedRule.latexWith " \\rightarrow "))

def json (r : LL1Row) : Json := .arr [.str r.left, .arr (r.cells.map NamedRule.json)]

end LL1Row

namespace LL1Table

def of? (g : Grammar) (table : LL1.Table) : Option LL1Table := do
  let rows ← g.nonterminals.mapM (LL1Row.of? g table)
  let terminals ← g.names? g.terminals
  return ⟨terminals, rows⟩

def grid (t : LL1Table) : List (List String) := ("" :: t.terminals) :: t.rows.map LL1Row.text

def text (t : LL1Table) : String := Grid.render t.grid

def latex (t : LL1Table) : String :=
  let columns := "c" ++ String.join (t.terminals.map fun _ => "|l")
  let header := " & ".intercalate
    (("\\[" ++ Latex.begin "array" ++ Latex.braced columns ++ "\n") ::
      t.terminals.map fun name => Latex.command "text" (Latex.escape name))
  Latex.spellEpsilon "\\epsilon"
    (header ++ Latex.lineBreak ++ "\\hline\n" ++
      (Latex.lineBreak ++ "\n").intercalate (t.rows.map LL1Row.latex) ++
      "\n" ++ Latex.finish "array" ++ "\\]")

def json (t : LL1Table) : Json :=
  .obj [("terminals", .strs t.terminals), ("rows", .arr (t.rows.map LL1Row.json))]

end LL1Table
end Lookahead.Report
