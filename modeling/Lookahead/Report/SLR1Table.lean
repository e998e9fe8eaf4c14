import Lookahead.Report.Grid
import Lookahead.Report.Json
import Lookahead.Report.Latex
import Lookahead.Report.Name
import Lookahead.SLR1.Table

/-!
The action and goto tables, by name, as a grid, as LaTeX and as JSON.
-/

namespace Lookahead

namespace SLR1

namespace Action

/-- How an action stands in a cell, such as `s3`, `r(A -> x y)` or `acc`. -/
def text? (g : Grammar) : Action → Option String
  | shift state => some ("s" ++ toString state)
  | reduce left production => do return "r(" ++ (← g.ruleText? left production) ++ ")"
  | accept => some "acc"

/-- A symbol of a rule in LaTeX, where terminals are set as text. -/
def symbolLatex? (g : Grammar) (s : Nat) : Option String := do
  let name := Latex.escape (← g.name? s)
  return if g.isTerminal s then Latex.command "text" name else name

def latex? (g : Grammar) : Action → Option String
  | shift state => some ("shift " ++ toString state)
  | reduce left production => do
    let name ← g.name? left
    let right ← (g.body left production).mapM (symbolLatex? g)
    return "reduce $" ++ Latex.escape name ++ " \\rightarrow " ++
      Latex.spellEpsilon "\\epsilon" (" \\  ".intercalate right) ++ "$"
  | accept => some "accept"

end Action

/-- `g` is the grammar of the automaton. -/
def Collision.message? (g : Grammar) (c : Collision) : Option String := do
  return "not SLR(1): state " ++ toString c.state ++ " on \"" ++ (← g.name? c.terminal) ++
    "\" has both " ++ (← c.first.text? g) ++ " and " ++ (← c.second.text? g)

end SLR1

namespace Report

structure SLR1Row where
  actions : List String
  latexActions : List String
  gotos : List (Option Nat)
  deriving DecidableEq

structure SLR1Table where
  terminals : List String
  nonterminals : List String
  rows : List SLR1Row
  deriving DecidableEq

namespace SLR1Row

/-- What stands in the action cells of a state; nothing in those that are empty. -/
def cells? (g : Grammar) (table : SLR1.Table) (state : Nat)
    (spell : SLR1.Action → Option String) : Option (List String) :=
  g.terminals.mapM fun t => (table.action? state t).elim (some "") spell

def of? (g : Grammar) (table : SLR1.Table) (state : Nat) : Option SLR1Row := do
  let actions ← cells? g table state (SLR1.Action.text? g)
  let latexActions ← cells? g table state (SLR1.Action.latex? g)
  return ⟨actions, latexActions, g.nonterminals.map fun n => table.goto? state n.index⟩

def gotoTexts (r : SLR1Row) : List String := r.gotos.map fun target => target.elim "" toString

def text (state : Nat) (r : SLR1Row) : List String := toString state :: (r.actions ++ r.gotoTexts)

def latex (state : Nat) (r : SLR1Row) : String :=
  " & ".intercalate (toString state :: (r.latexActions ++ r.gotoTexts))

end SLR1Row

namespace SLR1Table

def of? (g : Grammar) (table : SLR1.Table) : Option SLR1Table := do
  let terminals ← g.names? g.terminals
  let nonterminals ← g.names? (g.nonterminals.map Nonterminal.index)
  let rows ← (List.range table.stateCount).mapM (SLR1Row.of? g table)
  return ⟨terminals, nonterminals, rows⟩

def grid (t : SLR1Table) : List (List String) :=
  ("" :: (t.terminals ++ t.nonterminals)) :: t.rows.zipIdx.map fun (r, state) => r.text state

def text (t : SLR1Table) : String := Grid.render t.grid

def latex (t : SLR1Table) : String :=
  let columns := "c" ++ String.join ((t.terminals ++ t.nonterminals).map fun _ => "|l")
  let heading (count : Nat) (column title : String) :=
    Latex.command "multicolumn" (toString count) ++ Latex.braced column ++ Latex.braced title
  Latex.begin "tabular" ++ Latex.braced columns ++ "\n" ++
    " & " ++ heading t.terminals.length "c" "action" ++
    " & " ++ heading t.nonterminals.length "|c" "goto" ++ Latex.lineBreak ++ "\n" ++
    " & ".intercalate ("" :: (t.terminals ++ t.nonterminals).map Latex.escape) ++
    " " ++ Latex.lineBreak ++ "\\hline\n" ++
    (" " ++ Latex.lineBreak ++ "\n").intercalate
      (t.rows.zipIdx.map fun (r, state) => r.latex state) ++
    "\n" ++ Latex.finish "tabular"

def json (t : SLR1Table) : Json :=
  .obj [("terminals", .strs t.terminals), ("non_terminals", .strs t.nonterminals),
    ("action", .arr (t.rows.map fun r => .strs r.actions)),
    ("goto", .arr (t.rows.map fun r => .arr (r.gotos.map fun target => target.elim .null .num)))]

end SLR1Table
end Report
end Lookahead
