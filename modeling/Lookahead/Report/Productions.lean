import Lookahead.Report.Grid
import Lookahead.Report.Json
import Lookahead.Report.Latex
import Lookahead.Report.Name

/-!
The rules of a grammar, by name, as text, as LaTeX and as JSON.
-/

namespace Lookahead

namespace NamedRule

/-- A rule on one line. The left side is set flush right in `width` columns. -/
def inlineText (width : Nat) (r : NamedRule) : String :=
  match r.rights.map (" ".intercalate ·) with
  | [] => ""
  | first :: more =>
    Grid.padLeft width r.left ++ " -> " ++ first ++ String.join (more.map (" | " ++ ·))

/-- A rule with one line for each alternative. -/
def text (width : Nat) (r : NamedRule) : String :=
  match r.rights.map (" ".intercalate ·) with
  | [] => ""
  | first :: more =>
    "\n".intercalate ((Grid.padLeft width r.left ++ " -> " ++ first) ::
      more.map (Grid.padLeft width "" ++ "  | " ++ ·))

/-- A rule with `arrow` between its sides. -/
def latexWith (arrow : String) (r : NamedRule) : String :=
  if r.rights.isEmpty then ""
  else
    let rights := r.rights.map fun right => " \\ ".intercalate (right.map Latex.escape)
    Latex.spellEpsilon "\\epsilon"
      (Latex.escape r.left ++ arrow ++ " \\mid ".intercalate rights)

def json (r : NamedRule) : Json :=
  .obj [("left", .str r.left), ("rights", .arr (r.rights.map Json.strs))]

end NamedRule

namespace Report

structure Productions where
  rules : List NamedRule
  deriving DecidableEq

namespace Productions

/-- The rules nonterminal by nonterminal, in the order of their numbers. -/
def of? (g : Grammar) : Option Productions := do
  let rules ← g.nonterminals.mapM fun n => do
    let rights ← n.bodies.mapM g.names?
    return (⟨n.name, rights⟩ : NamedRule)
  return ⟨rules⟩

/-- The left sides stand in as many columns as the longest of them takes bytes. -/
def text (p : Productions) : String :=
  let width := (p.rules.map fun r => r.left.utf8ByteSize).foldl max 0
  "\n".intercalate (p.rules.map (NamedRule.text width))

def latex (p : Productions) : String :=
  (Latex.lineBreak ++ "\n").intercalate
    (["\\[" ++ Latex.begin "array" ++ Latex.braced "cll"] ++
      p.rules.map (NamedRule.latexWith " & \\rightarrow &") ++
      [Latex.finish "array" ++ "\\]"])

def json (p : Productions) : Json := .obj [("productions", .arr (p.rules.map NamedRule.json))]

end Productions
end Report
end Lookahead
