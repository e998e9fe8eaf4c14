import Lookahead.Analysis
import Lookahead.Report.Json
import Lookahead.Report.Latex
import Lookahead.Report.Name

/-!
The FIRST and FOLLOW sets of a grammar, by name, as text, as LaTeX and as JSON.
-/

namespace Lookahead.Report

/-- The sets of one nonterminal. The empty string is the last member of a nullable FIRST set. -/
structure SymbolSets where
  name : String
  nullable : Bool
  first : List String
  follow : List String
  deriving DecidableEq

structure Sets where
  rows : List SymbolSets
  deriving DecidableEq

/-- The names of the members of a set, in the order of names. -/
def sortedNames? (g : Grammar) (s : SortedSet Nat) : Option (List String) :=
  (g.names? s.toList).map (·.mergeSort (· ≤ ·))

namespace SymbolSets

def of? (g : Grammar) (a : Analysis) (n : Nonterminal) : Option SymbolSets := do
  let f := a.first.ofSymbol n.index
  let first ← sortedNames? g f.terminals
  let follow ← sortedNames? g (a.follow.ofSymbol n.index)
  return ⟨n.name, f.nullable, if f.nullable then first ++ [epsilonName] else first, follow⟩

def text (s : SymbolSets) : String :=
  " | ".intercalate
    [s.name, if s.nullable then "true" else "false",
      ", ".intercalate s.first, ", ".intercalate s.follow]

def latex (s : SymbolSets) : String :=
  let members (l : List String) :=
    Latex.spellEpsilon "$\\epsilon$" ("\\ ".intercalate (l.map Latex.escape))
  " & ".intercalate
    [Latex.escape s.name, if s.nullable then "true" else "false", members s.first, members s.follow]

def json (s : SymbolSets) : Json :=
  .obj [("name", .str s.name), ("nullable", .bool s.nullable), ("first", .strs s.first),
    ("follow", .strs s.follow)]

end SymbolSets

namespace Sets

def of? (g : Grammar) (a : Analysis) : Option Sets :=
  (g.nonterminals.mapM (SymbolSets.of? g a)).map Sets.mk

def text (s : Sets) : String := "\n".intercalate (s.rows.map SymbolSets.text)

def latex (s : Sets) : String :=
  Latex.begin "tabular" ++ Latex.braced "c|c|c|c" ++ "\n" ++
    "Symbol & Nullable & First & Follow" ++ Latex.lineBreak ++ "\\hline\n" ++
    (Latex.lineBreak ++ "\n ").intercalate (s.rows.map SymbolSets.latex) ++
    Latex.lineBreak ++ "\n" ++ Latex.finish "tabular"

def json (s : Sets) : Json := .obj [("data", .arr (s.rows.map SymbolSets.json))]

end Sets
end Lookahead.Report
