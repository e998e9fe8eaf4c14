import Lookahead.Report.Automaton
import Lookahead.Report.Classification
import Lookahead.Report.LL1Table
import Lookahead.Report.Productions
import Lookahead.Report.SLR1Table
import Lookahead.Report.Sets

/-!
What there is to see of a grammar, and the styles in which it can be written.
-/

namespace Lookahead.Report

inductive View where
  | productions
  | sets
  | classification
  | ll1Table
  | automaton
  | slr1Table
  deriving DecidableEq

inductive Style where
  | plain
  | latex
  | json
  deriving DecidableEq

namespace View

/-- The view that goes by a short name. -/
def ofName? : String → Option View
  | "prod" => some productions
  | "ff" => some sets
  | "class" => some classification
  | "ll1" => some ll1Table
  | "lr0fsm" => some automaton
  | "slr1table" => some slr1Table
  | _ => none

end View

namespace Style

/-- One of three texts. -/
def choose (style : Style) (plain latex : String) (json : Json) : String :=
  match style with
  | .plain => plain
  | .latex => latex
  | .json => json.render

end Style

/-- The text of a view: `some none` where the grammar has no such table, and `none` where it would
name a symbol that the grammar lacks. -/
def render? (g : Grammar) (a : Analysis) (style : Style) : View → Option (Option String)
  | .productions => do
    let p ← Productions.of? g
    return some (style.choose p.text p.latex p.json)
  | .sets => do
    let s ← Sets.of? g a
    return some (style.choose s.text s.latex s.json)
  | .classification => do
    let c ← Classification.of? g a
    return some (style.choose c.text c.latex c.json)
  | .ll1Table =>
    match a.ll1Table with
    | none => some none
    | some table => do
      let t ← LL1Table.of? g table
      return some (style.choose t.text t.latex t.json)
  | .automaton => do
    let m ← Automaton.of? a.automaton
    let drawing ← Drawing.latex? a.automaton
    return some (style.choose m.text drawing m.json)
  | .slr1Table =>
    match a.slr1Table with
    | none => some none
    | some table => do
      let t ← SLR1Table.of? g table
      return some (style.choose t.text t.latex t.json)

end Lookahead.Report
