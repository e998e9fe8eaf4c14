import Lookahead.Analysis
import Lookahead.Report.Item
import Lookahead.Report.Json
import Lookahead.Report.Latex
import Lookahead.Report.Name

/-!
Whether a grammar is LL(1) and SLR(1), and what stands in the way.
-/

namespace Lookahead

namespace LL1.Conflict

def text? (g : Grammar) : Conflict → Option String
  | firstFirst left i j terminals => do
    return "FIRST/FIRST conflict between " ++ (← g.ruleText? left i) ++ " and " ++
      (← g.ruleText? left j) ++ " on " ++ (← g.listText? terminals.toList)
  | firstFollow left terminals => do
    return "FIRST/FOLLOW conflict for " ++ (← g.name? left) ++ " on " ++
      (← g.listText? terminals.toList)
  | bothVanish left i j terminals => do
    return (← g.ruleText? left i) ++ " and " ++ (← g.ruleText? left j) ++ " both derive " ++
      epsilonName ++ " on " ++ (← g.listText? terminals.toList)

end LL1.Conflict

namespace SLR1.Conflict

/-- `g` is the grammar of the automaton. -/
def text? (g : Grammar) : Conflict → Option String
  | shiftReduce state r terminals => do
    return "shift/reduce conflict in I" ++ toString state ++ " between shift and reduce " ++
      (← g.itemText? r) ++ " on " ++ (← g.listText? terminals.toList)
  | reduceReduce state r s terminals => do
    return "reduce/reduce conflict in I" ++ toString state ++ " between " ++ (← g.itemText? r) ++
      " and " ++ (← g.itemText? s) ++ " on " ++ (← g.listText? terminals.toList)
  | acceptReduce state r => do
    return "accept/reduce conflict in I" ++ toString state ++ " between accept and reduce " ++
      (← g.itemText? r) ++ " on " ++ endMarkName

end SLR1.Conflict

namespace LL1.Collision

def message? (g : Grammar) (c : Collision) : Option String := do
  return "not LL(1): " ++ (← g.name? c.nonterminal) ++ " on \"" ++ (← g.name? c.terminal) ++
    "\" predicts both " ++ (← g.ruleText? c.nonterminal c.first) ++ " and " ++
    (← g.ruleText? c.nonterminal c.second)

end LL1.Collision

namespace Report

structure Classification where
  ll1 : Bool
  slr1 : Bool
  ll1Conflicts : List String
  slr1Conflicts : List String
  deriving DecidableEq

namespace Classification

def of? (g : Grammar) (a : Analysis) : Option Classification := do
  let ll1Conflicts ← a.ll1Conflicts.mapM (LL1.Conflict.text? g)
  let slr1Conflicts ← a.slr1Conflicts.mapM (SLR1.Conflict.text? a.automaton.grammar)
  return ⟨a.isLL1, a.isSLR1, ll1Conflicts, slr1Conflicts⟩

def verdict (c : Classification) : String :=
  match c.ll1, c.slr1 with
  | true, true => "Grammar is both LL(1) and SLR(1)."
  | true, false => "Grammar is LL(1)."
  | false, true => "Grammar is SLR(1)."
  | false, false => "Grammar is neither LL(1) nor SLR(1)."

def text (c : Classification) : String :=
  "\n".intercalate
    ([c.verdict] ++ c.ll1Conflicts.map ("LL(1): " ++ ·) ++ c.slr1Conflicts.map ("SLR(1): " ++ ·))

def latex (c : Classification) : String :=
  let verdict := Latex.command "textbf" c.verdict
  let items := c.ll1Conflicts.map ("\\item LL(1): " ++ Latex.escape ·) ++
    c.slr1Conflicts.map ("\\item SLR(1): " ++ Latex.escape ·)
  if items.isEmpty then verdict
  else "\n".intercalate ([verdict, Latex.begin "itemize"] ++ items ++ [Latex.finish "itemize"])

def json (c : Classification) : Json :=
  .obj [("ll1", .bool c.ll1), ("slr1", .bool c.slr1), ("ll1_conflicts", .strs c.ll1Conflicts),
    ("slr1_conflicts", .strs c.slr1Conflicts)]

end Classification
end Report
end Lookahead
