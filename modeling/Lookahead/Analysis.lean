import Lookahead.LL1.Conflict
import Lookahead.LL1.Table
import Lookahead.SLR1.Conflict
import Lookahead.SLR1.Table

/-!
Everything that follows from a grammar, found once.
-/

namespace Lookahead

structure Analysis where
  first : FirstSets
  follow : FollowSets
  automaton : LR0.Automaton
  ll1Conflicts : List LL1.Conflict
  slr1Conflicts : List SLR1.Conflict
  /-- The predictive table, unless there are conflicts. -/
  ll1Table : Option LL1.Table
  /-- The shift-reduce tables, unless there are conflicts. -/
  slr1Table : Option SLR1.Table
  deriving DecidableEq

namespace Analysis

def isLL1 (a : Analysis) : Bool := a.ll1Conflicts.isEmpty

def isSLR1 (a : Analysis) : Bool := a.slr1Conflicts.isEmpty

end Analysis

/-- The analysis of a grammar, if its start symbol is one of its symbols. -/
def Grammar.analyze? (g : Grammar) : Option Analysis := do
  let automaton ← g.automaton?
  let first := g.firstSets
  let follow := g.followSets first
  let ll1Conflicts := LL1.conflicts g first follow
  let slr1Conflicts := SLR1.conflicts automaton follow
  return {
    first, follow, automaton, ll1Conflicts, slr1Conflicts
    ll1Table := if ll1Conflicts.isEmpty then (LL1.buildTable g first follow).toOption else none
    slr1Table := if slr1Conflicts.isEmpty then (SLR1.buildTable automaton follow).toOption else none }

end Lookahead
