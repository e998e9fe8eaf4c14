import Lookahead.Pairs
import Lookahead.Sets.Follow

/-!
What keeps one token of lookahead from choosing an alternative.
-/

namespace Lookahead.LL1

inductive Conflict where
  /-- Two alternatives can begin with the same terminals. -/
  | firstFirst (nonterminal i j : Nat) (terminals : SortedSet Nat)
  /-- A nonterminal that can vanish can begin with what may follow it. -/
  | firstFollow (nonterminal : Nat) (terminals : SortedSet Nat)
  /-- Two alternatives can vanish, so both are predicted on whatever may follow. -/
  | bothVanish (nonterminal i j : Nat) (terminals : SortedSet Nat)
  deriving DecidableEq

/-- The conflict of two alternatives of `left`, each given by its FIRST set and its number. -/
def pairConflict (left : Nat) (followers : SortedSet Nat) :
    (FirstSet × Nat) × (FirstSet × Nat) → Option Conflict
  | ((a, i), (b, j)) =>
    let shared := a.terminals.inter b.terminals
    if a.nullable && b.nullable then
      let clash := shared ∪ followers
      if clash.isEmpty then none else some (.bothVanish left i j clash)
    else if shared.isEmpty then none
    else some (.firstFirst left i j shared)

/-- The conflict of a nonterminal that can vanish with what follows it. -/
def vanishConflict (left : Nat) (own : FirstSet) (followers : SortedSet Nat) : Option Conflict :=
  let shared := own.terminals.inter followers
  if own.nullable && !shared.isEmpty then some (.firstFollow left shared) else none

def conflictsOf (first : FirstSets) (follow : FollowSets) (n : Nonterminal) : List Conflict :=
  let followers := follow.ofSymbol n.index
  (pairs (n.bodies.map first.ofSequence).zipIdx).filterMap (pairConflict n.index followers) ++
    (vanishConflict n.index (first.ofSymbol n.index) followers).toList

/-- All conflicts, nonterminal by nonterminal. -/
def conflicts (g : Grammar) (first : FirstSets) (follow : FollowSets) : List Conflict :=
  g.nonterminals.flatMap (conflictsOf first follow)

end Lookahead.LL1
