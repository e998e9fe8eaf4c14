import Lookahead.LR0.Automaton
import Lookahead.Pairs
import Lookahead.Sets.Follow

/-!
What keeps a state of the automaton and one token of lookahead from choosing an action.
-/

namespace Lookahead.SLR1

inductive Conflict where
  /-- The terminals can be shifted, and what can follow the item too. -/
  | shiftReduce (state : Nat) (reduce : Item) (terminals : SortedSet Nat)
  /-- Two items can be reduced on the same terminals. -/
  | reduceReduce (state : Nat) (first second : Item) (terminals : SortedSet Nat)
  /-- The accepting state reduces an item on the end mark. -/
  | acceptReduce (state : Nat) (reduce : Item)
  deriving DecidableEq

open LR0 in
def conflictsOf (a : Automaton) (follow : FollowSets) (state : Nat) (items : ItemSet) :
    List Conflict :=
  let reducible := a.reducible items
  let shiftable := a.shiftable items
  let accepting :=
    if a.accepts items then
      (reducible.filter fun r => endMark ∈ follow.ofSymbol r.left).map (.acceptReduce state ·)
    else []
  let shifting := reducible.filterMap fun r =>
    let shared := (follow.ofSymbol r.left).inter shiftable
    if shared.isEmpty then none else some (.shiftReduce state r shared)
  let reducing := (pairs reducible).filterMap fun (r, s) =>
    let shared := (follow.ofSymbol r.left).inter (follow.ofSymbol s.left)
    if shared.isEmpty then none else some (.reduceReduce state r s shared)
  accepting ++ shifting ++ reducing

/-- All conflicts, state by state. -/
def conflicts (a : LR0.Automaton) (follow : FollowSets) : List Conflict :=
  a.states.toList.zipIdx.flatMap fun (s, i) => conflictsOf a follow i s.items

end Lookahead.SLR1
