import Lookahead.LR0.Automaton
import Lookahead.Sets.Follow

/-!
The action and goto tables of the shift-reduce machine.
-/

namespace Lookahead.SLR1

inductive Action where
  | shift (state : Nat)
  | reduce (left production : Nat)
  | accept
  deriving DecidableEq

/-- One row of actions and one of gotos for each state. An empty cell is an error in the input. -/
structure Table where
  actions : Array (SortedMap Nat Action)
  gotos : Array (SortedMap Nat Nat)
  deriving DecidableEq

/-- Two actions that one terminal calls for in a state. -/
structure Collision where
  state : Nat
  terminal : Nat
  first : Action
  second : Action
  deriving DecidableEq

namespace Table

variable (table : Table)

def action? (state terminal : Nat) : Option Action :=
  table.actions[state]?.bind fun row => row.find? terminal

def goto? (state nonterminal : Nat) : Option Nat :=
  table.gotos[state]?.bind fun row => row.find? nonterminal

def stateCount : Nat := table.actions.size

end Table

open LR0

/-- The actions that an item of a state calls for, terminal by terminal. -/
def actionsOf (a : Automaton) (follow : FollowSets) (state : State) (i : Item) :
    List (Nat × Action) :=
  match a.grammar.nextSymbol i with
  | some symbol =>
    if a.grammar.isTerminal symbol then
      ((state.edges.find? symbol).map fun target => (symbol, .shift target)).toList
    else []
  | none =>
    if i.left = a.accept then [(endMark, .accept)]
    else (follow.ofSymbol i.left).toList.map fun t => (t, .reduce i.left i.production)

/-- Fills a cell of the row of `state`. It may hold the same action already, but no other one. -/
def fill (state : Nat) (row : SortedMap Nat Action) (cell : Nat × Action) :
    Except Collision (SortedMap Nat Action) :=
  match row.find? cell.1 with
  | some other => if other = cell.2 then .ok row else .error ⟨state, cell.1, other, cell.2⟩
  | none => .ok (row.insert cell.1 cell.2)

def actionRow (a : Automaton) (follow : FollowSets) (state : State) (n : Nat) :
    Except Collision (SortedMap Nat Action) :=
  (state.items.toList.flatMap (actionsOf a follow state)).foldlM (fill n) ∅

/-- The edges of a state that carry a nonterminal. -/
def gotoRow (a : Automaton) (state : State) : SortedMap Nat Nat :=
  .ofList (state.edges.entries.filter fun e => a.grammar.isNonterminal e.1)

/-- The tables of an automaton, or the first cell in which two actions meet. -/
def buildTable (a : Automaton) (follow : FollowSets) : Except Collision Table := do
  let actions ← a.states.toList.zipIdx.mapM fun (state, n) => actionRow a follow state n
  return ⟨actions.toArray, a.states.map (gotoRow a)⟩

end Lookahead.SLR1
