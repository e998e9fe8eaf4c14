import Lookahead.Machine.Run
import Lookahead.SLR1.Table

/-!
The shift-reduce machine. Its stack holds the symbols it has read or reduced to, each with the state
reached over it, above state 0.
-/

namespace Lookahead.SLR1

open Machine

structure Entry where
  symbol : Nat
  state : Nat
  deriving DecidableEq

def initial (g : Grammar) (tokens : List String) : Config Entry := ⟨[], g.input tokens⟩

/-- The state on top of a stack. -/
def topState (stack : List Entry) : Nat := (stack.head?.map Entry.state).getD 0

/-- Takes the symbols of an alternative off the stack and puts its left side there. The run ends if
there are too few of them, or if nothing leads on from the state they uncover. -/
def reduce (g : Grammar) (table : Table) (c : Config Entry) (left production : Nat) : Turn Entry :=
  let body := g.body left production
  if (g.names? (left :: body)).isNone then .fault
  else
    let count := body.visible.length
    let stack := c.stack.drop count
    if c.stack.length < count then .halt (.reduce left production) false
    else
      match table.goto? (topState stack) left with
      | some state => .next (.reduce left production) ⟨⟨left, state⟩ :: stack, c.rest⟩
      | none => .halt (.reduce left production) false

/-- Does what the cell of the top state and the terminal at hand says, or rejects. -/
def turn (g : Grammar) (table : Table) (c : Config Entry) : Turn Entry :=
  match c.current with
  | none => .halt .reject false
  | some t =>
    match table.action? (topState c.stack) t with
    | some (.shift state) => .next (.shift state) ⟨⟨t, state⟩ :: c.stack, c.rest.tail⟩
    | some (.reduce left production) => reduce g table c left production
    | some .accept => .halt .accept true
    | none => .halt .reject false

def runFor (limit : Nat) (g : Grammar) (table : Table) (tokens : List String) : Run Entry :=
  run (turn g table) limit (initial g tokens)

end Lookahead.SLR1
