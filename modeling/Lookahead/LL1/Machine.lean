import Lookahead.LL1.Table
import Lookahead.Machine.Run

/-!
The predictive machine. Its stack holds the symbols that the rest of the input has to derive, above
an end mark that is not written down.
-/

namespace Lookahead.LL1

open Machine

/-- The machine starts with the start symbol on its stack, if that is not the empty string. -/
def initial (g : Grammar) (tokens : List String) : Config Nat :=
  ⟨if g.start = epsilon then [] else [g.start], g.input tokens⟩

/-- The symbol on top of the stack, which is the end mark once there is no other. -/
def top (c : Config Nat) : Nat := c.stack.head?.getD endMark

/-- The alternative to take for the symbol on top. -/
def prediction? (g : Grammar) (table : Table) (c : Config Nat) : Option Nat :=
  if g.isNonterminal (top c) then c.current.bind (table.find? (top c)) else none

/-- Matches a terminal, replaces a nonterminal by the alternative in its cell, accepts the end mark
on the end mark, or rejects. -/
def turn (g : Grammar) (table : Table) (c : Config Nat) : Turn Nat :=
  if c.current = some (top c) then
    if top c = endMark then .halt .accept true
    else .next (.matched (top c)) ⟨c.stack.tail, c.rest.tail⟩
  else
    match prediction? g table c with
    | none => .halt .reject false
    | some p =>
      let body := g.body (top c) p
      if (g.names? body).isSome then
        .next (.produce (top c) p) ⟨body.visible ++ c.stack.tail, c.rest⟩
      else .fault

def runFor (limit : Nat) (g : Grammar) (table : Table) (tokens : List String) : Run Nat :=
  run (turn g table) limit (initial g tokens)

end Lookahead.LL1
