import Lookahead.LL1.Machine
import Lookahead.Report.Grid
import Lookahead.Report.Json
import Lookahead.Report.Name
import Lookahead.SLR1.Machine

/-!
Traces of runs, by name, as a grid and as JSON.
-/

namespace Lookahead.Report

open Machine

inductive NamedMove where
  | matched (terminal : String)
  | produce (left : String) (right : List String)
  | shift (state : Nat)
  | reduce (left : String) (right : List String)
  | accept
  | reject
  deriving DecidableEq

namespace NamedMove

def of? (g : Grammar) : Move → Option NamedMove
  | .matched t => do return matched (← g.name? t)
  | .produce left production => do
    return produce (← g.name? left) (← g.names? (g.body left production))
  | .shift state => some (shift state)
  | .reduce left production => do
    return reduce (← g.name? left) (← g.names? (g.body left production))
  | .accept => some accept
  | .reject => some reject

def text : NamedMove → String
  | matched t => "Match '" ++ t ++ "'"
  | produce left right => "Produce with " ++ left ++ " -> " ++ " ".intercalate right
  | shift state => "Shift to state " ++ toString state
  | reduce left right => "Reduce by " ++ left ++ " -> " ++ " ".intercalate right
  | accept => "Accept"
  | reject => "Error"

def json : NamedMove → Json
  | matched t => .obj [("Match", .str t)]
  | produce left right => .obj [("Produce", .obj [("left", .str left), ("right", .strs right)])]
  | shift state => .obj [("Shift", .num state)]
  | reduce left right => .obj [("Reduce", .obj [("left", .str left), ("right", .strs right)])]
  | accept => .str "Accept"
  | reject => .str "Error"

end NamedMove

/-- One line of a trace: the stack with its bottom first, the input that is left, and the move. -/
structure Line where
  stack : String
  input : String
  move : NamedMove
  deriving DecidableEq

structure Trace where
  accepted : Bool
  lines : List Line
  deriving DecidableEq

/-- The tokens that are left, with the end mark, which shows even after it was read. -/
def inputText (rest : List Token) : String :=
  " ".intercalate (rest.dropLast.map Token.text ++ [endMarkName])

def ll1Stack? (g : Grammar) (stack : List Nat) : Option String :=
  (g.names? (endMark :: stack.reverse)).map (" ".intercalate ·)

/-- States and symbols in turn, from state 0 on. -/
def slr1Stack? (g : Grammar) (stack : List SLR1.Entry) : Option String := do
  let entries ← stack.reverse.mapM fun e => do return [← g.name? e.symbol, toString e.state]
  return " ".intercalate ("0" :: entries.flatten)

/-- The trace of a run, whose stacks are written by `stack?`. -/
def Trace.of? {σ : Type} (g : Grammar) (stack? : List σ → Option String) (t : Machine.Trace σ) :
    Option Trace := do
  let lines ← t.steps.mapM fun step => do
    let move ← NamedMove.of? g step.move
    return (⟨← stack? step.config.stack, inputText step.config.rest, move⟩ : Line)
  return ⟨t.accepted, lines⟩

namespace Trace

def grid (t : Trace) : List (List String) :=
  ["STACK", "INPUT", "ACTION"] :: t.lines.map fun line => [line.stack, line.input, line.move.text]

def text (t : Trace) : String := Grid.render t.grid

def json (t : Trace) : Json :=
  .obj [("accepted", .bool t.accepted),
    ("steps", .arr (t.lines.map fun line =>
      .obj [("stack", .str line.stack), ("input", .str line.input), ("action", line.move.json)]))]

end Trace

/-- The trace of the predictive machine, unless it fails to halt or meets a symbol without a name. -/
def ll1Trace? (g : Grammar) (table : LL1.Table) (tokens : List String) : Option Trace :=
  (LL1.runFor turnLimit g table tokens).trace?.bind (Trace.of? g (ll1Stack? g))

/-- The trace of the shift-reduce machine, on the same terms. -/
def slr1Trace? (g : Grammar) (table : SLR1.Table) (tokens : List String) : Option Trace :=
  (SLR1.runFor turnLimit g table tokens).trace?.bind (Trace.of? g (slr1Stack? g))

end Lookahead.Report
