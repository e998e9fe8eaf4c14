import Lookahead.Reader.Rule

/-!
The compact notation: a count `N` and `N` lines `A -> aB | e`, in which every character is a symbol.
An alternative that is just `e` is the empty string. `S` must have a rule and is the start symbol.
-/

namespace Lookahead.Reader.Compact

def startName : String := "S"

/-- The alternatives on a right side, character by character. -/
def alternatives (right : List Char) : List (List String) :=
  (Text.splitOn '|' right).map fun alternative =>
    let symbols := Text.squeeze alternative
    if symbols = ['e'] then [] else symbols.map fun c => String.ofList [c]

def readLine (g : Grammar) (n : Nat) (line : List Char) :
    Except ReadError (Grammar × Nat × List Char) :=
  match Text.splitArrows line with
  | [left, right] => do
    let (g, i) ← declare g n left
    return (g, i, right)
  | [] | [_] => .error (.malformed n .noArrow)
  | _ => .error (.malformed n .manyArrows)

/-- The first round. -/
def declareAll (g : Grammar) : List (Nat × List Char) → Except ReadError (Grammar × List Rule)
  | [] => .ok (g, [])
  | (n, line) :: rest => do
    let (g, left, right) ← readLine g n line
    let (g, rules) ← declareAll g rest
    return (g, ⟨n, left, alternatives right⟩ :: rules)

/-- The rule lines that the count asks for. -/
def ruleLines (cs : List Char) : Except ReadError (List (Nat × List Char)) :=
  match numberedLines cs with
  | [] => .error .noRules
  | (n, line) :: rest =>
    match Text.count? (Text.trim line) with
    | none => .error (.malformed n .noCount)
    | some count =>
      if count = 0 then .error .noRules
      else if rest.length < count then .error (.missingRules count rest.length)
      else .ok (rest.take count)

def read (cs : List Char) : Except ReadError Grammar := do
  let lines ← ruleLines cs
  let (g, rules) ← declareAll ∅ lines
  let g ← addRules g rules
  match g.index? startName with
  | some i => if g.isNonterminal i then return { g with start := i } else throw (.missingStart startName)
  | none => throw (.missingStart startName)

end Lookahead.Reader.Compact
