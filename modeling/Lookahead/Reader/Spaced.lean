import Lookahead.Reader.Rule

/-!
The spaced notation: a line `A -> x y | z` holds a rule whose symbols are separated by blanks, and a
line that starts with a bar goes on with the rule before it. The first left side is the start symbol.
-/

namespace Lookahead.Reader.Spaced

/-- The alternatives on a right side, word by word. -/
def alternatives (right : List Char) : List (List String) :=
  (Text.splitOn '|' right).map fun alternative => (Text.words alternative).map String.ofList

/-- The left side of a line, declared, and the text to the right of it. `previous` is the left side
that a line with a bar belongs to. -/
def readLine (g : Grammar) (previous : Option Nat) (n : Nat) (line : List Char) :
    Except ReadError (Grammar × Nat × List Char) :=
  match Text.splitArrows line with
  | [left, right] => do
    let (g, i) ← declare g n left
    return (g, i, right)
  | [single] =>
    match previous, Text.trim single with
    | none, _ => .error (.malformed n .noLeftSide)
    | some i, '|' :: right => .ok (g, i, right)
    | some _, _ => .error (.malformed n .neitherArrowNorBar)
  | _ => .error (.malformed n .manyArrows)

/-- The first round. -/
def declareAll (g : Grammar) (previous : Option Nat) :
    List (Nat × List Char) → Except ReadError (Grammar × List Rule)
  | [] => .ok (g, [])
  | (n, line) :: rest => do
    let (g, left, right) ← readLine g previous n line
    let (g, rules) ← declareAll g (some left) rest
    return (g, ⟨n, left, alternatives right⟩ :: rules)

def read (cs : List Char) : Except ReadError Grammar := do
  let (g, rules) ← declareAll ∅ none (numberedLines cs)
  if rules.isEmpty then throw .noRules
  addRules g rules

end Lookahead.Reader.Spaced
