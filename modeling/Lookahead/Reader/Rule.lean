import Lookahead.Grammar.Basic
import Lookahead.Reader.Error
import Lookahead.Text

/-!
What both notations share. A grammar is read in two rounds: the first declares every left side, the
second resolves the alternatives, so that a name is a nonterminal wherever a rule for it stands.
-/

namespace Lookahead.Reader

/-- A rule whose left side is declared: the line it stands on and its alternatives as they are
spelled. -/
structure Rule where
  line : Nat
  left : Nat
  alternatives : List (List String)
  deriving DecidableEq

/-- The number of the nonterminal on a left side, which is added if it is new. -/
def declare (g : Grammar) (line : Nat) (left : List Char) : Except ReadError (Grammar × Nat) :=
  let left := Text.trim left
  if left.isEmpty then .error (.malformed line .emptyLeftSide)
  else if left.any Text.isBlank then .error (.malformed line .blankInLeftSide)
  else
    let name := String.ofList left
    match g.index? name with
    | none => .ok (g.addNonterminal name, g.size)
    | some i =>
      if g.isNonterminal i then .ok (g, i)
      else .error (.malformed line (.reservedLeftSide name))

/-- The number of a symbol on a right side. A name that nothing goes by yet is a terminal. -/
def resolve (g : Grammar) (line : Nat) (name : String) : Except ReadError (Grammar × Nat) :=
  if name = endMarkName then .error (.malformed line .endMarkInBody)
  else
    match g.index? name with
    | some i => .ok (g, i)
    | none => .ok (g.addTerminal name, g.size)

def resolveAll (g : Grammar) (line : Nat) : List String → Except ReadError (Grammar × Body)
  | [] => .ok (g, [])
  | name :: names => do
    let (g, i) ← resolve g line name
    let (g, body) ← resolveAll g line names
    return (g, i :: body)

def addAlternative (g : Grammar) (line left : Nat) (alternative : List String) :
    Except ReadError Grammar := do
  let (g, body) ← resolveAll g line alternative
  return g.addBody left body

/-- The second round. -/
def addRules (g : Grammar) (rules : List Rule) : Except ReadError Grammar :=
  rules.foldlM (fun g rule =>
    rule.alternatives.foldlM (fun g alternative => addAlternative g rule.line rule.left alternative)
      g) g

/-- The lines of a text that are not blank, numbered from 1 with the blank ones counted. -/
def numberedLines (cs : List Char) : List (Nat × List Char) :=
  ((Text.lines cs).zipIdx 1).filterMap fun (line, n) =>
    if line.all Text.isBlank then none else some (n, line)

end Lookahead.Reader
