import Lookahead.Grammar.Basic

/-!
Names of rules and symbols in running text. A text that would name a symbol which the grammar lacks
does not exist.
-/

namespace Lookahead

/-- A left side with some of its alternatives, by name. -/
structure NamedRule where
  left : String
  rights : List (List String)
  deriving DecidableEq

namespace Grammar

/-- A rule as it is written, `A -> x y`. -/
def ruleText? (g : Grammar) (left production : Nat) : Option String := do
  let name ← g.name? left
  let right ← g.names? (g.body left production)
  return name ++ " -> " ++ " ".intercalate right

/-- The names of terminals, in the order of their numbers. -/
def listText? (g : Grammar) (terminals : List Nat) : Option String :=
  (g.names? terminals).map (", ".intercalate ·)

end Grammar
end Lookahead
