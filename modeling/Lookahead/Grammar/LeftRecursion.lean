import Lookahead.Grammar.Basic

/-!
Removing left recursion. Nonterminals are taken in order. Alternatives of `A` that begin with an
earlier nonterminal get its alternatives put in, after which `A -> A α | β` becomes `A -> β A'` and
`A' -> α A' | ϵ`. Alternatives `A -> A` are left out.
-/

namespace Lookahead

/-- A nonterminal whose left recursion was removed, and the nonterminal that took it over. -/
structure Replacement where
  name : String
  helper : String
  deriving DecidableEq

namespace Grammar

/-- Two pieces of a body put together. -/
def splice (front rest : Body) : Body := (front ++ rest).visible

/-- The alternatives of a nonterminal, with those of a nonterminal in `earlier` put in wherever one
stands first. -/
def expandFirst (g : Grammar) (earlier : List Nat) (bodies : List Body) : List Body :=
  bodies.flatMap fun body =>
    match body with
    | first :: rest =>
      if first ∈ earlier then (g.bodies first).map (splice · rest) else [body]
    | [] => [body]

/-- What stands after the left side in the alternatives that begin with it, where anything does. -/
def recursiveTails (left : Nat) (bodies : List Body) : List Body :=
  bodies.filterMap fun body =>
    match body with
    | first :: rest => if first = left ∧ rest ≠ [] then some rest else none
    | [] => none

def nonRecursive (left : Nat) (bodies : List Body) : List Body :=
  bodies.filter fun body => body.head? ≠ some left

/-- The rules of the nonterminal `left` without its left recursion, and the helper if one was
needed. Nonterminals in `earlier` are already done. -/
def removeRecursionOf (g : Grammar) (earlier : List Nat) (left : Nonterminal) :
    Grammar × Option Replacement :=
  let bodies := g.expandFirst earlier (g.bodies left.index)
  let tails := recursiveTails left.index bodies
  let others := nonRecursive left.index bodies
  let cleared := g.clearBodies left.index
  if tails.isEmpty then (cleared.addBodies left.index others, none)
  else
    let name := g.freshName left.name
    let helper := g.size
    let g := (cleared.addNonterminal name).addBodies left.index
      (others.map fun body => body.visible ++ [helper])
    (g.addBodies helper (tails.map (· ++ [helper]) ++ [[epsilon]]), some ⟨left.name, name⟩)

/-- Goes through the nonterminals that are left to do. -/
def removeRecursionFrom (g : Grammar) (earlier : List Nat) :
    List Nonterminal → Grammar × List Replacement
  | [] => (g, [])
  | left :: rest =>
    let (g, replacement) := g.removeRecursionOf earlier left
    let (g, replacements) := removeRecursionFrom g (earlier ++ [left.index]) rest
    (g, replacement.toList ++ replacements)

/-- The grammar without left recursion, and the nonterminals that had to be split, in order. -/
def removeLeftRecursion (g : Grammar) : Grammar × List Replacement :=
  g.removeRecursionFrom [] g.nonterminals

/-- A grammar for the same language without left recursion. -/
def withoutLeftRecursion (g : Grammar) : Grammar := g.removeLeftRecursion.1

end Grammar
end Lookahead
