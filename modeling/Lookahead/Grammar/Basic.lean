import Lookahead.SortedMap

/-!
Context-free grammars over numbered symbols. Symbol 0 is the empty string, written as a nonterminal
without alternatives, and symbol 1 is the end of the input. An alternative that derives the empty
string at once has the body `[0]`; every other body is free of 0.
-/

namespace Lookahead

/-- The number of the empty string. -/
def epsilon : Nat := 0

/-- The number of the mark that ends the input. -/
def endMark : Nat := 1

def epsilonName : String := "ϵ"

/-- A second spelling that reads as the empty string. -/
def epsilonAlias : String := "ε"

def endMarkName : String := "$"

/-- The symbols on the right of a rule, as numbers. -/
abbrev Body := List Nat

/-- The symbols of a body that stand for something in the input. -/
def Body.visible (body : Body) : Body := body.filter (· ≠ epsilon)

def Body.isEpsilon (body : Body) : Bool := body.all (· == epsilon)

/-- The one way to write a body: 0 is left out, unless nothing else is there. -/
def Body.normalize (body : Body) : Body :=
  if body.visible.isEmpty then [epsilon] else body.visible

structure Nonterminal where
  index : Nat
  name : String
  bodies : List Body
  deriving DecidableEq

inductive Symbol where
  | nonterminal (n : Nonterminal)
  | terminal (name : String)
  deriving DecidableEq

namespace Symbol

def name : Symbol → String
  | nonterminal n => n.name
  | terminal name => name

def nonterminal? : Symbol → Option Nonterminal
  | nonterminal n => some n
  | terminal _ => none

def isTerminal : Symbol → Bool
  | nonterminal _ => false
  | terminal _ => true

def mapBodies (f : List Body → List Body) : Symbol → Symbol
  | nonterminal n => nonterminal { n with bodies := f n.bodies }
  | terminal name => terminal name

end Symbol

/-- A grammar: its symbols in the order of their numbers, the numbers that names stand for, and the
start symbol, which is the empty string as long as there is no nonterminal. -/
structure Grammar where
  symbols : Array Symbol
  names : SortedMap String Nat
  start : Nat
  deriving DecidableEq

namespace Grammar

/-- The grammar without rules. It derives the empty string only. -/
def empty : Grammar where
  symbols := #[.nonterminal ⟨epsilon, epsilonName, []⟩, .terminal endMarkName]
  names := .ofList [(epsilonName, epsilon), (epsilonAlias, epsilon), (endMarkName, endMark)]
  start := epsilon

instance : EmptyCollection Grammar := ⟨empty⟩

instance : Inhabited Grammar := ⟨∅⟩

variable (g : Grammar)

/-- How many symbols there are, and so the number of the next one. -/
def size : Nat := g.symbols.size

def name? (i : Nat) : Option String := g.symbols[i]?.map Symbol.name

/-- The names of the symbols of a list, if every one of them is a symbol of the grammar. -/
def names? (l : List Nat) : Option (List String) := l.mapM g.name?

def index? (name : String) : Option Nat := g.names.find? name

/-- The nonterminal with the number `i`; the empty string counts as one here. -/
def nonterminal? (i : Nat) : Option Nonterminal := g.symbols[i]?.bind Symbol.nonterminal?

/-- All nonterminals but the empty string, in the order of their numbers. -/
def nonterminals : List Nonterminal := (g.symbols.toList.filterMap Symbol.nonterminal?).drop 1

def isTerminal (i : Nat) : Bool := g.symbols[i]?.any Symbol.isTerminal

/-- Whether `i` is a nonterminal. The empty string is neither a terminal nor a nonterminal. -/
def isNonterminal (i : Nat) : Bool := i != epsilon && (g.nonterminal? i).isSome

/-- All terminals, with the end mark. -/
def terminals : List Nat := (List.range g.size).filter g.isTerminal

def bodies (left : Nat) : List Body := (g.nonterminal? left).elim [] Nonterminal.bodies

/-- Alternative number `production` of `left`. One that is not there has nothing on its right. -/
def body (left production : Nat) : Body := (g.bodies left)[production]?.getD []

def addNonterminal (name : String) : Grammar where
  symbols := g.symbols.push (.nonterminal ⟨g.size, name, []⟩)
  names := g.names.insert name g.size
  start := if g.start = epsilon then g.size else g.start

def addTerminal (name : String) : Grammar :=
  { g with
    symbols := g.symbols.push (.terminal name)
    names := g.names.insert name g.size }

/-- Changes the alternatives of `left`, if that is a nonterminal. -/
def updateBodies (left : Nat) (f : List Body → List Body) : Grammar :=
  if left = epsilon then g else { g with symbols := g.symbols.modify left (Symbol.mapBodies f) }

def clearBodies (left : Nat) : Grammar := g.updateBodies left fun _ => []

/-- Appends an alternative to `left`, if that is a nonterminal. -/
def addBody (left : Nat) (body : Body) : Grammar := g.updateBodies left (· ++ [body.normalize])

def addBodies (left : Nat) (bodies : List Body) : Grammar :=
  bodies.foldl (fun g body => g.addBody left body) g

/-- Appends an apostrophe to `name` up to `limit` times, until no symbol goes by it. -/
def primed : Nat → String → String
  | 0, name => name
  | limit + 1, name => if g.names.contains name then primed limit (name.push '\x27') else name

/-- The first name that no symbol goes by among `name`, `name` with an apostrophe, with two, and so
on. One more candidate than there are names is enough. -/
def freshName (name : String) : String := g.primed g.names.size name

/-- How many symbols there are in all bodies together. -/
def occurrences : Nat := (g.nonterminals.flatMap Nonterminal.bodies).flatten.length

end Grammar
end Lookahead
