import Lookahead.Sets.First

/-!
FOLLOW sets: the terminals that can stand right after a nonterminal, with the end mark for one that
can stand last. Each rule is read from its right end, with the set of what may come next at hand.
-/

namespace Lookahead

/-- One FOLLOW set for each symbol of a grammar. -/
abbrev FollowTable := Array (SortedSet Nat)

namespace FollowTable

/-- The set of a symbol, empty for one outside the grammar. -/
def ofSymbol (table : FollowTable) (s : Nat) : SortedSet Nat := table[s]?.getD ∅

def add (table : FollowTable) (s : Nat) (terminals : SortedSet Nat) : FollowTable :=
  table.modify s (· ∪ terminals)

end FollowTable

namespace Grammar

/-- Only the end mark after the start symbol is known at first. -/
def initialFollow (g : Grammar) : FollowTable :=
  FollowTable.add (Array.replicate g.size ∅) g.start (.singleton endMark)

/-- Steps over the symbol `s` of a body from the right, where `trailer` holds what may come after
it: the table gains what follows `s`, and what may come after the symbol before `s` is returned. -/
def stepOver (g : Grammar) (first : FirstSets) (s : Nat) (table : FollowTable)
    (trailer : SortedSet Nat) : FollowTable × SortedSet Nat :=
  if s = epsilon then (table, trailer)
  else if g.isNonterminal s then
    let f := first.ofSymbol s
    (table.add s trailer, if f.nullable then trailer ∪ f.terminals else f.terminals)
  else (table, .singleton s)

def followBody (g : Grammar) (first : FirstSets) (left : Nat) (table : FollowTable)
    (body : Body) : FollowTable :=
  (body.foldr (fun s (table, trailer) => g.stepOver first s table trailer)
    (table, table.ofSymbol left)).1

def sweepFollow (g : Grammar) (first : FirstSets) (table : FollowTable) : FollowTable :=
  g.nonterminals.foldl (fun table n => n.bodies.foldl (g.followBody first n.index) table) table

end Grammar

/-- The FOLLOW sets of a grammar, and how many sweeps it took to find them. -/
structure FollowSets where
  table : FollowTable
  sweeps : Nat
  deriving DecidableEq

def FollowSets.ofSymbol (follow : FollowSets) (s : Nat) : SortedSet Nat := follow.table.ofSymbol s

def Grammar.followSets (g : Grammar) (first : FirstSets) : FollowSets :=
  let (table, sweeps) := settle (g.sweepFollow first) g.sweepLimit g.initialFollow
  ⟨table, sweeps⟩

end Lookahead
