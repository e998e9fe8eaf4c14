import Lookahead.Grammar.Basic
import Lookahead.Sets.Settle
import Lookahead.SortedSet

/-!
FIRST sets: the terminals that can begin what a symbol derives, and whether it derives the empty
string. They are the least sets closed under the rules, reached by sweeping over all nonterminals
until a sweep changes nothing.
-/

namespace Lookahead

structure FirstSet where
  terminals : SortedSet Nat
  nullable : Bool
  deriving DecidableEq

namespace FirstSet

/-- The set of something that derives nothing, as far as is known. -/
def none : FirstSet := ⟨∅, false⟩

/-- The set of the empty string. -/
def nothing : FirstSet := ⟨∅, true⟩

/-- The set of a terminal. -/
def terminal (t : Nat) : FirstSet := ⟨.singleton t, false⟩

/-- The set of a choice. -/
def or (a b : FirstSet) : FirstSet := ⟨a.terminals ∪ b.terminals, a.nullable || b.nullable⟩

/-- The set of a sequence. -/
def andThen (a b : FirstSet) : FirstSet :=
  if a.nullable then ⟨a.terminals ∪ b.terminals, b.nullable⟩ else a

end FirstSet

/-- One FIRST set for each symbol of a grammar. -/
abbrev FirstTable := Array FirstSet

namespace FirstTable

/-- The set of a symbol. One outside the grammar counts as a terminal. -/
def ofSymbol (table : FirstTable) (s : Nat) : FirstSet := table[s]?.getD (.terminal s)

def ofSequence (table : FirstTable) (symbols : List Nat) : FirstSet :=
  symbols.foldr (fun s rest => (table.ofSymbol s).andThen rest) .nothing

def ofBodies (table : FirstTable) (bodies : List Body) : FirstSet :=
  bodies.foldl (fun first body => first.or (table.ofSequence body)) .none

end FirstTable

namespace Grammar

/-- What is known before any rule is looked at. -/
def initialFirst (g : Grammar) : FirstTable :=
  (Array.range g.size).map fun i =>
    if g.isTerminal i then .terminal i else if i = epsilon then .nothing else .none

/-- Brings the set of one nonterminal up to date. -/
def updateFirst (table : FirstTable) (n : Nonterminal) : FirstTable :=
  table.setIfInBounds n.index (table.ofBodies n.bodies)

/-- Brings every set up to date, each with the news of those before it. -/
def sweepFirst (g : Grammar) (table : FirstTable) : FirstTable :=
  g.nonterminals.foldl updateFirst table

/-- More sweeps than there are facts to find: at most one for each nonterminal and each symbol that
occurs in a grammar or in its rules. -/
def sweepLimit (g : Grammar) : Nat := g.size * (g.size + g.occurrences + 1) + 1

end Grammar

/-- The FIRST sets of a grammar, and how many sweeps it took to find them. -/
structure FirstSets where
  table : FirstTable
  sweeps : Nat
  deriving DecidableEq

namespace FirstSets

def ofSymbol (first : FirstSets) (s : Nat) : FirstSet := first.table.ofSymbol s

/-- The set of a string of symbols. The empty string is nullable. -/
def ofSequence (first : FirstSets) (symbols : List Nat) : FirstSet :=
  first.table.ofSequence symbols

end FirstSets

def Grammar.firstSets (g : Grammar) : FirstSets :=
  let (table, sweeps) := settle g.sweepFirst g.sweepLimit g.initialFirst
  ⟨table, sweeps⟩

end Lookahead
