import Lookahead.Sets.Follow

/-!
The predictive table: which alternative of a nonterminal to take on which terminal.
-/

namespace Lookahead.LL1

open Std

structure Cell where
  nonterminal : Nat
  terminal : Nat
  deriving DecidableEq

namespace Cell

instance : Ord Cell where
  compare := compareLex (compareOn nonterminal) (compareOn terminal)

instance : TransOrd Cell :=
  inferInstanceAs (TransCmp (compareLex (compareOn nonterminal) (compareOn terminal)))

instance : LawfulEqOrd Cell where
  eq_of_compare {a b} h := by
    obtain ⟨n, t⟩ := a
    obtain ⟨n', t'⟩ := b
    replace h : compareLex (compareOn nonterminal) (compareOn terminal) ⟨n, t⟩ ⟨n', t'⟩ = .eq := h
    simp only [compareLex_eq_eq, compareOn, Nat.compare_eq_eq] at h
    obtain ⟨rfl, rfl⟩ := h
    rfl

end Cell

/-- The alternative in each filled cell. An empty cell is an error in the input. -/
structure Table where
  cells : SortedMap Cell Nat
  deriving DecidableEq

/-- Two alternatives of a nonterminal that are predicted on one terminal. -/
structure Collision where
  nonterminal : Nat
  terminal : Nat
  first : Nat
  second : Nat
  deriving DecidableEq

namespace Table

def find? (table : Table) (nonterminal terminal : Nat) : Option Nat :=
  table.cells.find? ⟨nonterminal, terminal⟩

def size (table : Table) : Nat := table.cells.size

/-- Fills a cell. It may hold the same alternative already, but no other one. -/
def fill (table : Table) (cell : Cell) (production : Nat) : Except Collision Table :=
  match table.cells.find? cell with
  | some other =>
    if other = production then .ok table
    else .error ⟨cell.nonterminal, cell.terminal, other, production⟩
  | none => .ok ⟨table.cells.insert cell production⟩

end Table

/-- The terminals on which an alternative of `left` with the given FIRST set is predicted. -/
def lookaheads (follow : FollowSets) (left : Nat) (f : FirstSet) : SortedSet Nat :=
  if f.nullable then f.terminals ∪ follow.ofSymbol left else f.terminals

/-- The cells of a nonterminal and what goes into them, alternative by alternative. -/
def predictionsOf (first : FirstSets) (follow : FollowSets) (n : Nonterminal) : List (Cell × Nat) :=
  n.bodies.zipIdx.flatMap fun (body, i) =>
    (lookaheads follow n.index (first.ofSequence body)).toList.map fun t => (⟨n.index, t⟩, i)

def predictions (g : Grammar) (first : FirstSets) (follow : FollowSets) : List (Cell × Nat) :=
  g.nonterminals.flatMap (predictionsOf first follow)

/-- The table of a grammar, or the first cell in which two alternatives meet. -/
def buildTable (g : Grammar) (first : FirstSets) (follow : FollowSets) : Except Collision Table :=
  (predictions g first follow).foldlM (fun table (cell, i) => table.fill cell i) ⟨∅⟩

end Lookahead.LL1
