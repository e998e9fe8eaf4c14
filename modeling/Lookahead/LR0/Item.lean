import Lookahead.Grammar.Basic
import Lookahead.Sets.Settle
import Lookahead.SortedSet

/-!
LR(0) items: an alternative with a dot that says how much of it has been seen. The closure of a set
adds the items that start an alternative of each nonterminal right after a dot; the kernel items of
a state are those that no closure adds.
-/

namespace Lookahead

open Std

/-- Alternative `production` of `left`, with the dot before its symbol number `position`. -/
structure Item where
  left : Nat
  production : Nat
  position : Nat
  deriving DecidableEq

namespace Item

instance : Ord Item where
  compare := compareLex (compareOn left) (compareLex (compareOn production) (compareOn position))

instance : TransOrd Item :=
  inferInstanceAs (TransCmp
    (compareLex (compareOn left) (compareLex (compareOn production) (compareOn position))))

instance : LawfulEqOrd Item where
  eq_of_compare {a b} h := by
    obtain ⟨l, p, k⟩ := a
    obtain ⟨l', p', k'⟩ := b
    replace h : compareLex (compareOn left) (compareLex (compareOn production) (compareOn position))
      ⟨l, p, k⟩ ⟨l', p', k'⟩ = .eq := h
    simp only [compareLex_eq_eq, compareOn, Nat.compare_eq_eq] at h
    obtain ⟨rfl, rfl, rfl⟩ := h
    rfl

/-- The item with the dot one symbol further. -/
def advance (i : Item) : Item := { i with position := i.position + 1 }

end Item

abbrev ItemSet := SortedSet Item

namespace Grammar

variable (g : Grammar)

/-- The item with the dot at the start. The empty string is stepped over at once, so that the item
of an empty alternative is complete. -/
def initialItem (left production : Nat) : Item :=
  ⟨left, production, ((g.body left production).takeWhile (· == epsilon)).length⟩

def initialItems (left : Nat) : List Item :=
  (List.range (g.bodies left).length).map (g.initialItem left)

/-- The symbol right after the dot. -/
def nextSymbol (i : Item) : Option Nat := (g.body i.left i.production)[i.position]?

def isComplete (i : Item) : Bool := (g.nextSymbol i).isNone

/-- The nonterminals right after a dot. -/
def awaited (items : ItemSet) : SortedSet Nat :=
  .ofList ((items.toList.filterMap g.nextSymbol).filter g.isNonterminal)

/-- One round of the closure. -/
def expand (items : ItemSet) : ItemSet :=
  items ∪ .ofList ((g.awaited items).toList.flatMap g.initialItems)

/-- The items that can be at work when those of a set are. Each round but the last one takes up a
nonterminal that was not taken up before. -/
def closure (items : ItemSet) : ItemSet := (settle g.expand (g.size + 1) items).1

/-- The items of a set that await `symbol`, moved over it. -/
def moved (items : ItemSet) (symbol : Nat) : ItemSet :=
  .ofList ((items.toList.filter fun i => g.nextSymbol i == some symbol).map Item.advance)

/-- Where `symbol` leads from a set of items. Empty if no item awaits it. -/
def goto (items : ItemSet) (symbol : Nat) : ItemSet := g.closure (g.moved items symbol)

end Grammar
end Lookahead
