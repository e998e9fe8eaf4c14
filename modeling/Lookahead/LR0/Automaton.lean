import Lookahead.LR0.Item
import Lookahead.SortedMap

/-!
The automaton of LR(0) item sets. Its grammar has one nonterminal more than the analysed one, whose
only alternative is the start symbol; an item of it that is complete accepts. State 0 is the start.
-/

namespace Lookahead

namespace LR0

/-- A state: its items, and the state that each symbol leads to. -/
structure State where
  items : ItemSet
  edges : SortedMap Nat Nat
  deriving DecidableEq

structure Automaton where
  grammar : Grammar
  /-- The added nonterminal. -/
  accept : Nat
  states : Array State
  deriving DecidableEq

/-- The grammar with the added nonterminal. The start symbol stays what it is. -/
def augment (g : Grammar) (startName : String) : Grammar :=
  { (g.addNonterminal (g.freshName startName)).addBody g.size [g.start] with start := g.start }

/-- The symbols that edges carry: the terminals but the end mark, then the nonterminals. -/
def alphabet (g : Grammar) : List Nat :=
  g.terminals.filter (· ≠ endMark) ++ g.nonterminals.map Nonterminal.index

/-- The place of `items` among the sets found so far, which it joins if it is new. -/
def locate (found : Array ItemSet) (items : ItemSet) : Array ItemSet × Nat :=
  match found.findIdx? (· = items) with
  | some i => (found, i)
  | none => (found.push items, found.size)

/-- Follows one symbol from the state with the items `source`. -/
def follow (g : Grammar) (source : ItemSet) (reached : Array ItemSet × SortedMap Nat Nat)
    (symbol : Nat) : Array ItemSet × SortedMap Nat Nat :=
  let target := g.goto source symbol
  if target.isEmpty then reached
  else
    let (found, i) := locate reached.1 target
    (found, reached.2.insert symbol i)

/-- Takes up the sets found in the order in which they were found, at most `limit` of them. The
edges of the first `rows.size` of them are known. -/
def explore (g : Grammar) (symbols : List Nat) :
    Nat → Array ItemSet → Array (SortedMap Nat Nat) → Array ItemSet × Array (SortedMap Nat Nat)
  | 0, found, rows => (found, rows)
  | limit + 1, found, rows =>
    match found[rows.size]? with
    | none => (found, rows)
    | some source =>
      let (found, row) := symbols.foldl (follow g source) (found, ∅)
      explore g symbols limit found (rows.push row)

/-- All items: the dot stands before some symbol of an alternative or at its end. -/
def allItems (g : Grammar) : List Item :=
  (List.range g.size).flatMap fun left =>
    (g.bodies left).zipIdx.flatMap fun (body, production) =>
      (List.range (body.length + 1)).map (Item.mk left production)

/-- The automaton of a grammar whose start symbol goes by `startName`. There are no more states than
sets of items. -/
def build (g : Grammar) (startName : String) : Automaton :=
  let augmented := augment g startName
  let start := augmented.closure (.singleton (augmented.initialItem g.size 0))
  let (found, rows) := explore augmented (alphabet g) (Nat.pow 2 (allItems augmented).length) #[start] #[]
  ⟨augmented, g.size, found.zipWith State.mk rows⟩

namespace Automaton

variable (a : Automaton)

def transition (state symbol : Nat) : Option Nat :=
  a.states[state]?.bind fun s => s.edges.find? symbol

/-- Whether no closure adds `i`: it belongs to the added nonterminal, or its dot has moved. -/
def isKernel (i : Item) : Bool :=
  i.left == a.accept ||
    (i.position > 0 && !(a.grammar.body i.left i.production).isEpsilon)

/-- Whether a complete item of the added nonterminal is among `items`. -/
def accepts (items : ItemSet) : Bool :=
  items.toList.any fun i => i.left == a.accept && a.grammar.isComplete i

/-- The complete items, but for those that accept. -/
def reducible (items : ItemSet) : List Item :=
  items.toList.filter fun i => i.left != a.accept && a.grammar.isComplete i

/-- The terminals right after a dot. -/
def shiftable (items : ItemSet) : SortedSet Nat :=
  .ofList ((items.toList.filterMap a.grammar.nextSymbol).filter a.grammar.isTerminal)

end Automaton
end LR0

namespace Grammar

/-- The automaton of a grammar, if its start symbol is one of its symbols. -/
def automaton? (g : Grammar) : Option LR0.Automaton := (g.name? g.start).map (LR0.build g)

end Grammar
end Lookahead
