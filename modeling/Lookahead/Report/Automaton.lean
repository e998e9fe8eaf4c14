import Lookahead.LR0.Automaton
import Lookahead.Report.Item
import Lookahead.Report.Json

/-!
The automaton, by name, as text, as a LaTeX drawing and as JSON.
-/

namespace Lookahead.Report

/-- A state: the items that no closure adds, the other items, and the edges. -/
structure State where
  kernel : List String
  extension : List String
  edges : List (String × Nat)
  deriving DecidableEq

structure Automaton where
  states : List State
  deriving DecidableEq

/-- The edges of a state with the names of their symbols. -/
def namedEdges? (g : Grammar) (s : LR0.State) : Option (List (String × Nat)) :=
  s.edges.entries.mapM fun (symbol, target) => do return (← g.name? symbol, target)

namespace State

def of? (a : LR0.Automaton) (s : LR0.State) : Option State := do
  let kernel ← (s.items.toList.filter a.isKernel).mapM a.grammar.itemText?
  let extension ← (s.items.toList.filter (!a.isKernel ·)).mapM a.grammar.itemText?
  let edges ← namedEdges? a.grammar s
  return ⟨kernel, extension, edges⟩

def text (n : Nat) (s : State) : String :=
  "\n".intercalate
    (["I" ++ toString n, "\n".intercalate s.kernel] ++
      (if s.extension.isEmpty then [] else "---" :: s.extension) ++
      (if s.edges.isEmpty then []
        else "===" :: s.edges.map fun (name, target) => "- " ++ name ++ " -> " ++ toString target))

def json (s : State) : Json :=
  .obj [("kernel", .strs s.kernel), ("extend", .strs s.extension),
    ("edges", .arr (s.edges.map fun (name, target) => .arr [.str name, .num target]))]

end State

namespace Automaton

def of? (a : LR0.Automaton) : Option Automaton :=
  (a.states.toList.mapM (State.of? a)).map Automaton.mk

def text (a : Automaton) : String :=
  "\n\n".intercalate (a.states.zipIdx.map fun (s, n) => s.text n) ++ "\n\nstart: 0"

def json (a : Automaton) : Json :=
  .obj [("states", .arr (a.states.map State.json)), ("start", .num 0)]

end Automaton

namespace Drawing

/-- The name of the node for state `n`. -/
def nodeName (n : Nat) : String := "I_" ++ toString n

/-- States are drawn two in a row. -/
def placement (n : Nat) : String :=
  if n = 0 then ""
  else if n % 2 = 0 then " [below of = " ++ nodeName (n - 2) ++ "] "
  else " [right of = " ++ nodeName (n - 1) ++ "] "

def node? (g : Grammar) (n : Nat) (s : LR0.State) : Option String := do
  let items ← s.items.toList.mapM g.itemLatex?
  return "\\node [block] (" ++ nodeName n ++ ")" ++ placement n ++ "\n" ++
    Latex.braced
      ("\n$" ++ nodeName n ++ "$" ++ Latex.lineBreak ++ "\n" ++
        (" " ++ Latex.lineBreak ++ " \n").intercalate items ++ "\n") ++ ";"

def edge (n : Nat) (name : String) (target : Nat) : String :=
  "\\path [->] (" ++ nodeName n ++ ") edge " ++ (if n = target then "[loop left]" else "[right]") ++
    " node [above]" ++ Latex.braced (Latex.escape name) ++ " (" ++ nodeName target ++ ");"

def edges? (g : Grammar) (n : Nat) (s : LR0.State) : Option (List String) :=
  (namedEdges? g s).map (·.map fun (name, target) => edge n name target)

/-- A picture of the automaton: all states, then all edges. -/
def latex? (a : LR0.Automaton) : Option String := do
  let nodes ← a.states.toList.zipIdx.mapM fun (s, n) => node? a.grammar n s
  let edges ← a.states.toList.zipIdx.mapM fun (s, n) => edges? a.grammar n s
  return Latex.begin "tikzpicture" ++
    "[node distance=5cm,block/.style=" ++ Latex.braced "state, rectangle, text width=6em" ++ "]\n" ++
    "\n".intercalate (nodes ++ edges.flatten) ++ "\n" ++ Latex.finish "tikzpicture"

end Drawing
end Lookahead.Report
