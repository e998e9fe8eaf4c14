import Lookahead.Grammar.Basic
import Lookahead.Text

/-!
The input of the machines: tokens and the terminals they stand for.
-/

namespace Lookahead

/-- A piece of input, with the terminal it stands for if there is one. -/
structure Token where
  text : String
  terminal : Option Nat
  deriving DecidableEq

/-- The tokens of a text: its words if it has blanks, otherwise its characters. -/
def tokenize (text : String) : List String :=
  let cs := text.toList
  if cs.any Text.isBlank then (Text.words cs).map String.ofList
  else cs.map fun c => String.ofList [c]

namespace Grammar

/-- The terminal that goes by `text`. The end mark cannot be written. -/
def terminal? (g : Grammar) (text : String) : Option Nat :=
  (g.index? text).filter fun i => g.isTerminal i && i != endMark

/-- An input with its terminals, ended by the end mark. -/
def input (g : Grammar) (tokens : List String) : List Token :=
  tokens.map (fun text => ⟨text, g.terminal? text⟩) ++ [⟨endMarkName, some endMark⟩]

end Grammar
end Lookahead
