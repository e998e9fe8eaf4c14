import Lookahead.Reader.Compact
import Lookahead.Reader.Spaced

/-!
Reading a grammar from text.
-/

namespace Lookahead

inductive Format where
  | spaced
  | compact
  deriving DecidableEq

namespace Format

/-- A text whose first line that is not blank holds a count is compact, any other one is spaced. -/
def detect (text : String) : Format :=
  match Reader.numberedLines text.toList with
  | (_, line) :: _ => if (Text.count? (Text.trim line)).isSome then .compact else .spaced
  | [] => .spaced

end Format

namespace Grammar

def read (form : Format) (text : String) : Except ReadError Grammar :=
  match form with
  | .spaced => Reader.Spaced.read text.toList
  | .compact => Reader.Compact.read text.toList

/-- Reads a text in the notation that its first line tells. -/
def ofText (text : String) : Except ReadError Grammar := read (.detect text) text

end Grammar
end Lookahead
