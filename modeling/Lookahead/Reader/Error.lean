/-!
Why a text is not a grammar, and how that is said.
-/

namespace Lookahead

/-- What is wrong with one line of a grammar. -/
inductive LineFault where
  | manyArrows
  | noArrow
  | noLeftSide
  | neitherArrowNorBar
  | emptyLeftSide
  | blankInLeftSide
  | reservedLeftSide (name : String)
  | endMarkInBody
  | noCount
  deriving DecidableEq

inductive ReadError where
  | malformed (line : Nat) (fault : LineFault)
  | noRules
  | missingRules (expected found : Nat)
  | missingStart (name : String)
  deriving DecidableEq

namespace LineFault

def message : LineFault → String
  | manyArrows => "too many \"->\""
  | noArrow => "missing \"->\""
  | noLeftSide => "cannot find left side"
  | neitherArrowNorBar => "expected \"->\" or \"|\""
  | emptyLeftSide => "empty left side"
  | blankInLeftSide => "left side contains whitespace"
  | reservedLeftSide name => "\"" ++ name ++ "\" is reserved and cannot have productions"
  | endMarkInBody => "\"$\" is reserved for the end of input"
  | noCount => "expected the number of rules"

end LineFault

namespace ReadError

def message : ReadError → String
  | malformed line fault => "Line " ++ toString line ++ ": " ++ fault.message
  | noRules => "the grammar has no rules"
  | missingRules expected found =>
    "expected " ++ toString expected ++ " rules, found " ++ toString found
  | missingStart name => "the grammar must define the start symbol \"" ++ name ++ "\""

end ReadError
end Lookahead
