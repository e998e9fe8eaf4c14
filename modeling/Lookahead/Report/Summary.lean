import Lookahead.Reader
import Lookahead.Report.Classification
import Lookahead.Report.Sets

/-!
Summaries of a grammar straight from its text, as JSON. A text that is not a grammar gives an object
with the error.
-/

namespace Lookahead.Report.Summary

def error (e : ReadError) : Json := .obj [("error", .str e.message)]

/-- The summary that `describe` makes of the grammar in a text. -/
def ofText? (describe : Grammar → Analysis → Option Json) (text : String) : Option Json :=
  match Grammar.ofText text with
  | .error e => some (error e)
  | .ok g => do
    let a ← g.analyze?
    describe g a

/-- FIRST and FOLLOW sets. -/
def sets? (text : String) : Option String :=
  (ofText? (fun g a => (Sets.of? g a).map Sets.json) text).map Json.render

/-- Sets and classification, with all fields in the order of their names. -/
def analysis? (text : String) : Option String :=
  (ofText? (fun g a => do
    let s ← Sets.of? g a
    let c ← Classification.of? g a
    return .obj [("sets", s.json), ("classification", c.json)]) text).map (·.sortFields.render)

end Lookahead.Report.Summary
