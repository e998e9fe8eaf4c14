import Lookahead.Cli.Dialogue

/-!
A whole command: from its words, the files and the standard input to what it writes and its exit code.
-/

namespace Lookahead.Cli

/-- What is left when a command ends. -/
structure Outcome where
  exit : Nat
  output : Output
  deriving DecidableEq

namespace Outcome

/-- The command line is not one. -/
def usage : Outcome := ⟨2, {}⟩

end Outcome

/-- What a command has come to: its output, and how it ended. -/
def conclude {α : Type} (result : Except Failure α × Output) : Outcome :=
  match result with
  | (.ok _, output) => ⟨0, output⟩
  | (.error f, output) =>
    ⟨1, { output with stderr := output.stderr ++ "Error: " ++ f.message ++ "\n" }⟩

/-- Where the grammar of a command stands. -/
inductive Source where
  | file (path : String)
  | stdin
  deriving DecidableEq

namespace Arguments

/-- The standard input cannot hold both a grammar and a dialogue. -/
def source (args : Arguments) : Except Failure Source :=
  match args.grammar with
  | some path => .ok (.file path)
  | none => if args.interactive then .error .interactiveWithoutFile else .ok .stdin

/-- The views to show: the classification if nothing at all is asked for. -/
def shown (args : Arguments) : List Report.View :=
  if args.views.isEmpty && args.ll1Inputs.isEmpty && args.slr1Inputs.isEmpty && !args.interactive
  then [.classification] else args.views

end Arguments

namespace Command

/-- Shows the views and runs the inputs of a command. The dialogue that remains, if any, is
returned with its session. -/
def begin (args : Arguments) (text : String) : Job (Option (Session × Dialogue)) := do
  let s ← Session.start args text
  for view in args.shown do
    s.printView view
  for input in args.ll1Inputs do
    s.parse .ll1 args.trace input
  for input in args.slr1Inputs do
    s.parse .slr1 args.trace input
  if args.interactive then
    return (← Dialogue.start s args.trace).map fun d => (s, d)
  else
    return none

/-- The lines of an input, each one as text if it is text. -/
def inputLines (bytes : ByteArray) : List (Option String) :=
  (splitLines bytes.toList).map fun line => String.fromUTF8? ⟨line.toArray⟩
where
  splitLines : List UInt8 → List (List UInt8)
    | [] => []
    | 10 :: rest => [] :: splitLines rest
    | b :: rest =>
      match splitLines rest with
      | [] => [[b]]
      | line :: lines => (b :: line) :: lines

def readSource (files : String → Except FileFault String) (stdin : ByteArray) :
    Source → Except Failure String
  | .file path => (files path).mapError (.unreadable path)
  | .stdin =>
    match String.fromUTF8? stdin with
    | some text => .ok text
    | none => .error .inputNotText

/-- The job of a command. A dialogue ends soon after the last line: no question is asked three times
in a row without one. -/
def job (args : Arguments) (files : String → Except FileFault String) (stdin : ByteArray) :
    Job Unit := do
  let source ← args.source
  let text ← readSource files stdin source
  match ← begin args text with
  | none => pure ()
  | some (s, d) =>
    let lines := inputLines stdin
    d.converse s (lines.length + 3) lines

def run (words : List String) (files : String → Except FileFault String) (stdin : ByteArray) :
    Outcome :=
  match Arguments.ofWords? words with
  | none => .usage
  | some args => conclude (job args files stdin).run

end Command
end Lookahead.Cli
