import Lookahead.Cli.Session

/-!
The dialogue in which inputs are typed in one by one. It is a machine whose input is the answers, each
a line or the end of the input.
-/

namespace Lookahead.Cli

/-- What the dialogue waits for. -/
inductive Dialogue where
  /-- Whether traces are wanted. -/
  | askTrace
  /-- Which machine to run. -/
  | askMethod (trace : Bool)
  /-- An input. When there is no more, another machine can be chosen if there is a choice. -/
  | askInput (method : Method) (trace choice : Bool)
  deriving DecidableEq

namespace Dialogue

def prompt : Dialogue → String
  | askTrace => "Enable step-by-step view? (y/n): "
  | askMethod _ => "Select a parser (T: for LL(1), B: for SLR(1), Q: quit): "
  | askInput _ _ false => "Input string to parse (or press Enter to quit): "
  | askInput method _ true =>
    "Input string for " ++ method.name ++ " parser (or press Enter to re-select): "

/-- The machines that the grammar allows. -/
def methods (c : Report.Classification) : List Method :=
  (if c.ll1 then [.ll1] else []) ++ (if c.slr1 then [.slr1] else [])

/-- The first question once it is known whether traces are wanted. -/
def choose (methods : List Method) (trace : Bool) : Dialogue :=
  match methods with
  | [method] => askInput method trace false
  | _ => askMethod trace

/-- Prints the verdict. There is no dialogue if no machine is allowed. -/
def start (s : Session) (trace : Bool) : Job (Option Dialogue) := do
  let c ← s.classification
  Job.printLine c.verdict
  match methods c with
  | [] => return none
  | methods => return some (if trace then choose methods true else askTrace)

/-- Takes the answer to a question, without the blanks around it, or the end of the input. -/
def answer (s : Session) (d : Dialogue) (reply : Option String) : Job (Option Dialogue) := do
  match d, reply with
  | askTrace, reply =>
    let c ← s.classification
    return some (choose (methods c) (reply == some "y" || reply == some "Y"))
  | askMethod _, none => return none
  | askMethod trace, some choice =>
    if choice = "Q" ∨ choice = "q" then return none
    else if choice = "T" ∨ choice = "t" then return some (askInput .ll1 trace true)
    else if choice = "B" ∨ choice = "b" then return some (askInput .slr1 trace true)
    else
      Job.printLine "Invalid selection."
      return some (askMethod trace)
  | askInput method trace choice, reply =>
    match reply with
    | none | some "" => return if choice then some (askMethod trace) else none
    | some input =>
      s.parse method trace input
      return some (askInput method trace choice)

/-- Asks a question and takes the answer. A line that is not text ends the dialogue. -/
def step (s : Session) (d : Dialogue) (line : Option (Option String)) : Job (Option Dialogue) := do
  match line with
  | none => d.answer s none
  | some none => throw .inputNotText
  | some (some line) => d.answer s (some (String.ofList (Text.trim line.toList)))

/-- Goes on for at most `limit` questions with the lines at hand. -/
def converse (s : Session) : Nat → Dialogue → List (Option String) → Job Unit
  | 0, _, _ => pure ()
  | limit + 1, d, lines => do
    Job.print d.prompt
    match ← d.step s lines.head? with
    | none => pure ()
    | some d => converse s limit d lines.tail

end Dialogue
end Lookahead.Cli
