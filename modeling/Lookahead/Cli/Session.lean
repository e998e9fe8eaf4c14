import Lookahead.Cli.Arguments
import Lookahead.Cli.Job
import Lookahead.Grammar.LeftRecursion
import Lookahead.Reader
import Lookahead.Report.Trace
import Lookahead.Text.Quoted

/-!
A session: a grammar with its analysis, and the views and runs that a command asks for.
-/

namespace Lookahead.Cli

open Report

structure Session where
  grammar : Grammar
  analysis : Analysis
  style : Style
  verbosity : Nat
  deriving DecidableEq

/-- Records of what an analysis found, in the order in which it was found. -/
def analysisRecords (a : Analysis) : List String :=
  let conflicts (kind : String) (count : Nat) :=
    if count = 0 then [] else [toString count ++ " " ++ kind ++ " conflicts"]
  ["first sets converged after " ++ toString a.first.sweeps ++ " sweeps",
    "follow sets converged after " ++ toString a.follow.sweeps ++ " sweeps"] ++
  conflicts "LL(1)" a.ll1Conflicts.length ++
  (a.ll1Table.map fun t => "LL(1) table with " ++ toString t.size ++ " entries").toList ++
  ["LR(0) automaton with " ++ toString a.automaton.states.size ++ " states"] ++
  conflicts "SLR(1)" a.slr1Conflicts.length ++
  ["LL(1): " ++ toString a.ll1Table.isSome ++ ", SLR(1): " ++ toString a.slr1Table.isSome]

def replacementRecord (r : Replacement) : String :=
  "removed left recursion of " ++ r.name ++ " with " ++ r.helper

/-- A move as the log shows it. -/
def moveRecord : NamedMove → String
  | .matched t => "Match(" ++ Text.quote t ++ ")"
  | .produce left right => "Produce " ++ sides left right
  | .shift state => "Shift(" ++ toString state ++ ")"
  | .reduce left right => "Reduce " ++ sides left right
  | .accept => "Accept"
  | .reject => "Error"
where
  sides (left : String) (right : List String) : String :=
    "\x7b left: " ++ Text.quote left ++ ", right: " ++ Text.quoteAll right ++ " \x7d"

/-- The text with blanks after it, which make it at least `width` characters long. -/
def padRight (width : Nat) (s : String) : String :=
  s ++ String.ofList (List.replicate (width - s.length) ' ')

/-- A line of a trace as the log shows it. -/
def lineRecord (l : Line) : String :=
  padRight 30 l.stack ++ " " ++ padRight 20 l.input ++ " " ++ moveRecord l.move

namespace Session

/-- Reads and analyses a grammar. -/
def start (args : Arguments) (text : String) : Job Session := do
  match Grammar.ofText text with
  | .error e => throw (.badGrammar e)
  | .ok g =>
    let (g, replacements) := if args.elf then g.removeLeftRecursion else (g, [])
    for r in replacements do
      Job.log args.verbosity .debug (replacementRecord r)
    let analysis ← Job.expect g.analyze?
    for record in analysisRecords analysis do
      Job.log args.verbosity .debug record
    return ⟨g, analysis, args.style, args.verbosity⟩

variable (s : Session)

def classification : Job Classification := Job.expect (Classification.of? s.grammar s.analysis)

/-- Fails because the grammar has no table for `method`. -/
def notAvailable {α : Type} (method : Method) : Job α := do
  let c ← s.classification
  throw (.notAvailable method (match method with
    | .ll1 => c.ll1Conflicts
    | .slr1 => c.slr1Conflicts))

/-- The method whose table a view shows. -/
def methodOf : View → Method
  | .ll1Table => .ll1
  | _ => .slr1

def printView (view : View) : Job Unit := do
  match ← Job.expect (render? s.grammar s.analysis s.style view) with
  | some text => Job.printLine text
  | none => s.notAvailable (methodOf view)

/-- The trace of a run, or `none` if there is no table for `method`. -/
def trace? (method : Method) (tokens : List String) : Option (Option Report.Trace) :=
  match method with
  | .ll1 => s.analysis.ll1Table.map fun table => ll1Trace? s.grammar table tokens
  | .slr1 => s.analysis.slr1Table.map fun table => slr1Trace? s.grammar table tokens

/-- Runs a machine on an input and prints whether it accepts, after the trace if that is wanted. -/
def parse (method : Method) (showTrace : Bool) (input : String) : Job Unit := do
  match s.trace? method (tokenize input) with
  | none => s.notAvailable method
  | some run =>
    let trace ← Job.expect run
    for line in trace.lines do
      Job.log s.verbosity .trace (lineRecord line)
    if showTrace then
      Job.printLine (if s.style = .json then trace.json.render else trace.text)
    Job.printLine (if trace.accepted then "yes" else "no")

end Session
end Lookahead.Cli
