import Lookahead.Cli.Failure

/-!
Jobs: computations that print, keep a log, and may fail. What was printed before a failure stays.
-/

namespace Lookahead.Cli

/-- What a job has written so far. -/
structure Output where
  stdout : String := ""
  stderr : String := ""
  deriving DecidableEq

/-- How much of the log is shown. -/
inductive Level where
  | debug
  | trace
  deriving DecidableEq

namespace Level

def name : Level → String
  | debug => "DEBUG"
  | trace => "TRACE"

/-- How often verbosity must be asked for to see a record. -/
def threshold : Level → Nat
  | debug => 3
  | trace => 4

end Level

abbrev Job := ExceptT Failure (StateM Output)

namespace Job

/-- Runs a job from nothing written. -/
def run {α : Type} (job : Job α) : Except Failure α × Output := StateT.run (ExceptT.run job) {}

def print (s : String) : Job Unit := modify fun o => { o with stdout := o.stdout ++ s }

def printLine (s : String) : Job Unit := print (s ++ "\n")

/-- Adds a record to the log, if it is asked for. -/
def log (verbosity : Nat) (level : Level) (record : String) : Job Unit :=
  if level.threshold ≤ verbosity then
    modify fun o => { o with stderr := o.stderr ++ level.name ++ " - " ++ record ++ "\n" }
  else pure ()

/-- A value that has to be there. -/
def expect {α : Type} : Option α → Job α
  | some a => pure a
  | none => throw .unanswerable

end Job
end Lookahead.Cli
