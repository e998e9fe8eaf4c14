import Lookahead.Reader.Error

/-!
What ends a command with an error, and how that is reported.
-/

namespace Lookahead.Cli

/-- Which machine runs on an input. -/
inductive Method where
  | ll1
  | slr1
  deriving DecidableEq

namespace Method

def name : Method → String
  | ll1 => "LL(1)"
  | slr1 => "SLR(1)"

end Method

/-- Why a file could not be read as text. -/
inductive FileFault where
  | missing
  | directory
  /-- A part of the path that should be a directory is a file. -/
  | notDirectory
  | notText
  | other (message : String)
  deriving DecidableEq

namespace FileFault

def message : FileFault → String
  | missing => "No such file or directory (os error 2)"
  | directory => "Is a directory (os error 21)"
  | notDirectory => "Not a directory (os error 20)"
  | notText => "stream did not contain valid UTF-8"
  | other message => message

end FileFault

inductive Failure where
  | unreadable (path : String) (fault : FileFault)
  /-- The standard input is not text. -/
  | inputNotText
  | interactiveWithoutFile
  | badGrammar (e : ReadError)
  | notAvailable (method : Method) (conflicts : List String)
  /-- A symbol has no name, or a run does not end. -/
  | unanswerable
  deriving DecidableEq

namespace Failure

def message : Failure → String
  | unreadable path fault =>
    "failed to read " ++ path ++ "\n\nCaused by:\n    " ++ fault.message
  | inputNotText => FileFault.notText.message
  | interactiveWithoutFile => "interactive mode needs the grammar in a file (-g)"
  | badGrammar e => e.message
  | notAvailable method conflicts =>
    "grammar is not " ++ method.name ++ ":\n" ++ "\n".intercalate conflicts
  | unanswerable => "no answer"

end Failure
end Lookahead.Cli
