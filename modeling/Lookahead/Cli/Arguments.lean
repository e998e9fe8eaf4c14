import Lookahead.Report.View

/-!
Command lines. Short flags can be joined, a value is the rest of its word or the next word, and every
word after `--` names a view.
-/

namespace Lookahead.Cli

open Report

inductive Flag where
  | elf
  | latex
  | json
  | interactive
  | trace
  | verbose
  deriving DecidableEq

/-- An option that takes a value. -/
inductive Setting where
  | grammar
  | ll1
  | slr1
  deriving DecidableEq

inductive Switch where
  | flag (f : Flag)
  | setting (s : Setting)
  deriving DecidableEq

structure Arguments where
  views : List View := []
  grammar : Option String := none
  elf : Bool := false
  latex : Bool := false
  json : Bool := false
  ll1Inputs : List String := []
  slr1Inputs : List String := []
  interactive : Bool := false
  trace : Bool := false
  verbosity : Nat := 0
  deriving DecidableEq

namespace Switch

def ofLong? : String → Option Switch
  | "grammar" => some (setting .grammar)
  | "elf" => some (flag .elf)
  | "latex" => some (flag .latex)
  | "json" => some (flag .json)
  | "ll1" => some (setting .ll1)
  | "slr1" => some (setting .slr1)
  | "interactive" => some (flag .interactive)
  | "trace" => some (flag .trace)
  | "verbose" => some (flag .verbose)
  | _ => none

def ofShort? : Char → Option Switch
  | 'g' => some (setting .grammar)
  | 'l' => some (flag .latex)
  | 'j' => some (flag .json)
  | 'i' => some (flag .interactive)
  | 't' => some (flag .trace)
  | 'v' => some (flag .verbose)
  | _ => none

end Switch

namespace Arguments

def style (a : Arguments) : Style := if a.latex then .latex else if a.json then .json else .plain

/-- Raises a flag. Only `verbose` can be raised more than once. -/
def raise (a : Arguments) : Flag → Option Arguments
  | .elf => if a.elf then none else some { a with elf := true }
  | .latex => if a.latex then none else some { a with latex := true }
  | .json => if a.json then none else some { a with json := true }
  | .interactive => if a.interactive then none else some { a with interactive := true }
  | .trace => if a.trace then none else some { a with trace := true }
  | .verbose => some { a with verbosity := a.verbosity + 1 }

/-- Gives a setting its value. There is one grammar at most, and its path is not empty. -/
def assign (a : Arguments) (value : String) : Setting → Option Arguments
  | .grammar =>
    if a.grammar.isSome || value.isEmpty then none else some { a with grammar := some value }
  | .ll1 => some { a with ll1Inputs := a.ll1Inputs ++ [value] }
  | .slr1 => some { a with slr1Inputs := a.slr1Inputs ++ [value] }

def addView (a : Arguments) (name : String) : Option Arguments :=
  (View.ofName? name).map fun view => { a with views := a.views ++ [view] }

/-- Reads the letters after a hyphen. The setting is one whose value is the next word. -/
def readCluster (a : Arguments) : List Char → Option (Arguments × Option Setting)
  | [] => some (a, none)
  | c :: cs =>
    match Switch.ofShort? c with
    | none => none
    | some (.flag f) => (a.raise f).bind (readCluster · cs)
    | some (.setting s) =>
      match cs with
      | [] => some (a, some s)
      | '=' :: value => (a.assign (String.ofList value) s).map (·, none)
      | value => (a.assign (String.ofList value) s).map (·, none)

/-- Reads what stands after two hyphens. -/
def readLong (a : Arguments) (cs : List Char) : Option (Arguments × Option Setting) :=
  let name := String.ofList (cs.takeWhile (· ≠ '='))
  match Switch.ofLong? name, cs.dropWhile (· ≠ '=') with
  | some (.flag f), [] => (a.raise f).map (·, none)
  | some (.setting s), [] => some (a, some s)
  | some (.setting s), _ :: value => (a.assign (String.ofList value) s).map (·, none)
  | _, _ => none

/-- Reads the words of a command line. `awaiting` is the setting whose value comes next; a word that
looks like a switch cannot be it. -/
def readWords (a : Arguments) (awaiting : Option Setting) : List String → Option Arguments
  | [] => if awaiting.isSome || (a.latex && a.json) then none else some a
  | word :: words =>
    match awaiting, word.toList with
    | some _, '-' :: _ :: _ => none
    | some s, _ => (a.assign word s).bind (readWords · none words)
    | none, ['-', '-'] =>
      (words.foldlM addView a).bind fun a => if a.latex && a.json then none else some a
    | none, '-' :: '-' :: cs => (a.readLong cs).bind fun (a, awaiting) => readWords a awaiting words
    | none, '-' :: c :: cs =>
      (a.readCluster (c :: cs)).bind fun (a, awaiting) => readWords a awaiting words
    | none, _ => (a.addView word).bind (readWords · none words)

/-- The arguments of a command line, if it is one. -/
def ofWords? (words : List String) : Option Arguments := readWords {} none words

end Arguments
end Lookahead.Cli
