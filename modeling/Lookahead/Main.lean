import Lookahead.Cli.Command

/-!
The program: reads a grammar from a file or from the standard input and shows what the command asks
for.
-/

namespace Lookahead.Cli.Program

/-- The text of a file. -/
def readFile (path : String) : IO (Except FileFault String) := do
  try
    match String.fromUTF8? (← IO.FS.readBinFile path) with
    | some text => return .ok text
    | none => return .error .notText
  catch
    | .noFileOrDirectory .. => return .error .missing
    | .inappropriateType _ 21 _ => return .error .directory
    | .inappropriateType .. => return .error .notDirectory
    | e => return .error (.other (toString e))

/-- The text that a command is to read its grammar from. -/
def readGrammar (args : Arguments) : IO (Except Failure String) := do
  match args.source with
  | .error f => return .error f
  | .ok (.file path) =>
    let file ← readFile path
    return Command.readSource (fun _ => file) .empty (.file path)
  | .ok .stdin =>
    let bytes ← (← IO.getStdin).readBinToEnd
    return Command.readSource (fun _ => .error .missing) bytes .stdin

/-- Reads bytes up to the next line feed. -/
partial def readLine (line : ByteArray) : IO (Option ByteArray) := do
  let bytes ← (← IO.getStdin).read 1
  match bytes.toList with
  | [] => return if line.isEmpty then none else some line
  | b :: _ => if b = 10 then return some line else readLine (line.push b)

/-- Writes what a job wrote. -/
def emit (output : Output) : IO Unit := do
  (← IO.getStderr).putStr output.stderr
  let stdout ← IO.getStdout
  stdout.putStr output.stdout
  stdout.flush

/-- Writes what the last job wrote and reports how it ended. -/
def finish {α : Type} (result : Except Failure α × Output) : IO UInt32 := do
  let outcome := conclude result
  emit outcome.output
  return outcome.exit.toUInt32

/-- Goes on with a dialogue until it ends. -/
partial def converse (s : Session) (d : Dialogue) : IO UInt32 := do
  emit ⟨d.prompt, ""⟩
  let line ← readLine .empty
  let result := (d.step s (line.map String.fromUTF8?)).run
  match result.1 with
  | .ok (some next) =>
    emit result.2
    converse s next
  | _ => finish result

def run (args : Arguments) : IO UInt32 := do
  match ← readGrammar args with
  | .error f => finish (α := Unit) (.error f, {})
  | .ok text =>
    let result := (Command.begin args text).run
    match result.1 with
    | .ok (some (s, d)) =>
      emit result.2
      converse s d
    | _ => finish result

end Lookahead.Cli.Program

def main (words : List String) : IO UInt32 := do
  match Lookahead.Cli.Arguments.ofWords? words with
  | some args => Lookahead.Cli.Program.run args
  | none =>
    (← IO.getStderr).putStrLn "error: unknown or incomplete arguments"
    return 2
