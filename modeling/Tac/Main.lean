import Tac.CommandLine

/-!
# The program

Reads the input file, runs the command and writes its output.
-/

namespace Tac

/-- The cause of a failure that the operating system reports by number. -/
def PathError.ofCode (code : UInt32) : PathError :=
  if code = 20 then .notFolder
  else if code = 21 then .isFolder
  else if code = 36 then .nameTooLong
  else .missing

/-- The cause of a failed file action. -/
def PathError.ofError : IO.Error → PathError
  | .inappropriateType _ code _ => ofCode code
  | .invalidArgument _ code _ => ofCode code
  | _ => .missing

/-- The text of a file. -/
def readFile (path : String) : IO (Except FileError String) := do
  try
    let text ← IO.FS.readFile path
    pure (.ok text)
  catch e =>
    let cause := PathError.ofError e
    pure (.error ⟨if cause = .isFolder then .reading else .opening, path, cause⟩)

/-- Writes a file. -/
def writeFile (path text : String) : IO (Except FileError Unit) := do
  try
    IO.FS.writeFile path text
    pure (.ok ())
  catch e => pure (.error ⟨.opening, path, .ofError e⟩)

/-- Reports a failed command. -/
def fail (e : CommandLine.Error) : IO UInt32 := do
  unless e.isFault do IO.eprintln ("error: " ++ e.message)
  pure (.ofNat e.exitCode)

end Tac

open Tac in
/-- Runs the command line and returns its exit code. -/
def main (args : List String) : IO UInt32 := do
  match CommandLine.Command.parse args with
  | .error e => fail e
  | .ok c =>
    match c.compile (← readFile c.input), c.output with
    | .error e, _ => fail e
    | .ok text, none =>
      IO.print text
      pure 0
    | .ok text, some path =>
      match ← writeFile path text with
      | .error e => fail (.write e)
      | .ok () => pure 0
