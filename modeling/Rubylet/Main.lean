import Rubylet.CommandLine

/-!
# The program

Reads the environment and the source, and writes what the command line leaves behind.
-/

namespace Rubylet

open CommandLine

/-- The length of the longest text that there is taken to be room for. -/
def room : Nat := Nat.pow 2 32

/-- The reason why a file cannot be read. -/
def readErrorOf : IO.Error → ReadError
  | .noFileOrDirectory .. => .notFound
  | .inappropriateType .. => .isDirectory
  | e => .other (toString e)

/-- The content of a source. -/
def contentOf (s : Settings) : IO (Except ReadError ByteArray) := do
  if s.readsInput then
    return .ok (← (← IO.getStdin).readBinToEnd)
  else
    try
      return .ok (← IO.FS.readBinFile (Directory.normalize s.source))
    catch e => return .error (readErrorOf e)

/-- Writes an outcome, and answers the status. -/
def conclude (o : Outcome) : IO UInt32 := do
  (← IO.getStdout).putStr o.output
  (← IO.getStderr).putStr o.errors
  match o.ending with
  | .exit status => return UInt32.ofNat status
  | .breakdown _ => return 1

end Rubylet

open Rubylet Rubylet.CommandLine in
/-- Runs the command line. -/
def main (args : List String) : IO UInt32 := do
  let env : Environment := ⟨← IO.getEnv "TIX_BACKEND", ← IO.getEnv "TIX_LOG_LEVEL"⟩
  match plan env args with
  | .finish outcome => conclude outcome
  | .process settings => conclude (perform room settings (← contentOf settings))
