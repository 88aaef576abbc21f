import Cool.Command.Run

/-!
# The command line

Reads the files that are asked for, prints the outcome and ends with its status. All else is decided
in `Cool.runCommand`.
-/

namespace Cool

/-- Why the system could not read a file. -/
def ReadError.ofFailure : IO.Error → ReadError
  | .noFileOrDirectory .. => .notFound
  | .inappropriateType _ 21 _ => .isDirectory
  | .inappropriateType .. => .notDirectory
  | failure => .other (toString failure)

/-- The text of a file, or why there is none. -/
def readText (name : String) : IO (Except ReadError String) := do
  match ← (IO.FS.readBinFile name).toBaseIO with
  | .error failure => return .error (.ofFailure failure)
  | .ok bytes => return (String.fromUTF8? bytes).elim (.error .invalidText) .ok

end Cool

def main (args : List String) : IO UInt32 := do
  let outcome ← Cool.runCommand Cool.readText args
  (← IO.getStdout).putStr outcome.stdout
  (← IO.getStderr).putStr outcome.stderr
  return outcome.exit.toUInt32
