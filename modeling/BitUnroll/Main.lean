import BitUnroll.Command.Line
import BitUnroll.Sat.Decision

/-!
# The program

Reads the script that the arguments ask for, from a file or from standard input, and prints the
outcome.
-/

namespace BitUnroll.Command

/-- The script of a request, if it can be read. -/
def readScript : Request → IO (Option String)
  | .run _ (some path) => try some <$> IO.FS.readFile path catch _ => return none
  | .run _ none => do return some (← (← IO.getStdin).readToEnd)
  | _ => return some ""

/-- Prints the outcome of a request. -/
def perform (request : Request) : IO UInt32 := do
  let outcome := answer .search request (← readScript request)
  (← IO.getStderr).putStr outcome.stderr
  (← IO.getStdout).putStr outcome.stdout
  return outcome.status.toUInt32

end BitUnroll.Command

/-- Runs the program with its arguments. -/
def main (args : List String) : IO UInt32 :=
  BitUnroll.Command.perform (BitUnroll.Command.plan args)
