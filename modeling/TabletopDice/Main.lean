import TabletopDice.Cli

/-!
# The program

Reads the arguments and the standard input, and prints the report. Without a seed the generator
starts from random bytes.
-/

namespace TabletopDice.Cli

/-- A source that starts from the seed, or from random bytes. -/
def openSource (seed : Option UInt64) : IO Source := do
  match seed with
  | some seed => pure (.seeded seed)
  | none =>
    let bytes ← IO.getRandomBytes 8
    pure (.seeded (bytes.toList.foldl (fun n b => n * 256 + b.toUInt64) 0))

/-- The first line of the standard input, if the request has no words. -/
def readInput (r : Request) : IO String := do
  if r.words.isEmpty then (← IO.getStdin).getLine else pure ""

end TabletopDice.Cli

open TabletopDice.Cli in
/-- Runs the program. -/
def main (args : List String) : IO UInt32 := do
  match Request.ofArgs {} args with
  | .error e =>
    IO.eprintln ("Error: " ++ e)
    pure 2
  | .ok request =>
    let input ← readInput request
    let source ← openSource request.seed
    let report := request.report (request.text input) source
    IO.eprint (unlines report.errorLines)
    IO.print (unlines report.output)
    pure (UInt32.ofNat report.exitCode)
