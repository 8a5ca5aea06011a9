import ChartPipeline.CommandLine.Run

/-!
# The program

Reads the arguments, the environment and files, and prints how a run ends.
-/

namespace ChartPipeline

/-- The bytes of a file, if it can be read. -/
def readFile (path : String) : IO (Option ByteArray) := do
  try
    return some (← IO.FS.readBinFile path)
  catch _ =>
    return none

/-- The variables in the bytes of an environment, each ended by a zero byte. -/
def parseEnvironment (bytes : ByteArray) : Variables :=
  ((String.fromUTF8? bytes).getD "").splitOn (String.singleton (Char.ofNat 0)) |>.filterMap
    fun entry =>
      match entry.splitOn "=" with
      | name :: value@(_ :: _) => some (name, "=".intercalate value)
      | _ => none

/-- Prints how a run ends. -/
def report : Outcome → IO Unit
  | .printed text => IO.print text
  | .failed failure => do
    IO.eprintln ("Error: " ++ failure.message)
    match failure.cause with
    | some cause => IO.eprintln ("\nCaused by:\n    " ++ cause)
    | none => pure ()
  | .misused => IO.eprint (helpText none)

end ChartPipeline

/-- Runs the program. -/
def main (args : List String) : IO UInt32 := do
  let environment ← ChartPipeline.readFile "/proc/self/environ"
  let outcome ← ChartPipeline.runProgram ChartPipeline.readFile
    (ChartPipeline.parseEnvironment (environment.getD ByteArray.empty)) args
  ChartPipeline.report outcome
  return UInt32.ofNat outcome.code
