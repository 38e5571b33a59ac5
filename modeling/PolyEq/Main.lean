import PolyEq.CommandLine

/-! # Program -/

open PolyEq in
def main (arguments : List String) : IO UInt32 := do
  let outcome := CommandLine.runArguments arguments
  (← IO.getStdout).putStr outcome.output
  (← IO.getStderr).putStr outcome.errors
  return outcome.exitCode
