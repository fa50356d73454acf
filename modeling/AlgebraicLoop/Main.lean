import AlgebraicLoop.CommandLine.Run

/-!
# The program

`main` writes the output of a run and ends with its status.
-/

set_option autoImplicit false

/-- The command line program. -/
def main (args : List String) : IO UInt32 := do
  let t := AlgebraicLoop.CommandLine.run args
  (← IO.getStdout).putStr t.stdout
  (← IO.getStderr).putStr t.stderr
  return t.status.toUInt32
