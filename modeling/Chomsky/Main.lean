import Chomsky.Command.Transcript

/-!
# The program

Reads the command line, the log specification from the environment and, for
runs without a seed, a seed from the system, and prints the transcript.
-/

set_option autoImplicit false

/-- Runs the program. -/
def main (arguments : List String) : IO UInt32 := do
  let logSpec ← IO.getEnv "RUST_LOG"
  let bytes ← IO.getRandomBytes 8
  let transcript := Chomsky.Transcript.ofArguments arguments (logSpec.getD "") bytes.toUInt64LE!
  let out ← IO.getStdout
  out.putStr transcript.stdout
  out.flush
  let err ← IO.getStderr
  err.putStr transcript.stderr
  err.flush
  return transcript.exitCode.toUInt32
