import Bitspan.Demo

set_option autoImplicit false

/-!
# Command line

Runs the demonstration. Lines go to standard output and records to standard error. A variable of the
environment names the threshold for records, and nothing else configures the run.
-/

open Bitspan in
def main : IO UInt32 := do
  let level ← IO.getEnv "RUST_LOG"
  let stdout ← IO.getStdout
  let stderr ← IO.getStderr
  for event in Demo.run (Demo.threshold level) do
    match event with
    | .printed line => stdout.putStrLn line
    | .logged record => stderr.putStrLn record.line
  return 0
