import Propositional.CommandLine

/-!
# The program

Prints what the command line asks for, in colours on a terminal, and ends with its exit code.
-/

open Propositional

def main (arguments : List String) : IO UInt32 := do
  let stdout ← IO.getStdout
  let ink := if ← stdout.isTty then Ink.colours else Ink.plain
  let outcome := CommandLine.run ink arguments
  stdout.putStr outcome.stdout
  if outcome.code = 2 then
    IO.eprint Topic.help.text
  if let some message := outcome.message then
    IO.eprintln message
  return outcome.code.toUInt32
