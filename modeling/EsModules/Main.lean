import EsModules.CommandLine.Disk
import EsModules.CommandLine.Run

/-!
# The program

Runs its arguments as a command line on the files of the disk.
-/

open EsModules in
/-- The entry point: the exit status is that of the command. -/
def main (words : List String) : IO UInt32 := do
  let tree ← Disk.treeFor words
  let outcome := CommandLine.run tree (words.map String.toList)
  let stdout ← IO.getStdout
  stdout.putStr (String.ofList outcome.stdout)
  stdout.flush
  return outcome.status.toUInt32
