import SymbolicMemory.Command.Line

/-! # The program

Reads files from disk, runs the command line, and prints its report.
-/

namespace SymbolicMemory

/-- What an operating system calls the problem that a directory is not a file. -/
def isDirectoryCode : UInt32 := 21

/-- What an operating system calls the problem that a name is too long; some calls negate it. -/
def longNameCode : UInt32 := 36

/-- Reads a file from disk. -/
def readDisk : FileReader IO := fun name => do
  if name.toList.contains '\x00' then return .error .impossibleName
  try
    return .ok (← IO.FS.readBinFile name)
  catch
    | .inappropriateType _ code _ =>
      return .error (if code = isDirectoryCode then .isDirectory else .notDirectory)
    | .invalidArgument _ code _ =>
      return .error (if code = longNameCode ∨ code = -longNameCode then .longName else .impossibleName)
    | _ => return .error .missing

end SymbolicMemory

open SymbolicMemory in
/-- Runs the program. Notes and errors go to the error output. -/
def main (arguments : List String) : IO UInt32 := do
  let report ← Command.run readDisk Backend.standard false arguments
  for event in report.log do
    IO.eprintln event.text
  IO.print report.out
  IO.eprint report.err
  return report.exit
