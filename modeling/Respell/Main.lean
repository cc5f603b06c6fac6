import Respell.CommandLine.Report

/-!
# The program

The program reads words from its standard input, one a line, and prints what they become.
-/

namespace Respell

/-- The bytes of a stream up to its end. -/
partial def readAll (stream : IO.FS.Stream) (bytes : ByteArray) : IO ByteArray := do
  let chunk ← stream.read 65536
  if chunk.isEmpty then return bytes else readAll stream (bytes ++ chunk)

end Respell

open Respell CommandLine in
/-- Prints the report on the arguments and the standard input. -/
def main (arguments : List String) : IO UInt32 := do
  let input ← match Options.ofArguments arguments with
    | .ok _ => readAll (← IO.getStdin) .empty
    | .error _ => pure .empty
  let r := report arguments input.toList
  for line in r.diagnostics do
    IO.eprintln line
  IO.print r.standardOutput
  return r.status.code.toUInt32
