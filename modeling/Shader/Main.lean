import Shader.Tool

/-!
# The command line

`dis IN` prints the listing of the module in a file. `roundtrip IN OUT` reports on it and writes it
again.
-/

namespace Shader

def readInput (path : Option String) : IO Input := do
  match path with
  | none => return none
  | some path =>
    try return some (← IO.FS.readBinFile path).toList
    catch _ => return none

def runCommand (command : Command) : IO UInt32 := do
  let outcome := command.run (← readInput command.input?)
  (← IO.getStdout).putStr outcome.output
  (← IO.getStderr).putStr outcome.diagnostics
  if let (some path, some bytes) := (command.output?, outcome.file) then IO.FS.writeBinFile path ⟨bytes.toArray⟩
  return if outcome.success then 0 else 1

end Shader

def main (args : List String) : IO UInt32 := do
  match args.head?.bind (Shader.Command.ofArgs? · args.tail) with
  | some command => Shader.runCommand command
  | none =>
    IO.eprintln "Usage: dis IN | roundtrip IN OUT"
    return 1
