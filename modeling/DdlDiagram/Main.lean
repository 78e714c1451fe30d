/-
The program: a run whose host is the system.
-/
import DdlDiagram.CommandLine.Run

namespace DdlDiagram.CommandLine

/-- The text of the input file.  A path through something that is no directory
(code 20) leads to no file. -/
def loadInput (input : Text) : IO (Except Failure Text) := do
  try
    let content ← IO.FS.readBinFile (String.ofList input)
    match decode? content with
    | some sql => return .ok sql
    | none => return .error (.unreadableInput input)
  catch error =>
    match error with
    | .noFileOrDirectory _ _ _ => return .error (.noInput input)
    | .inappropriateType _ 20 _ => return .error (.noInput input)
    | _ => return .error (.unreadableInput input)

/-- Write the output file; false when it cannot be made. -/
def saveOutput (path content : Text) : IO Bool := do
  try
    IO.FS.writeBinFile (String.ofList path) (encode content)
    return true
  catch _ => return false

/-- The system as the host of a run. -/
def Host.system : Host IO where
  load := loadInput
  save := saveOutput
  print text := do
    let stream ← IO.getStdout
    stream.putStr (String.ofList text)
    stream.flush
  tell text := do
    let stream ← IO.getStderr
    stream.putStr (String.ofList text)

end DdlDiagram.CommandLine

open DdlDiagram.CommandLine in
def main (arguments : List String) : IO UInt32 := do
  let status ← Host.system.run (arguments.map String.toList)
  return UInt32.ofNat status
