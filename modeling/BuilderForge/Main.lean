import BuilderForge.Command.Run
/-
  The program on the files of the machine.
-/

namespace BuilderForge.Machine

/-- The text of the library as a string. -/
def string (t : Text) : String := String.ofList t

/-- The bytes of a file, if it can be read. -/
def readFile? (path : Text) : IO (Option (List UInt8)) := do
  try
    let bytes ← IO.FS.readBinFile ⟨string path⟩
    return some bytes.toList
  catch _ => return none

/-- Whether a path leads anywhere. What is there need not be open to reading. -/
def reaches (path : Text) : IO Bool := do
  try
    let _ ← IO.FS.realPath ⟨string path⟩
    return true
  catch _ => return false

/-- Writes an output. -/
def writeFile (o : Output) : IO (Except WriteFault Written) := do
  if o.onlyIfMissing && (← reaches o.path) then return .ok .skipped
  let parent := (Path.parent? o.path).getD []
  try
    if parent ≠ [] then IO.FS.createDirAll ⟨string parent⟩
  catch _ => return .error (.directory parent)
  try
    IO.FS.writeBinFile ⟨string o.path⟩ (Text.encode o.content).toByteArray
    return .ok .written
  catch _ => return .error (.file o.path)

/-- Writes outputs one after the other up to the first fault. -/
def writeAll : List Output → IO (Except WriteFault (List Written))
  | [] => return .ok []
  | o :: os => do
    match ← writeFile o with
    | .error f => return .error f
    | .ok w => return (← writeAll os).map (w :: ·)

/-- Says what an outcome has to say and answers its code. -/
def finish (o : Command.Outcome) : IO UInt32 := do
  (← IO.getStdout).putStr (string o.output)
  (← IO.getStderr).putStr (string o.errors)
  return o.status.code.toUInt32

end BuilderForge.Machine

open BuilderForge in
/-- Runs the program. -/
def main (args : List String) : IO UInt32 := do
  match Command.Invocation.ofArguments (args.map String.toList) with
  | .error stop => Machine.finish stop.outcome
  | .ok i =>
    let bytes ← match i.input? with
      | some path => Machine.readFile? path
      | none => pure none
    match i.react bytes with
    | .error r => Machine.finish (.ofReport r)
    | .ok reaction => Machine.finish (.ofWritten reaction.reply (← Machine.writeAll reaction.outputs))
