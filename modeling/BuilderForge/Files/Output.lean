import BuilderForge.Files.Tree
/-
  Outputs: files to be written, and writing them into a tree.

  Writing makes the directories above the file first. An output that is written
  only if it is missing leaves the tree alone if its path leads anywhere.
-/

namespace BuilderForge

/-- A file to be written. -/
structure Output where
  path : Text
  content : Text
  onlyIfMissing : Bool
  deriving DecidableEq

/-- What became of an output. -/
inductive Written where
  | written
  | skipped
  deriving DecidableEq, Repr

/-- Why an output could not be written. -/
inductive WriteFault where
  | directory (path : Text)
  | file (path : Text)
  deriving DecidableEq, Repr

/-- The fault in words. -/
def WriteFault.message : WriteFault → Text
  | .directory path => "failed to create directory '".toList ++ path ++ ['\'']
  | .file path => "failed to write '".toList ++ path ++ ['\'']

namespace Output

/-- Writes a file and the directories above it. -/
def overwrite (o : Output) (t : Tree) : Tree × Except WriteFault Written :=
  let parent := (Path.parent? o.path).getD []
  match t.makeDirectory parent with
  | (made, false) => (made, .error (.directory parent))
  | (made, true) =>
    match made.writeFile? o.path (Text.encode o.content) with
    | some done => (done, .ok .written)
    | none => (made, .error (.file o.path))

/-- Writes an output. -/
def write (o : Output) (t : Tree) : Tree × Except WriteFault Written :=
  if o.onlyIfMissing && t.reaches o.path then (t, .ok .skipped) else o.overwrite t

/-- Writes outputs one after the other up to the first fault. -/
def writeAll : List Output → Tree → Tree × Except WriteFault (List Written)
  | [], t => (t, .ok [])
  | o :: os, t =>
    match o.write t with
    | (t, .error f) => (t, .error f)
    | (t, .ok w) =>
      match writeAll os t with
      | (t, .error f) => (t, .error f)
      | (t, .ok ws) => (t, .ok (w :: ws))

end Output

end BuilderForge
