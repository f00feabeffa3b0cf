import BuilderForge.Files.Output
import BuilderForge.Manifest.Plan
import BuilderForge.Manifest.Source
/-
  Manifests and files: reading a manifest from a file, and the files that a
  manifest makes under a directory.
-/

namespace BuilderForge.Manifest

/-- The format of a file by its extension: JSON if it says so, else TOML. -/
def formatOf (path : Text) : Document.Format :=
  if (Path.extension? path).any (Text.sameFolded "json".toList) then .json else .toml

/-- The manifest in a file, given what the file holds. -/
def ofFile (path : Text) (bytes : Option (List UInt8)) : Except Report Manifest :=
  match bytes.bind Text.decode? with
  | some source => ofSource (formatOf path) path source
  | none => .error ⟨.unreadable path, none, []⟩

/-- The files of the manifest under a directory. -/
def outputs (m : Manifest) (style : Style) (directory : Text) : List Output :=
  (m.previews style).map fun p => ⟨Path.join directory p.path, p.content, false⟩

/-- Writes the files of the manifest and answers their paths below the directory. -/
def generate (m : Manifest) (style : Style) (directory : Text) (t : Tree) :
    Tree × Except WriteFault (List Text) :=
  match Output.writeAll (m.outputs style directory) t with
  | (t, .ok _) => (t, .ok ((m.previews style).map Preview.path))
  | (t, .error f) => (t, .error f)

end BuilderForge.Manifest
