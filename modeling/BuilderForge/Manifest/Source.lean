import BuilderForge.Document.Json.Tree
import BuilderForge.Document.Toml.Statement
import BuilderForge.Manifest.Label
import BuilderForge.Manifest.Reading
import BuilderForge.Manifest.Violation
/-
  Sources: manifests as texts, and why a text is no valid manifest.

  A source is read as a document of its format, the document as a manifest, and
  the manifest is checked. What goes wrong first is reported, with labels on
  the places of the source that have to do with it.
-/

namespace BuilderForge

open Document (Format)

/-- Why there is no manifest. -/
inductive Cause where
  /-- There is no text under a path. -/
  | unreadable (path : Text)
  /-- A text is no TOML manifest. -/
  | malformedToml
  /-- A text is no JSON manifest. -/
  | malformedJson (f : Fault)
  /-- The manifest is not valid. -/
  | invalid (v : Violation)

namespace Cause

/-- The cause in words. -/
def message : Cause → Text
  | unreadable path => "failed to read '".toList ++ path ++ ['\'']
  | malformedToml => "failed to parse declaration manifest".toList
  | malformedJson _ => "failed to parse JSON declarations".toList
  | invalid v => v.message

/-- The kind of the cause as a code. -/
def code? : Cause → Option Text
  | unreadable _ => none
  | malformedToml => some "builders::parse_error".toList
  | malformedJson _ => some "builders::parse_error".toList
  | invalid v => some v.code

/-- Advice on the cause. -/
def help? : Cause → Option Text
  | unreadable _ => some "run 'builders init' to create a starter builders.toml".toList
  | invalid v => v.help?
  | _ => none

/-- What is said under the cause where it lies in the source. -/
def labels (source : Text) : Cause → List Label
  | unreadable _ => []
  | malformedToml => []
  | malformedJson f => Label.ofFault source f
  | invalid v => Label.attach v.labelTexts v.subject source

end Cause

/-- A report on a manifest that could not be had. The name of the source is
missing if there is no source. -/
structure Report where
  cause : Cause
  sourceName : Option Text
  labels : List Label

namespace Manifest

/-- Reads a text in a format. -/
def parse (format : Format) (source : Text) : Except Cause Manifest :=
  match format with
  | .json => (ofDocument .json (Document.Json.document source)).mapError .malformedJson
  | .toml =>
    match Document.Toml.document? source with
    | none => .error .malformedToml
    | some d => (ofDocument .toml d).mapError fun _ => .malformedToml

/-- Reads a text in a format and checks the manifest. -/
def check (format : Format) (source : Text) : Except Cause Manifest := do
  let m ← parse format source
  match m.violations with
  | [] => return m
  | v :: _ => throw (.invalid v)

/-- The manifest of a source with a name. -/
def ofSource (format : Format) (name source : Text) : Except Report Manifest :=
  (check format source).mapError fun cause => ⟨cause, some name, cause.labels source⟩

/-- The name of a source that has no other. -/
def defaultName : Format → Text
  | .json => "builders.json".toList
  | .toml => "builders.toml".toList

end Manifest

end BuilderForge
