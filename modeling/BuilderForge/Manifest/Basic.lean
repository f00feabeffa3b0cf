import BuilderForge.Builder.Basic
import BuilderForge.Manifest.Style
/-
  Manifests: the settings of a run and the entities to build.
-/

namespace BuilderForge

/-- The settings of a manifest. `output` is a directory relative to the manifest. -/
structure Settings where
  marker : Option Text
  style : Style
  output : Option Text
  knownTypes : List Text

/-- A manifest; its entities are in the order of the file. -/
structure Manifest where
  settings : Settings
  entities : List Entity

/-- The settings of a manifest that sets nothing. -/
def Settings.default : Settings := ⟨none, .psr, none, []⟩

/-- The interface that marks the builders. -/
def Settings.effectiveMarker (s : Settings) : Text := s.marker.getD Builder.defaultMarker

/-- The first entity of a name, without regard to the case of A to Z and to a
separator in front. -/
def Manifest.entity? (m : Manifest) (name : Text) : Option Entity :=
  m.entities.find? fun e => Text.sameFolded e.qualifiedName (Name.stripSeparator name)

end BuilderForge
