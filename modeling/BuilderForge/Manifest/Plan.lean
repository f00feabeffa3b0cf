import BuilderForge.Manifest.Basic
/-
  Plans: what a manifest makes, before anything is written.

  Each entity either has a preview, which is the file of its builder, or is
  skipped. All builders of a manifest share its marker and its known types,
  and every entity of the manifest is a known type.
-/

namespace BuilderForge

/-- A file to be written; the path is relative to the output directory. -/
structure Preview where
  path : Text
  content : Text
  deriving DecidableEq

/-- An entity without a builder. -/
structure Skipped where
  name : Text
  reason : Text
  deriving DecidableEq

/-- The path of a builder's file: a directory for each label of its namespace. -/
def Builder.path (b : Builder) : Text :=
  (b.name.map fun c => if c = Name.separator then '/' else c) ++ ".php".toList

/-- Why an entity is skipped. -/
def Skipped.isBuilder : Text := "class is a builder itself".toList

namespace Manifest

/-- The classes that annotations of the manifest may name. -/
def known (m : Manifest) : KnownTypes :=
  (KnownTypes.builtin.insertAll (m.entities.map Entity.name)).insertAll m.settings.knownTypes

/-- The builder of an entity of the manifest. -/
def builder (m : Manifest) (e : Entity) : Builder := ⟨e, m.settings.effectiveMarker, m.known⟩

/-- The file of a builder, if its entity gets one. -/
def preview? (m : Manifest) (style : Style) (e : Entity) : Option Preview :=
  ((m.builder e).page? style.layout).map fun content => ⟨(m.builder e).path, content⟩

/-- The files that the manifest makes, in the order of the entities. -/
def previews (m : Manifest) (style : Style) : List Preview :=
  m.entities.filterMap (m.preview? style)

/-- The entities that get no builder, in their order. -/
def skipped (m : Manifest) : List Skipped :=
  (m.entities.filter fun e => !(m.builder e).isWanted).map fun e =>
    ⟨e.qualifiedName, Skipped.isBuilder⟩

end Manifest

end BuilderForge
