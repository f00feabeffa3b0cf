import BuilderForge.Name.Qualified
import BuilderForge.Declaration.TypeHint
import BuilderForge.Value.Basic
/-
  Declarations: an entity class as far as its builder depends on it.

  An entity has properties and methods, in the order in which they were
  declared. Only public members that are not static are open to a builder. A
  parameter's default is `null`, a value, or a constant of the entity, which may
  be qualified with `self::` or `static::`.
-/

namespace BuilderForge

/-- Who may use a member. -/
inductive Visibility where
  | publicAccess
  | protectedAccess
  | privateAccess
  deriving DecidableEq, Repr

/-- The default of a parameter. -/
inductive Default where
  | null
  | value (v : Value)
  | constant (name : Text)

/-- A parameter of a declared method. -/
structure ParameterDeclaration where
  name : Text
  type : Option TypeHint
  nullable : Bool
  default : Option Default

/-- A declared property; `doc` is its raw doc comment. -/
structure PropertyDeclaration where
  name : Text
  visibility : Visibility
  isStatic : Bool
  type : Option TypeHint
  doc : Option Text

/-- A declared method. -/
structure MethodDeclaration where
  name : Text
  visibility : Visibility
  isStatic : Bool
  params : List ParameterDeclaration

/-- A declared class whose instances a builder makes. -/
structure Entity where
  name : Text
  properties : List PropertyDeclaration
  methods : List MethodDeclaration

namespace Default

/-- Whether the default is declared as `null` itself, not as a value. -/
def isNull : Default → Bool
  | .null => true
  | _ => false

/-- A constant's name without one qualifier that means its own class. -/
def unqualified (name : Text) : Text :=
  match "self::".toList.isPrefixOf? name with
  | some rest => rest
  | none => ("static::".toList.isPrefixOf? name).getD name

end Default

/-- The type that a parameter accepts: the declared one, and `null` besides if
the parameter is nullable or its default is `null`. -/
def ParameterDeclaration.typeHint (p : ParameterDeclaration) : Option TypeHint :=
  p.type.map fun ty =>
    { ty with nullable := ty.nullable || p.nullable || p.default.any Default.isNull }

/-- Whether a builder can reach the property. -/
def PropertyDeclaration.isOpen (p : PropertyDeclaration) : Bool :=
  p.visibility = .publicAccess && !p.isStatic

/-- Whether a builder can reach the method. -/
def MethodDeclaration.isOpen (m : MethodDeclaration) : Bool :=
  m.visibility = .publicAccess && !m.isStatic

namespace Entity

/-- The name of the class without a separator in front. -/
def qualifiedName (e : Entity) : Text := Name.stripSeparator e.name

/-- The namespace of the class. -/
def scope (e : Entity) : Text := Name.scope e.name

/-- The name of the class without its namespace. -/
def shortName (e : Entity) : Text := Name.short e.name

end Entity

end BuilderForge
