import BuilderForge.Builder.Accessor
import BuilderForge.Builder.KnownTypes
import BuilderForge.Php.Coverage
import BuilderForge.Value.Literal
/-
  Builders: the class that builds the instances of an entity.

  The class holds an instance, forwards each accessor to it and answers itself,
  and `build` hands the instance out. Inside the class every reference to the
  entity is written in full; the page shortens it. The builder stands in the
  namespace of its entity, which imports itself, so its page always exists.
-/

namespace BuilderForge

/-- What determines a builder: the entity, the interface that marks builders,
and the classes that annotations may name. -/
structure Builder where
  entity : Entity
  marker : Text
  known : KnownTypes

namespace Builder

/-- The interface that marks builders unless another one is set. -/
def defaultMarker : Text := "Kelunik\\Builders\\Builder".toList

/-- The builder of an entity on its own. -/
def ofEntity (e : Entity) : Builder := ⟨e, defaultMarker, KnownTypes.builtin.insert e.name⟩

/-! ## Names -/

/-- What the name of a builder ends in. -/
def suffix : Text := "BuilderMethods".toList

/-- Whether a name may be that of an entity: it does not end like a builder's. -/
def isEligible (name : Text) : Bool :=
  !(suffix.isSuffixOf name || "Builder".toList.isSuffixOf name)

/-- Whether the entity gets a builder; an entity that is a builder itself gets none. -/
def isWanted (b : Builder) : Bool := isEligible b.entity.name

/-- The name of the builder inside its namespace. -/
def shortName (b : Builder) : Text := b.entity.shortName ++ suffix

/-- The name of the builder. -/
def name (b : Builder) : Text := Name.qualify b.entity.scope b.shortName

/-- The name of the entity, written in full. -/
def entityReference (b : Builder) : Text := Name.separator :: b.entity.qualifiedName

/-! ## Methods -/

/-- The source text of a parameter's default. -/
def defaultText (b : Builder) : Default → Text
  | .null => "null".toList
  | .value v => v.literal
  | .constant name => b.entity.shortName ++ "::".toList ++ Default.unqualified name

/-- The builder's parameter for a parameter of the entity. -/
def parameter (b : Builder) (p : ParameterDeclaration) : Php.Parameter :=
  ⟨p.name, p.builderType, p.default.map b.defaultText⟩

/-- A method that runs a statement on the entity and answers the builder. -/
def fluent (name : Text) (params : List Php.Parameter) (statement : Text) : Php.Method :=
  Php.Method.addBody ⟨name, .publicAccess, true, params, none, []⟩
    (statement ++ "\n\nreturn $this;".toList)

/-- The method of an accessor. A field or setter has its parameter under the
name `value`; a mutator keeps its parameters and replaces the entity. -/
def method (b : Builder) (a : Accessor) : Php.Method :=
  match a with
  | .field p =>
    fluent a.methodName [⟨"value".toList, p.builderType b.known, none⟩]
      ("$this->entity->".toList ++ p.name ++ " = $value;".toList)
  | .setter m =>
    fluent a.methodName (m.params.map fun p => { b.parameter p with name := "value".toList })
      ("$this->entity->".toList ++ m.name ++ "($value);".toList)
  | .mutator m =>
    fluent a.methodName (m.params.map b.parameter)
      ("$this->entity = $this->entity->".toList ++ m.name ++ '(' ::
        Text.join [',', ' '] (m.params.map fun p => '$' :: p.name) ++ ");".toList)

/-- The constructor, which makes the instance. -/
def constructor (b : Builder) : Php.Method :=
  Php.Method.addBody ⟨"__construct".toList, .publicAccess, false, [], none, []⟩
    ("$this->entity = new ".toList ++ b.entityReference ++ [';'])

/-- The method that hands the instance out. -/
def finisher (b : Builder) : Php.Method :=
  Php.Method.addBody ⟨"build".toList, .publicAccess, true, [], some ⟨b.entityReference, false⟩, []⟩
    "return $this->entity;".toList

/-! ## The class and its page -/

/-- The methods in the order in which they are added. -/
def methods (b : Builder) : List Php.Method :=
  b.constructor :: (b.entity.accessors.map b.method ++ [b.finisher])

/-- The class of the builder. -/
def toClass (b : Builder) : Php.Class :=
  Php.Class.addMethods ⟨b.shortName, [b.marker], [⟨"entity".toList, .privateAccess⟩], []⟩ b.methods

/-- The namespace that holds the class and nothing else. -/
def toNamespace (b : Builder) : Php.Namespace :=
  ((Php.Namespace.named b.entity.scope).addImport b.entity.scope).addClass b.toClass

/-- The page of the builder. Every name on it has a short form. -/
def page (b : Builder) (layout : Php.Layout) : Text :=
  (b.toNamespace.page layout).get
    (Php.Namespace.isSome_page (Php.Namespace.isCovered_addImport_named _ _) layout)

/-- The page of the builder, if the entity gets one. -/
def page? (b : Builder) (layout : Php.Layout) : Option Text :=
  if b.isWanted then some (b.page layout) else none

end Builder

end BuilderForge
