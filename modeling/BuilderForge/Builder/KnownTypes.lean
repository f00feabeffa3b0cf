import BuilderForge.Name.Label
import BuilderForge.Declaration.Annotation
/-
  Known types: the class names that an annotation may use.

  A doc comment is free text, so the type in it is taken only if it is a plain
  keyword or a known class; a declared type is taken whenever it is written as
  one. Names are compared without a separator in front and without regard to
  the case of A to Z.
-/

namespace BuilderForge

/-- A set of class names, each as its key. -/
structure KnownTypes where
  keys : List Text

namespace KnownTypes

/-- What two names have in common that mean the same class. -/
def key (name : Text) : Text := Text.fold (Name.stripSeparator name)

/-- The set without names. -/
def empty : KnownTypes := ⟨[]⟩

/-- The set with a name put in. -/
def insert (known : KnownTypes) (name : Text) : KnownTypes := ⟨key name :: known.keys⟩

/-- The set with names put in. -/
def insertAll (known : KnownTypes) (names : List Text) : KnownTypes := names.foldl insert known

/-- Whether a name is in the set. -/
def contains (known : KnownTypes) (name : Text) : Bool := known.keys.contains (key name)

/-- Classes and interfaces that every PHP program has. -/
def builtinClasses : List Text :=
  ["DateTime", "DateTimeImmutable", "DateTimeInterface", "DateInterval", "Closure", "Generator",
   "Traversable", "Iterator", "IteratorAggregate", "ArrayAccess", "Countable", "Stringable",
   "JsonSerializable", "Throwable", "Exception", "stdClass"].map String.toList

/-- The set of the classes that every PHP program has. -/
def builtin : KnownTypes := empty.insertAll builtinClasses

/-- The keywords that an annotation may use, in lower case. -/
def annotationKeywords : List Text :=
  ["int", "bool", "string", "float", "iterable", "callable", "array", "object",
   "void"].map String.toList

/-- Whether an annotation may name a type. -/
def allows (known : KnownTypes) (name : Text) : Bool :=
  annotationKeywords.contains (Text.fold name) || known.contains name

end KnownTypes

/-- The type, if it is written as one. -/
def TypeHint.wellFormed? (ty : TypeHint) : Option TypeHint :=
  if Name.isTypeList ty.name then some ty else none

/-- The type of the builder's parameter for a property. A declared type rules
out the annotation even if it is not usable. -/
def PropertyDeclaration.builderType (p : PropertyDeclaration) (known : KnownTypes) :
    Option TypeHint :=
  match p.type with
  | some ty => ty.wellFormed?
  | none =>
    match p.doc.bind Annotation.find? with
    | some word =>
      let ty := TypeHint.parse word
      if known.allows ty.name then some ty else none
    | none => none

/-- The type of the builder's parameter for a parameter of the entity. -/
def ParameterDeclaration.builderType (p : ParameterDeclaration) : Option TypeHint :=
  p.typeHint.bind TypeHint.wellFormed?

end BuilderForge
