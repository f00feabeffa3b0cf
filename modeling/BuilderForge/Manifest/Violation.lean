import BuilderForge.Name.Label
import BuilderForge.Manifest.Basic
/-
  Violations: what can be wrong with a manifest that is well-formed.

  `violations` lists everything that is wrong in the order in which it is
  reported: the settings first, then entity by entity its properties and
  methods, and after the entity whether an earlier one has its name. A manifest
  is valid if the list is empty; of an invalid one the first violation is the
  one that is reported.
-/

namespace BuilderForge

/-- What a name is the name of. -/
inductive Role where
  | marker
  | knownType
  | entity
  | property
  | method
  | parameter
  | type
  | constant
  deriving DecidableEq, Repr

/-- The role in words. -/
def Role.text : Role → Text
  | .marker => "marker interface".toList
  | .knownType => "known type".toList
  | .entity => "entity".toList
  | .property => "property".toList
  | .method => "method".toList
  | .parameter => "parameter".toList
  | .type => "type".toList
  | .constant => "constant".toList

/-- Something that is wrong with a manifest. -/
inductive Violation where
  /-- A name is not written as one. -/
  | malformed (role : Role) (name : Text)
  /-- The last label of a class name is reserved. -/
  | reserved (name : Text)
  /-- A parameter has the name of the object itself. -/
  | selfParameter (parameter method : Text)
  /-- A method has two parameters of one name. -/
  | repeatedParameter (parameter method : Text)
  /-- Two entities have one name. -/
  | repeatedEntity (name : Text)
  deriving DecidableEq, Repr

namespace Violation

/-- The violation in words. -/
def message : Violation → Text
  | malformed role name => "invalid ".toList ++ role.text ++ " name '".toList ++ name ++ ['\'']
  | reserved name => '\'' :: name ++ "' is reserved and cannot be used as a class name".toList
  | selfParameter parameter method =>
    "'$".toList ++ parameter ++ "' cannot be a parameter of '".toList ++ method ++ ['\'']
  | repeatedParameter parameter method =>
    "duplicate parameter '$".toList ++ parameter ++ "' in method '".toList ++ method ++ ['\'']
  | repeatedEntity name => "entity '".toList ++ name ++ "' is declared more than once".toList

/-- The kind of the violation as a code. -/
def code : Violation → Text
  | malformed _ _ => "builders::invalid_identifier".toList
  | reserved _ => "builders::reserved_name".toList
  | selfParameter _ _ => "builders::validation_error".toList
  | repeatedParameter _ _ => "builders::validation_error".toList
  | repeatedEntity _ => "builders::duplicate_entity".toList

/-- The text to look for in the source of the manifest. -/
def subject : Violation → Text
  | malformed _ name => name
  | reserved name => name
  | selfParameter parameter _ => parameter
  | repeatedParameter parameter _ => parameter
  | repeatedEntity name => name

/-- What is said of the places where the subject is found, the first place first. -/
def labelTexts (v : Violation) : List Text :=
  match v with
  | malformed _ _ => ["invalid identifier".toList]
  | reserved _ => ["reserved name used here".toList]
  | selfParameter _ _ => [v.message]
  | repeatedParameter _ _ => [v.message]
  | repeatedEntity _ => ["first declared here".toList, "declared again here".toList]

/-- Advice on the violation. -/
def help? : Violation → Option Text
  | malformed _ _ =>
    some ("PHP names start with a letter or underscore, " ++
      "followed by letters, digits or underscores").toList
  | repeatedEntity _ => some "merge the declarations into a single [[entities]] entry".toList
  | _ => none

end Violation

/-! ## What is wrong with a manifest -/

/-- What is wrong with a name that has to be a label. -/
def labelViolations (role : Role) (name : Text) : List Violation :=
  if Name.isLabel name then [] else [.malformed role name]

/-- What is wrong with a class name. -/
def classNameViolations (role : Role) (name : Text) : List Violation :=
  if !Name.isPath (Name.stripSeparator name) then [.malformed role name]
  else if Name.isReserved (Name.short name) then [.reserved name]
  else []

/-- What is wrong with a declared type. -/
def typeViolations (type : Option TypeHint) : List Violation :=
  match type with
  | some ty => if Name.isTypeList ty.name then [] else [.malformed .type ty.name]
  | none => []

/-- What is wrong with a default. -/
def defaultViolations (default : Option Default) : List Violation :=
  match default with
  | some (.constant name) => labelViolations .constant (Default.unqualified name)
  | _ => []

/-- The name that a parameter cannot have. -/
def selfName : Text := "this".toList

/-- What is wrong with the parameters of a method; `seen` are the names before them. -/
def parameterViolations (method : Text) (seen : List Text) :
    List ParameterDeclaration → List Violation
  | [] => []
  | p :: ps =>
    labelViolations .parameter p.name ++ typeViolations p.type ++
    (if p.name = selfName then [.selfParameter p.name method] else []) ++
    (if seen.contains p.name then [.repeatedParameter p.name method] else []) ++
    defaultViolations p.default ++
    parameterViolations method (p.name :: seen) ps

/-- What is wrong with a property. -/
def PropertyDeclaration.violations (p : PropertyDeclaration) : List Violation :=
  labelViolations .property p.name ++ typeViolations p.type

/-- What is wrong with a method. -/
def MethodDeclaration.violations (m : MethodDeclaration) : List Violation :=
  labelViolations .method m.name ++ parameterViolations m.name [] m.params

/-- What is wrong with an entity by itself. -/
def Entity.violations (e : Entity) : List Violation :=
  classNameViolations .entity e.name ++
  e.properties.flatMap PropertyDeclaration.violations ++
  e.methods.flatMap MethodDeclaration.violations

/-- What is wrong with entities; `seen` are the folded names of those before them. -/
def entityViolations (seen : List Text) : List Entity → List Violation
  | [] => []
  | e :: es =>
    e.violations ++
    (if seen.contains (Text.fold e.qualifiedName) then [.repeatedEntity e.qualifiedName] else []) ++
    entityViolations (Text.fold e.qualifiedName :: seen) es

/-- What is wrong with settings. -/
def Settings.violations (s : Settings) : List Violation :=
  s.marker.toList.flatMap (classNameViolations .marker) ++
  s.knownTypes.flatMap (classNameViolations .knownType)

namespace Manifest

/-- What is wrong with a manifest, in the order of the reports. -/
def violations (m : Manifest) : List Violation :=
  m.settings.violations ++ entityViolations [] m.entities

/-- Whether nothing is wrong with a manifest. -/
def isValid (m : Manifest) : Bool := m.violations.isEmpty

end Manifest

end BuilderForge
