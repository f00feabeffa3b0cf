import BuilderForge.Text.Numeral
import BuilderForge.Document.Record
import BuilderForge.Manifest.Basic
/-
  Manifests read out of documents.

  The fields of every record are listed in the order in which they stand when
  the record is written as a list. Only the name of a declaration is required
  in a table.
-/

namespace BuilderForge

open Document (Node Items Members Format RecordField)

/-! ## Values -/

mutual

/-- Reads a value. An integer of more than 64 bits is refused. -/
def Document.Node.asValue : Node → Except Fault Value
  | .scalar _ .null => .ok .null
  | .scalar _ (.bool b) => .ok (.bool b)
  | .scalar _ (.integer i) =>
    if Numeral.fitsWord i then .ok (.int (Int64.ofInt i)) else .error .mismatched
  | .scalar _ (.float x) => .ok (.float x)
  | .text t => .ok (.string t)
  | .list _ items => do return .list (← items.asValues)
  | .table _ members => do return .ofEntries (← members.asEntries)
  | .misspelt _ f => .error f
  | .flawed _ flaw => .error flaw.reading

/-- Reads the values of a list. -/
def Document.Items.asValues : Items → Except Fault (List Value)
  | .ending e => do
    e.read
    return []
  | .item value _ rest => do
    let v ← value.asValue
    let vs ← rest.asValues
    return v :: vs

/-- Reads the entries of a map as they stand. -/
def Document.Members.asEntries : Members → Except Fault (List (Text × Value))
  | .ending e => do
    e.read
    return []
  | .member (.flawed f) _ _ _ => .error f
  | .member (.text key) value _ rest => do
    let v ← value.asValue
    let entries ← rest.asEntries
    return (key, v) :: entries

end

/-! ## Choices -/

/-- Reads a visibility. -/
def Visibility.ofNode (format : Format) (n : Node) : Except Fault Visibility :=
  n.asChoice format
    [⟨"public".toList, .inl .publicAccess⟩,
     ⟨"protected".toList, .inl .protectedAccess⟩,
     ⟨"private".toList, .inl .privateAccess⟩]

/-- Reads a style. -/
def Style.ofNode (format : Format) (n : Node) : Except Fault Style :=
  n.asChoice format [⟨"psr".toList, .inl .psr⟩, ⟨"nette".toList, .inl .nette⟩]

/-- Reads the default of a parameter. -/
def Default.ofNode (format : Format) (n : Node) : Except Fault Default :=
  n.asChoice format
    [⟨"null".toList, .inl .null⟩,
     ⟨"value".toList, .inr fun n => n.asValue.map .value⟩,
     ⟨"constant".toList, .inr fun n => n.asText.map .constant⟩]

/-- Reads a type. -/
def TypeHint.ofNode (n : Node) : Except Fault TypeHint := n.asText.map TypeHint.parse

/-! ## Records -/

/-- The fields of a parameter. -/
def ParameterDeclaration.fields (format : Format) : List (RecordField ParameterDeclaration) :=
  [⟨"name".toList, .required, fun p n => do return { p with name := ← n.asText }⟩,
   ⟨"type".toList, .optional, fun p n => do return { p with type := ← n.asOption TypeHint.ofNode }⟩,
   ⟨"nullable".toList, .optional, fun p n => do return { p with nullable := ← n.asBool }⟩,
   ⟨"default".toList, .optional,
    fun p n => do return { p with default := ← n.asOption (Default.ofNode format) }⟩]

/-- Reads a parameter. -/
def ParameterDeclaration.ofNode (format : Format) (n : Node) : Except Fault ParameterDeclaration :=
  n.asRecord format (ParameterDeclaration.fields format) ⟨[], none, false, none⟩

/-- The fields of a method. -/
def MethodDeclaration.fields (format : Format) : List (RecordField MethodDeclaration) :=
  [⟨"name".toList, .required, fun m n => do return { m with name := ← n.asText }⟩,
   ⟨"visibility".toList, .optional,
    fun m n => do return { m with visibility := ← Visibility.ofNode format n }⟩,
   ⟨"static".toList, .optional, fun m n => do return { m with isStatic := ← n.asBool }⟩,
   ⟨"params".toList, .optional,
    fun m n => do return { m with params := ← n.asList (ParameterDeclaration.ofNode format) }⟩]

/-- Reads a method. -/
def MethodDeclaration.ofNode (format : Format) (n : Node) : Except Fault MethodDeclaration :=
  n.asRecord format (MethodDeclaration.fields format) ⟨[], .publicAccess, false, []⟩

/-- The fields of a property. -/
def PropertyDeclaration.fields (format : Format) : List (RecordField PropertyDeclaration) :=
  [⟨"name".toList, .required, fun p n => do return { p with name := ← n.asText }⟩,
   ⟨"visibility".toList, .optional,
    fun p n => do return { p with visibility := ← Visibility.ofNode format n }⟩,
   ⟨"static".toList, .optional, fun p n => do return { p with isStatic := ← n.asBool }⟩,
   ⟨"type".toList, .optional, fun p n => do return { p with type := ← n.asOption TypeHint.ofNode }⟩,
   ⟨"doc".toList, .optional, fun p n => do return { p with doc := ← n.asOption Node.asText }⟩]

/-- Reads a property. -/
def PropertyDeclaration.ofNode (format : Format) (n : Node) : Except Fault PropertyDeclaration :=
  n.asRecord format (PropertyDeclaration.fields format) ⟨[], .publicAccess, false, none, none⟩

/-- The fields of an entity. -/
def Entity.fields (format : Format) : List (RecordField Entity) :=
  [⟨"name".toList, .required, fun e n => do return { e with name := ← n.asText }⟩,
   ⟨"properties".toList, .optional,
    fun e n => do return { e with properties := ← n.asList (PropertyDeclaration.ofNode format) }⟩,
   ⟨"methods".toList, .optional,
    fun e n => do return { e with methods := ← n.asList (MethodDeclaration.ofNode format) }⟩]

/-- Reads an entity. -/
def Entity.ofNode (format : Format) (n : Node) : Except Fault Entity :=
  n.asRecord format (Entity.fields format) ⟨[], [], []⟩

/-- The fields of the settings. -/
def Settings.fields (format : Format) : List (RecordField Settings) :=
  [⟨"marker".toList, .listed, fun s n => do return { s with marker := ← n.asOption Node.asText }⟩,
   ⟨"printer".toList, .optional, fun s n => do return { s with style := ← Style.ofNode format n }⟩,
   ⟨"output".toList, .listed, fun s n => do return { s with output := ← n.asOption Node.asText }⟩,
   ⟨"known_types".toList, .optional,
    fun s n => do return { s with knownTypes := ← n.asList Node.asText }⟩]

/-- Reads settings. -/
def Settings.ofNode (format : Format) (n : Node) : Except Fault Settings :=
  n.asRecord format (Settings.fields format) Settings.default

/-- The fields of a manifest. -/
def Manifest.fields (format : Format) : List (RecordField Manifest) :=
  [⟨"generator".toList, .optional,
    fun m n => do return { m with settings := ← Settings.ofNode format n }⟩,
   ⟨"entities".toList, .optional,
    fun m n => do return { m with entities := ← n.asList (Entity.ofNode format) }⟩]

/-- Reads a manifest out of a document; nothing may follow it. -/
def Manifest.ofDocument (format : Format) (d : Document) : Except Fault Manifest := do
  let m ← d.root.asRecord format (Manifest.fields format) ⟨Settings.default, []⟩
  match d.trailing with
  | some f => throw f
  | none => return m

end BuilderForge
