import BuilderForge.Document.Basic
/-
  Records: reading structured data out of a document.

  A record is written as a table with one member for each field, or as a list
  of its fields in order. A choice is written as the name of an alternative or
  as a table whose one key is that name and whose value is its content. Reading
  follows the order of the text and reports the first thing that is wrong.
-/

namespace BuilderForge.Document

/-- The formats of documents. They differ in what stands for no content, and
in whether a list may be longer than the record that it is read as. -/
inductive Format where
  | json
  | toml
  deriving DecidableEq, Repr

/-- Whether a node is an alternative's content when the alternative has none. -/
def Format.isVoid : Format → Node → Bool
  | .json, .scalar _ .null => true
  | .toml, .table _ (.ending .closed) => true
  | .toml, .list _ (.ending .closed) => true
  | _, _ => false

/-! ## Simple data -/

namespace Node

/-- Reads a text. -/
def asText : Node → Except Fault Text
  | .text t => .ok t
  | n => .error n.refuse

/-- Reads a truth value. -/
def asBool : Node → Except Fault Bool
  | .scalar _ (.bool b) => .ok b
  | n => .error n.refuse

/-- Reads data that may be `null`. -/
def asOption {α : Type} (read : Node → Except Fault α) : Node → Except Fault (Option α)
  | .scalar _ .null => .ok none
  | .misspelt _ f => .error f
  | n => (read n).map some

end Node

/-- Reads the items of a list. -/
def Items.asList {α : Type} (read : Node → Except Fault α) : Items → Except Fault (List α)
  | .ending e => e.read.map fun _ => []
  | .item value _ rest => do
    let a ← read value
    let as ← rest.asList read
    return a :: as

/-- Reads a list. -/
def Node.asList {α : Type} (read : Node → Except Fault α) : Node → Except Fault (List α)
  | .list _ items => items.asList read
  | n => .error n.refuse

/-! ## Records -/

/-- When a field may be missing. -/
inductive Presence where
  /-- It is always given. -/
  | required
  /-- It may be missing from a table. -/
  | listed
  /-- It may be missing from a table or at the end of a list. -/
  | optional
  deriving DecidableEq, Repr

/-- A field of a record of type `σ`: its name, and how it is read into a record. -/
structure RecordField (σ : Type) where
  name : Text
  presence : Presence
  read : σ → Node → Except Fault σ

/-- Reads members into a record in which the fields `seen` are given already.
Members that are no fields are skipped, and a field is given once at most. -/
def Members.intoRecord {σ : Type} (fields : List (RecordField σ)) (seen : List Text) (s : σ) :
    Members → Except Fault σ
  | .ending e => do
    e.read
    if fields.all fun f => f.presence ≠ .required || f.name ∈ seen then return s
    else throw .mismatched
  | .member (.flawed f) _ _ _ => .error f
  | .member (.text key) value _ rest =>
    match fields.find? fun f => f.name = key with
    | none => do
      value.skip
      rest.intoRecord fields seen s
    | some field =>
      if key ∈ seen then .error .mismatched
      else do
        let s ← field.read s value
        rest.intoRecord fields (key :: seen) s

/-- Reads items into a record, one for each field. `after` is what to report
if there are more items than fields. -/
def Items.intoRecord {σ : Type} (format : Format) (after : Fault) (s : σ) :
    List (RecordField σ) → Items → Except Fault σ
  | [], .ending .closed => .ok s
  | [], _ => if format = .json then .error after else .ok s
  | fields, .ending e => do
    e.read
    if fields.all fun f => f.presence = .optional then return s else throw .mismatched
  | field :: fields, .item value after rest => do
    let s ← field.read s value
    rest.intoRecord format after s fields

/-- Reads a record; the fields that are not given are those of `blank`. -/
def Node.asRecord {σ : Type} (format : Format) (fields : List (RecordField σ)) (blank : σ) :
    Node → Except Fault σ
  | .table _ members => members.intoRecord fields [] blank
  | .list _ items => items.intoRecord format .mismatched blank fields
  | n => .error n.refuse

/-! ## Choices -/

/-- An alternative of a choice: its name, its value if it has no content, and
else how its content is read. -/
structure Alternative (α : Type) where
  name : Text
  content : α ⊕ (Node → Except Fault α)

/-- Reads the content of an alternative. -/
def Alternative.read {α : Type} (format : Format) (a : Alternative α) (n : Node) :
    Except Fault α :=
  match a.content with
  | .inl value => if format.isVoid n then .ok value else .error n.refuse
  | .inr read => read n

/-- Reads a choice. -/
def Node.asChoice {α : Type} (format : Format) (alternatives : List (Alternative α)) :
    Node → Except Fault α
  | .text name =>
    match alternatives.find? fun a => a.name = name with
    | some ⟨_, .inl value⟩ => .ok value
    | _ => .error .mismatched
  | .table _ (.member (.text name) value after rest) =>
    match alternatives.find? fun a => a.name = name with
    | none => .error .mismatched
    | some a => do
      let result ← a.read format value
      match rest with
      | .ending .closed => return result
      | _ => throw after
  | .table _ (.member (.flawed f) _ _ _) => .error f
  | .table _ (.ending (.broken flaw)) => .error flaw.reading
  | .table keyless (.ending .closed) => .error keyless
  | n => .error n.opening

end BuilderForge.Document
