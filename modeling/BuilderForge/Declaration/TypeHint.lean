import BuilderForge.Text.Basic
/-
  Declared types and their nullability.

  A type is written `string`, `?string`, `string|null` or `null|string`. The
  name keeps its alternatives as they were written; a `null` alternative is
  taken out of it only at its first or last place, and only once.
-/

namespace BuilderForge

/-- A declared type: its alternatives with bars between them, and whether it
accepts `null` besides. -/
structure TypeHint where
  name : Text
  nullable : Bool
  deriving DecidableEq, Repr

namespace TypeHint

/-- Takes a `null` alternative off the front of a name, else off its end. -/
def dropNull? (name : Text) : Option Text :=
  match "null|".toList.isPrefixOf? name with
  | some rest => some rest
  | none => "|null".toList.isSuffixOf? name

/-- Takes a question mark off the front of a text. -/
def dropMark? : Text → Option Text
  | '?' :: rest => some rest
  | _ => none

/-- Reads a type. -/
def parse (raw : Text) : TypeHint :=
  let t := Text.trim raw
  let marked := dropMark? t
  let name := marked.getD t
  match dropNull? name with
  | some rest => ⟨rest, true⟩
  | none => ⟨name, marked.isSome⟩

/-- Whether there are several alternatives. -/
def isUnion (ty : TypeHint) : Bool := '|' ∈ ty.name

/-- The written form of a type. -/
def display (ty : TypeHint) : Text :=
  if ty.nullable then
    if ty.isUnion then ty.name ++ "|null".toList else '?' :: ty.name
  else ty.name

end TypeHint

end BuilderForge
