import BuilderForge.Text.Utf8
import BuilderForge.Name.Label
import BuilderForge.Php.Class
/-
  Namespaces and their imports, and how a class name is written inside one.

  `shorten` gives the shortest way to write a class name that the imports
  offer. Without a covering import a name below the namespace is written
  relative to it, and any other name in full. Names are cut by bytes; a cut
  that cannot be made leaves `shorten` without an answer, and the name of the
  namespace itself is the one case of it (`shorten_eq_none_iff`).

  All comparisons of names fold the case of A to Z, as PHP does.
-/

namespace BuilderForge.Php

/-- An imported name and the last label of it, under which it is known. -/
structure Import where
  label : Text
  name : Text
  deriving DecidableEq, Repr

/-- A namespace; the global one has the empty name. Imports are in the order in
which their labels first came. -/
structure Namespace where
  name : Text
  imports : List Import
  classes : List Class

/-- The imports after one more: in place of the one with the same label, else at the end. -/
def putImport (i : Import) : List Import → List Import
  | [] => [i]
  | j :: rest => if j.label = i.label then i :: rest else j :: putImport i rest

/-- Whether `name` is `scope` or lies below it. -/
def covers (scope name : Text) : Bool :=
  (Text.fold scope ++ [Name.separator]).isPrefixOf (Text.fold name ++ [Name.separator])

/-- The text of fewest bytes, the first one if several have as few. -/
def fewestBytes : List Text → Option Text
  | [] => none
  | t :: ts =>
    match fewestBytes ts with
    | none => some t
    | some u => if Text.byteSize u < Text.byteSize t then some u else some t

/-- The import's way to write a name that it covers: the label in place of as
many bytes as the imported name has. -/
def Import.shortened? (i : Import) (name : Text) : Option Text :=
  (Text.dropBytes? (Text.byteSize i.name) name).map fun rest => i.label ++ rest

namespace Namespace

/-- A namespace without imports and classes. -/
def named (name : Text) : Namespace := ⟨Name.stripSeparator name, [], []⟩

/-- Imports a name under its last label. The empty name is not imported. -/
def addImport (ns : Namespace) (name : Text) : Namespace :=
  let n := Name.stripSeparator name
  if n = [] then ns else { ns with imports := putImport ⟨Name.short n, n⟩ ns.imports }

/-- Adds a class at the end. -/
def addClass (ns : Namespace) (c : Class) : Namespace :=
  { ns with classes := ns.classes ++ [c] }

/-- The imported names in the order of their folded letters. -/
def importedNames (ns : Namespace) : List Text :=
  (ns.imports.map Import.name).mergeSort fun a b => !(Text.fold b < Text.fold a)

/-- A name below the namespace as it is written there, and any other in full.
What is dropped is the namespace and the separator after it. -/
def shortenWithoutImport (ns : Namespace) (name : Text) : Option Text :=
  if ns.name = [] then some name
  else if covers ns.name name then Text.dropBytes? (Text.byteSize ns.name + 1) name
  else some (Name.separator :: name)

/-- How a class name is written inside the namespace. Type keywords and the
empty name stand for themselves. There is no answer where bytes would be
dropped that the name does not have, or half a character. -/
def shorten (ns : Namespace) (name : Text) : Option Text :=
  if name = [] ∨ Name.isTypeKeyword name then some name
  else do
    let n := Name.stripSeparator name
    let shorts ← (ns.imports.filter fun i => covers i.name n).mapM fun i => i.shortened? n
    match fewestBytes shorts with
    | some short => return short
    | none => ns.shortenWithoutImport n

end Namespace

end BuilderForge.Php
