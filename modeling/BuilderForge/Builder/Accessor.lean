import BuilderForge.Declaration.Basic
/-
  Accessors: the members of an entity that get a method in its builder.

  Every open property is a field. An open method is a setter if its name begins
  with `set` and it has one parameter, and a mutator if its name begins with
  `with` and it has any. The members are taken as they were declared and then
  ordered by kind, fields first and mutators last, so of several accessors with
  one method name the most specific has the last word.
-/

namespace BuilderForge

/-- A member of an entity that gets a method in the builder. -/
inductive Accessor where
  | field (p : PropertyDeclaration)
  | setter (m : MethodDeclaration)
  | mutator (m : MethodDeclaration)

/-- The accessor that a method is, if it is one: a setter changes the entity in
place, and a mutator answers a changed entity. -/
def MethodDeclaration.accessor? (m : MethodDeclaration) : Option Accessor :=
  if !m.isOpen then none
  else if "set".toList.isPrefixOf m.name && m.params.length = 1 then some (.setter m)
  else if "with".toList.isPrefixOf m.name && !m.params.isEmpty then some (.mutator m)
  else none

namespace Accessor

/-- The name of the builder's method. -/
def methodName : Accessor → Text
  | .field p => "with".toList ++ Text.capitalize p.name
  | .setter m => "with".toList ++ m.name.drop 3
  | .mutator m => m.name

/-- The place of an accessor's kind among the kinds. -/
def rank : Accessor → Nat
  | .field _ => 0
  | .setter _ => 1
  | .mutator _ => 2

@[simp] theorem rank_field (p : PropertyDeclaration) : rank (field p) = 0 := rfl
@[simp] theorem rank_setter (m : MethodDeclaration) : rank (setter m) = 1 := rfl
@[simp] theorem rank_mutator (m : MethodDeclaration) : rank (mutator m) = 2 := rfl

end Accessor

/-- The accessors of an entity by kind, and those of one kind as they were declared. -/
def Entity.accessors (e : Entity) : List Accessor :=
  ((e.properties.filter PropertyDeclaration.isOpen).map Accessor.field ++
    e.methods.filterMap MethodDeclaration.accessor?).mergeSort fun a b => a.rank ≤ b.rank

end BuilderForge
