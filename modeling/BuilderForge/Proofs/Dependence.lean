import BuilderForge.Manifest.Plan
import BuilderForge.Proofs.BuilderShape
/-
  What the page of a builder depends on.

  A builder looks at its entity in two ways only, at the name and at the
  accessors by kind, and it asks of its known types only whether a name is
  among them. Each step from there to the page is a congruence: the parameter's
  type, the method of an accessor, the methods, the class and the page are the
  same for two builders that agree in this much. What else an entity declares,
  and where its setters stand among its mutators, leaves no trace.
-/

namespace BuilderForge

/-- Sets of the same names give a property the same type. -/
theorem PropertyDeclaration.builderType_congr {known known' : KnownTypes}
    (h : ∀ name, known.contains name = known'.contains name) (p : PropertyDeclaration) :
    p.builderType known = p.builderType known' := by
  unfold builderType KnownTypes.allows
  simp only [h]

namespace Builder

variable {b b' : Builder}

/-! ## The name of the entity -/

theorem scope_congr (h : b.entity.name = b'.entity.name) : b.entity.scope = b'.entity.scope := by
  rw [Entity.scope, Entity.scope, h]

theorem shortName_congr (h : b.entity.name = b'.entity.name) : b.shortName = b'.shortName := by
  rw [shortName, shortName, Entity.shortName, Entity.shortName, h]

theorem entityReference_congr (h : b.entity.name = b'.entity.name) :
    b.entityReference = b'.entityReference := by
  rw [entityReference, entityReference, Entity.qualifiedName, Entity.qualifiedName, h]

theorem isWanted_congr (h : b.entity.name = b'.entity.name) : b.isWanted = b'.isWanted := by
  rw [isWanted, isWanted, h]

theorem path_congr (h : b.entity.name = b'.entity.name) : b.path = b'.path := by
  rw [path, path, name, name, scope_congr h, shortName_congr h]

theorem defaultText_congr (h : b.entity.name = b'.entity.name) (d : Default) :
    b.defaultText d = b'.defaultText d := by
  cases d with
  | null => rfl
  | value v => rfl
  | constant name => rw [defaultText, defaultText, Entity.shortName, Entity.shortName, h]

theorem parameter_congr (h : b.entity.name = b'.entity.name) (p : ParameterDeclaration) :
    b.parameter p = b'.parameter p := by
  rw [parameter, parameter, funext (defaultText_congr h)]

/-- The methods of setters and mutators do not depend on what is known. -/
theorem method_congr (h : b.entity.name = b'.entity.name) {a : Accessor}
    (ha : ∀ p, a = .field p → p.builderType b.known = p.builderType b'.known) :
    b.method a = b'.method a := by
  cases a with
  | field p => rw [method, method, ha p rfl]
  | setter d => simp only [method, parameter_congr h]
  | mutator d => rw [method, method, funext (parameter_congr h)]

/-! ## Builders that agree -/

/-- All that two builders have to have in common: the name of the entity, the
open properties, the setters and the mutators, each in their order, the marker,
and the names that are known. -/
structure Agrees (b b' : Builder) : Prop where
  name : b.entity.name = b'.entity.name
  fields : b.entity.properties.filter PropertyDeclaration.isOpen =
    b'.entity.properties.filter PropertyDeclaration.isOpen
  setters : b.entity.methods.filter MethodDeclaration.isSetter =
    b'.entity.methods.filter MethodDeclaration.isSetter
  mutators : b.entity.methods.filter MethodDeclaration.isMutator =
    b'.entity.methods.filter MethodDeclaration.isMutator
  marker : b.marker = b'.marker
  known : ∀ name, b.known.contains name = b'.known.contains name

namespace Agrees

/-- The sort by kind takes the members that are left in the same order. -/
theorem accessors (h : b.Agrees b') : b.entity.accessors = b'.entity.accessors := by
  rw [Entity.accessors_eq, Entity.accessors_eq, Entity.accessorsByKind, Entity.accessorsByKind,
    h.fields, h.setters, h.mutators]

theorem method (h : b.Agrees b') (a : Accessor) : b.method a = b'.method a :=
  method_congr h.name fun p _ => p.builderType_congr h.known

theorem methods (h : b.Agrees b') : b.methods = b'.methods := by
  rw [Builder.methods, Builder.methods, h.accessors, funext h.method, constructor, constructor,
    finisher, finisher, entityReference_congr h.name]

theorem toClass (h : b.Agrees b') : b.toClass = b'.toClass := by
  rw [Builder.toClass, Builder.toClass, h.methods, shortName_congr h.name, h.marker]

theorem toNamespace (h : b.Agrees b') : b.toNamespace = b'.toNamespace := by
  rw [Builder.toNamespace, Builder.toNamespace, h.toClass, scope_congr h.name]

theorem page (h : b.Agrees b') (layout : Php.Layout) : b.page layout = b'.page layout := by
  unfold Builder.page
  simp only [h.toNamespace]

end Agrees

/-- Builders that agree make the same page, or none, whatever else their
entities declare. -/
theorem page_eq_of_agrees (h : b.Agrees b') (layout : Php.Layout) :
    b.page? layout = b'.page? layout := by
  rw [page?, page?, isWanted_congr h.name, h.page]

/-- A song with closed members, its mutator before its setter. -/
def crowdedSong : Builder :=
  .ofEntity ⟨"App\\Song".toList,
    [⟨"next".toList, .publicAccess, false, none, some "/** @var app\\song */".toList⟩,
     ⟨"id".toList, .privateAccess, false, none, none⟩],
    [⟨"setId".toList, .privateAccess, false, [⟨"id".toList, none, false, none⟩]⟩,
     ⟨"withLength".toList, .publicAccess, false, [⟨"length".toList, none, false, some .null⟩]⟩,
     ⟨"setCount".toList, .publicAccess, true, [⟨"count".toList, none, false, none⟩]⟩,
     ⟨"setAuthor".toList, .publicAccess, false, [⟨"author".toList, none, true, none⟩]⟩]⟩

/-- The same song without them, its setter first, and a method that is no accessor. -/
def tidySong : Builder :=
  .ofEntity ⟨"App\\Song".toList,
    [⟨"next".toList, .publicAccess, false, none, some "/** @var app\\song */".toList⟩],
    [⟨"setAuthor".toList, .publicAccess, false, [⟨"author".toList, none, true, none⟩]⟩,
     ⟨"play".toList, .publicAccess, false, []⟩,
     ⟨"withLength".toList, .publicAccess, false, [⟨"length".toList, none, false, some .null⟩]⟩]⟩

theorem page_eq_of_agrees_song : crowdedSong.Agrees tidySong ∧
    crowdedSong.page? Style.psr.layout = tidySong.page? Style.psr.layout := by
  have hagrees : crowdedSong.Agrees tidySong := ⟨rfl, rfl, rfl, rfl, rfl, fun _ => rfl⟩
  exact ⟨hagrees, page_eq_of_agrees hagrees _⟩

end Builder
end BuilderForge
