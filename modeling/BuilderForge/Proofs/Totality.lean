import BuilderForge.Builder.Basic
import BuilderForge.Proofs.Accessors
/-
  Every builder has its page.

  A page is made with cuts at byte offsets: the prefix `set` is cut off method
  names, the imported part and the namespace are cut off class names. A
  namespace that does not import its own name cannot make the last of these
  cuts on that name. A builder's namespace imports itself under the very text
  that names it, so its import covers all that the namespace covers; and the
  other cuts fall between characters, since case is folded within ASCII.
-/

namespace BuilderForge

/-- The prefix of a setter can be cut off its name. -/
theorem Accessor.dropBytes?_setter {e : Entity} {m : MethodDeclaration}
    (hm : .setter m ∈ e.accessors) : Text.dropBytes? 3 m.name = some (m.name.drop 3) := by
  rw [Entity.accessors_eq] at hm
  have hset := (Entity.mem_accessorsByKind_setter.1 hm).2
  simp only [MethodDeclaration.isSetter, Bool.and_eq_true] at hset
  obtain ⟨rest, hrest⟩ := List.isPrefixOf_iff_prefix.1 hset.1.2
  rw [← hrest]
  exact Text.dropBytes?_append "set".toList rest

namespace Builder

theorem isCovered_toNamespace (b : Builder) : b.toNamespace.IsCovered :=
  Php.Namespace.isCovered_addImport_named _ _

/-- For every builder, whatever its entity, marker and known types, no cut
fails: the page exists in every layout, every name that could stand on it has
a short form, and every setter's name has its prefix cut off. -/
theorem page_total (b : Builder) (layout : Php.Layout) :
    b.toNamespace.page layout = some (b.page layout) ∧
    (∀ name, (b.toNamespace.shorten name).isSome) ∧
    (∀ line, (b.toNamespace.shortenLine line).isSome) ∧
    (∀ i ∈ b.toNamespace.imports, ∀ name, Php.covers i.name name → (i.shortened? name).isSome) ∧
    ∀ m, Accessor.setter m ∈ b.entity.accessors →
      Text.dropBytes? 3 m.name = some (m.name.drop 3) := by
  have hcovered := b.isCovered_toNamespace
  have hpage : b.toNamespace.page layout = some (b.page layout) := (Option.some_get _).symm
  exact ⟨hpage, Php.Namespace.isSome_shorten hcovered, Php.Namespace.isSome_shortenLine hcovered,
    fun i _ name hc => Php.Import.isSome_shortened? hc, fun m hm => Accessor.dropBytes?_setter hm⟩

end Builder
end BuilderForge
