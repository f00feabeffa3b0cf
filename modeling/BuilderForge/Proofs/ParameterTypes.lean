import Mathlib.Data.List.Basic
import BuilderForge.Proofs.Validity
/-
  The types of a builder's parameters.

  A declared type is taken if it is a type list. An annotation is free text,
  but the type that is taken from it is a keyword or a known class, up to the
  case of its letters, and its word has no blanks. So all parameter types of a
  builder's class are type lists: `isTypeList_of_mem_params`.
-/

namespace BuilderForge

open Name (isPath isTypeList stripSeparator)

/-! ## Reading types -/

theorem TypeHint.mem_of_mem_dropNull? {name rest : Text} (h : dropNull? name = some rest) {c : Char}
    (hc : c ∈ rest) : c ∈ name := by
  unfold dropNull? at h
  split at h
  · rename_i r hstart
    cases h
    rw [← List.isPrefixOf?_eq_some_iff_append_eq.1 hstart]
    exact List.mem_append_right _ hc
  · rw [← List.isSuffixOf?_eq_some_iff_append_eq.1 h]
    exact List.mem_append_left _ hc

/-- The name of a type has characters of its written form only. -/
theorem TypeHint.mem_of_mem_parse {raw : Text} {c : Char} (h : c ∈ (parse raw).name) : c ∈ raw := by
  have hmarked : ∀ {d}, d ∈ (dropMark? (Text.trim raw)).getD (Text.trim raw) → d ∈ raw := by
    intro d hd
    unfold dropMark? at hd
    split at hd
    · rename_i rest heq
      apply Text.mem_of_mem_trim
      rw [heq]
      exact List.mem_cons_of_mem _ hd
    · exact Text.mem_of_mem_trim hd
  -- dropping `null` takes characters away from what the mark leaves
  unfold parse at h
  simp only at h
  split at h
  · rename_i rest hrest
    exact hmarked (mem_of_mem_dropNull? hrest h)
  · exact hmarked h

/-- The word of an annotation has no blanks. -/
theorem Annotation.isBlank_of_find? {doc word : Text} (h : find? doc = some word) {c : Char}
    (hc : c ∈ word) : Text.isBlank c = false := by
  obtain ⟨rest, -, hword⟩ := List.exists_of_findSome?_eq_some h
  unfold word? at hword
  split at hword
  · cases hword
  · simp only at hword
    split at hword
    · cases hword
      simpa using List.all_eq_true.1 List.all_takeWhile c hc
    · cases hword

/-! ## Type lists -/

/-- A class name without blanks is a type list. -/
theorem isTypeList_of_isPath {t : Text} (h : isPath (stripSeparator t))
    (hblank : ∀ c ∈ t, Text.isBlank c = false) : isTypeList t := by
  have hbar : '|' ∉ t := fun hc => absurd (Name.isNameChar_of_mem_name h hc) (by decide)
  rw [isTypeList, Text.pieces_of_not_mem hbar, List.all_cons, List.all_nil, Bool.and_true,
    Name.isAlternative, Text.trim_eq_self hblank]
  exact h

theorem isPath_of_allows {known : KnownTypes} (hknown : ∀ k ∈ known.keys, isPath k) {name : Text}
    (h : known.allows name) : isPath (stripSeparator name) := by
  have hkeyword : ∀ k ∈ KnownTypes.annotationKeywords, isPath k = true := by decide
  rw [KnownTypes.allows, Bool.or_eq_true] at h
  rcases h with h | h
  · have hpath : isPath name := by
      rw [← Name.isPath_fold]
      exact hkeyword _ (List.contains_iff_mem.1 h)
    rwa [Name.stripSeparator_of_isPath hpath]
  · rw [← KnownTypes.isPath_key]
    exact hknown _ (List.contains_iff_mem.1 h)

theorem TypeHint.isTypeList_of_wellFormed? {ty ty' : TypeHint} (h : ty.wellFormed? = some ty') :
    isTypeList ty'.name := by
  unfold wellFormed? at h
  split at h
  · rename_i hlist
    cases h
    exact hlist
  · cases h

theorem PropertyDeclaration.isTypeList_of_builderType {p : PropertyDeclaration} {known : KnownTypes}
    (hknown : ∀ k ∈ known.keys, isPath k) {ty : TypeHint} (h : p.builderType known = some ty) :
    isTypeList ty.name := by
  unfold builderType at h
  split at h
  · exact TypeHint.isTypeList_of_wellFormed? h
  · split at h
    · rename_i word hword
      simp only at h
      split at h
      · rename_i hallowed
        cases h
        obtain ⟨doc, -, hfind⟩ := Option.bind_eq_some_iff.1 hword
        exact isTypeList_of_isPath (isPath_of_allows hknown hallowed) fun c hc =>
          Annotation.isBlank_of_find? hfind (TypeHint.mem_of_mem_parse hc)
      · cases h
    · cases h

theorem ParameterDeclaration.isTypeList_of_usableType {p : ParameterDeclaration} {ty : TypeHint}
    (h : p.usableType = some ty) : isTypeList ty.name := by
  obtain ⟨-, h⟩ := Option.filter_eq_some_iff.1 h
  exact h

namespace Builder

/-- A method of a builder's class is the constructor, `build`, or made of an accessor. -/
theorem forwards_of_mem {b : Builder} {m : Php.Method} (hm : m ∈ b.toClass.methods) :
    m = b.constructor ∨ m = b.finisher ∨ ∃ a ∈ b.entity.accessorsByKind, b.Forwards a m := by
  obtain ⟨ms, hmethods, htable⟩ := b.exists_isTable
  rw [hmethods, List.mem_cons, List.mem_append, List.mem_singleton] at hm
  rcases hm with rfl | hm | rfl
  · exact .inl rfl
  · obtain ⟨a, ha, rfl⟩ := List.mem_map.1 (htable.last m hm).mem
    exact .inr (.inr ⟨a, ha, b.forwards_method ha⟩)
  · exact .inr (.inl rfl)

/-- The parameter types of a well-formed builder's class are type lists. -/
theorem IsWellFormed.isTypeList_of_mem_params {b : Builder} (hb : b.IsWellFormed) {m : Php.Method}
    (hm : m ∈ b.toClass.methods) {p : Php.Parameter} (hp : p ∈ m.params) {ty : TypeHint}
    (hty : p.type = some ty) : isTypeList ty.name := by
  rcases forwards_of_mem hm with rfl | rfl | ⟨a, -, hforwards⟩
  · cases hp
  · cases hp
  · rcases hforwards.exists_takes hp with ⟨d, -, rfl⟩ | ⟨d, -, name, -, htakes⟩
    · exact PropertyDeclaration.isTypeList_of_builderType hb.known hty
    · exact ParameterDeclaration.isTypeList_of_usableType (htakes.type.symm.trans hty)

end Builder

end BuilderForge
