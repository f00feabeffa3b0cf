import BuilderForge.Manifest.Plan
import BuilderForge.Manifest.Source
import BuilderForge.Proofs.BuilderShape
import BuilderForge.Proofs.Names
/-
  What a valid manifest promises to its builders.

  The lists of violations are read as conditions: a list is empty exactly if
  what it looks at is well-formed. `Builder.IsWellFormed` collects what a
  builder can rely on, and `isWellFormed_builder` says that every builder of a
  valid manifest can.
-/

namespace BuilderForge

/-! ## No violations -/

theorem labelViolations_eq_nil_iff {role : Role} {name : Text} :
    labelViolations role name = [] ↔ Name.isLabel name := by
  unfold labelViolations
  split <;> simp [*]

theorem classNameViolations_eq_nil_iff {role : Role} {name : Text} :
    classNameViolations role name = [] ↔
      Name.isPath (Name.stripSeparator name) ∧ Name.isReserved (Name.short name) = false := by
  unfold classNameViolations
  split
  · simp_all
  · split <;> simp_all

theorem typeViolations_eq_nil_iff {type : Option TypeHint} :
    typeViolations type = [] ↔ ∀ ty, type = some ty → Name.isTypeList ty.name := by
  cases type with
  | none => simp [typeViolations]
  | some ty =>
    simp only [typeViolations]
    split <;> simp [*]

theorem defaultViolations_eq_nil_iff {default : Option Default} :
    defaultViolations default = [] ↔
      ∀ name, default = some (.constant name) → Name.isLabel (Default.unqualified name) := by
  rcases default with _ | _ | v | name <;>
    simp [defaultViolations, labelViolations_eq_nil_iff]

/-- Whether the name, the type and the default of a parameter are written as such. -/
structure ParameterDeclaration.IsWellFormed (p : ParameterDeclaration) : Prop where
  name : Name.isLabel p.name
  type : ∀ ty, p.type = some ty → Name.isTypeList ty.name
  default : ∀ name, p.default = some (.constant name) → Name.isLabel (Default.unqualified name)

/-- Parameters have no violations if each is well-formed, none is called like
the object itself, and no name comes again. -/
theorem parameterViolations_eq_nil_iff {method : Text} {seen : List Text}
    {ps : List ParameterDeclaration} : parameterViolations method seen ps = [] ↔
      (∀ p ∈ ps, p.IsWellFormed ∧ p.name ≠ selfName ∧ p.name ∉ seen) ∧
        (ps.map ParameterDeclaration.name).Nodup := by
  -- the names that were seen grow along the list
  induction ps generalizing seen with
  | nil => simp [parameterViolations]
  | cons p ps ih =>
    have hp : p.IsWellFormed ↔ labelViolations .parameter p.name = [] ∧
        typeViolations p.type = [] ∧ defaultViolations p.default = [] := by
      rw [labelViolations_eq_nil_iff, typeViolations_eq_nil_iff, defaultViolations_eq_nil_iff]
      exact ⟨fun ⟨h, h', h''⟩ => ⟨h, h', h''⟩, fun ⟨h, h', h''⟩ => ⟨h, h', h''⟩⟩
    simp only [parameterViolations, List.append_eq_nil_iff, ite_eq_right_iff, List.contains_iff_mem,
      List.cons_ne_nil, imp_false, ih, List.mem_cons, not_or, forall_eq_or_imp, List.map_cons,
      List.nodup_cons, List.mem_map, not_exists, not_and, hp]
    constructor
    · rintro ⟨⟨⟨⟨⟨hl, ht⟩, hself⟩, hseen⟩, hd⟩, hps, hnodup⟩
      exact ⟨⟨⟨⟨hl, ht, hd⟩, hself, hseen⟩, fun q hq => ⟨(hps q hq).1, (hps q hq).2.1, (hps q hq).2.2.2⟩⟩,
        fun q hq => (hps q hq).2.2.1, hnodup⟩
    · rintro ⟨⟨⟨⟨hl, ht, hd⟩, hself, hseen⟩, hps⟩, hnew, hnodup⟩
      exact ⟨⟨⟨⟨⟨hl, ht⟩, hself⟩, hseen⟩, hd⟩,
        fun q hq => ⟨(hps q hq).1, (hps q hq).2.1, hnew q hq, (hps q hq).2.2⟩, hnodup⟩

/-- Entities have no violations if each has none and no name comes again. -/
theorem entityViolations_eq_nil_iff {seen : List Text} {es : List Entity} :
    entityViolations seen es = [] ↔
      (∀ e ∈ es, e.violations = [] ∧ Text.fold e.qualifiedName ∉ seen) ∧
        (es.map fun e => Text.fold e.qualifiedName).Nodup := by
  induction es generalizing seen with
  | nil => simp [entityViolations]
  | cons e es ih =>
    simp only [entityViolations, List.append_eq_nil_iff, ite_eq_right_iff, List.cons_ne_nil,
      List.contains_iff_mem, imp_false, ih, List.mem_cons, not_or, forall_eq_or_imp, List.map_cons, List.nodup_cons,
      List.mem_map, not_exists, not_and]
    constructor
    · rintro ⟨⟨he, hseen⟩, hes, hnodup⟩
      exact ⟨⟨⟨he, hseen⟩, fun f hf => ⟨(hes f hf).1, (hes f hf).2.2⟩⟩,
        fun f hf => (hes f hf).2.1, hnodup⟩
    · rintro ⟨⟨⟨he, hseen⟩, hes⟩, hnew, hnodup⟩
      exact ⟨⟨he, hseen⟩, fun f hf => ⟨(hes f hf).1, hnew f hf, (hes f hf).2⟩, hnodup⟩

theorem Entity.wellFormed_of_violations {e : Entity} (h : e.violations = []) :
    (Name.isPath e.qualifiedName ∧ Name.isReserved e.shortName = false) ∧
    (∀ p ∈ e.properties, Name.isLabel p.name) ∧
    ∀ m ∈ e.methods, Name.isLabel m.name ∧ ∀ p ∈ m.params, p.IsWellFormed := by
  rw [violations, List.append_eq_nil_iff, List.append_eq_nil_iff, List.flatMap_eq_nil_iff,
    List.flatMap_eq_nil_iff] at h
  obtain ⟨⟨hname, hproperties⟩, hmethods⟩ := h
  refine ⟨classNameViolations_eq_nil_iff.1 hname, fun p hp => ?_, fun m hm => ?_⟩
  · have hp := hproperties p hp
    rw [PropertyDeclaration.violations, List.append_eq_nil_iff] at hp
    exact labelViolations_eq_nil_iff.1 hp.1
  · have hm := hmethods m hm
    rw [MethodDeclaration.violations, List.append_eq_nil_iff, labelViolations_eq_nil_iff,
      parameterViolations_eq_nil_iff] at hm
    exact ⟨hm.1, fun p hp => (hm.2.1 p hp).1⟩

theorem Settings.violations_eq_nil_iff {s : Settings} : s.violations = [] ↔
    (∀ n, s.marker = some n → classNameViolations .marker n = []) ∧
      ∀ n ∈ s.knownTypes, classNameViolations .knownType n = [] := by
  rw [violations, List.append_eq_nil_iff, List.flatMap_eq_nil_iff, List.flatMap_eq_nil_iff]
  simp only [Option.mem_toList]

/-- The marker is a free path, set or not. -/
theorem Settings.isPath_effectiveMarker {s : Settings} (h : s.violations = []) :
    Name.isPath (Name.stripSeparator s.effectiveMarker) ∧
      Name.isReserved (Name.short s.effectiveMarker) = false := by
  rw [effectiveMarker]
  cases hm : s.marker with
  | none => decide
  | some marker =>
    exact classNameViolations_eq_nil_iff.1 ((Settings.violations_eq_nil_iff.1 h).1 marker hm)

/-! ## Known types -/

theorem KnownTypes.mem_insertAll {known : KnownTypes} {names : List Text} {k : Text} :
    k ∈ (known.insertAll names).keys ↔ k ∈ known.keys ∨ ∃ n ∈ names, key n = k := by
  rw [insertAll]
  induction names generalizing known with
  | nil => simp
  | cons n names ih =>
    rw [List.foldl_cons, ih]
    simp only [insert, List.mem_cons, exists_eq_or_imp]
    constructor
    · rintro ((rfl | h) | h)
      · exact .inr (.inl rfl)
      · exact .inl h
      · exact .inr (.inr h)
    · rintro (h | rfl | h)
      · exact .inl (.inr h)
      · exact .inl (.inl rfl)
      · exact .inr h

theorem KnownTypes.isPath_key {name : Text} : Name.isPath (key name) = Name.isPath (Name.stripSeparator name) :=
  Name.isPath_fold _

/-! ## Builders -/

/-- What the builder of a valid manifest relies on. -/
structure Builder.IsWellFormed (b : Builder) : Prop where
  entity : Name.isPath b.entity.qualifiedName
  entityFree : Name.isReserved b.entity.shortName = false
  marker : Name.isPath (Name.stripSeparator b.marker)
  markerFree : Name.isReserved (Name.short b.marker) = false
  known : ∀ k ∈ b.known.keys, Name.isPath k
  property : ∀ p ∈ b.entity.properties, Name.isLabel p.name
  method : ∀ m ∈ b.entity.methods, Name.isLabel m.name
  parameter : ∀ m ∈ b.entity.methods, ∀ p ∈ m.params, p.IsWellFormed

theorem Builder.IsWellFormed.isPath_scope {b : Builder} (hb : b.IsWellFormed) :
    b.entity.scope = [] ∨ Name.isPath b.entity.scope := Name.isPath_scope hb.entity

theorem Builder.IsWellFormed.isWellFormed_of_declared {b : Builder} (hb : b.IsWellFormed)
    {a : Accessor} (ha : a ∈ b.entity.accessorsByKind) {p : ParameterDeclaration}
    (hp : p ∈ a.declared) : p.IsWellFormed := by
  cases a with
  | field _ => cases hp
  | setter d => exact hb.parameter d (Entity.mem_accessorsByKind_setter.1 ha).1 p hp
  | mutator d => exact hb.parameter d (Entity.mem_accessorsByKind_mutator.1 ha).1 p hp

/-- A builder is called like its entity, with an ending. -/
theorem Builder.IsWellFormed.name_eq {b : Builder} (hb : b.IsWellFormed) :
    b.name = b.entity.qualifiedName ++ suffix := by
  calc b.name = Name.qualify b.entity.scope (b.entity.shortName ++ suffix) := rfl
    _ = Name.qualify b.entity.scope b.entity.shortName ++ suffix := Name.qualify_append _ _ _
    _ = b.entity.qualifiedName ++ suffix := by
      rw [Entity.scope, Entity.shortName, Name.qualify_scope_short hb.entity, Entity.qualifiedName]

/-- The namespace of a well-formed builder is that of its entity, and it imports
itself and nothing else. -/
theorem Builder.IsWellFormed.toNamespace_eq {b : Builder} (hb : b.IsWellFormed) :
    b.toNamespace = ⟨b.entity.scope, if b.entity.scope = [] then []
      else [⟨Name.short b.entity.scope, b.entity.scope⟩], [b.toClass]⟩ := by
  have hstrip : Name.stripSeparator b.entity.scope = b.entity.scope := by
    rcases hb.isPath_scope with h | h
    · rw [h]
      rfl
    · exact Name.stripSeparator_of_isPath h
  unfold toNamespace Php.Namespace.named Php.Namespace.addImport Php.Namespace.addClass
  simp only [hstrip]
  split <;> rfl

namespace Manifest

theorem isValid_of_ofSource {format : Document.Format} {name source : Text} {m : Manifest}
    (h : ofSource format name source = .ok m) : m.isValid := by
  unfold ofSource check at h
  cases hp : parse format source with
  | error c =>
    rw [hp] at h
    cases h
  | ok m' =>
    cases hv : m'.violations with
    | nil =>
      simp only [hp, hv, bind, Except.bind] at h
      cases h
      rw [isValid, hv]
      rfl
    | cons v vs =>
      simp only [hp, hv, bind, Except.bind] at h
      cases h

theorem isValid_iff {m : Manifest} : m.isValid ↔
    m.settings.violations = [] ∧ entityViolations [] m.entities = [] := by
  rw [isValid, List.isEmpty_iff, violations, List.append_eq_nil_iff]

/-- The names that annotations may use in a valid manifest are paths: the
builtin ones by inspection, the others because they are checked. -/
theorem isPath_of_mem_known {m : Manifest} (hs : m.settings.violations = [])
    (hes : ∀ e ∈ m.entities, e.violations = []) : ∀ k ∈ m.known.keys, Name.isPath k := by
  intro k hk
  rw [known, KnownTypes.mem_insertAll, KnownTypes.mem_insertAll] at hk
  rcases hk with (hk | ⟨n, hn, rfl⟩) | ⟨n, hn, rfl⟩
  · have hall : ∀ k ∈ KnownTypes.builtin.keys, Name.isPath k = true := by decide
    exact hall k hk
  · obtain ⟨e, he, rfl⟩ := List.mem_map.1 hn
    rw [KnownTypes.isPath_key]
    exact (Entity.wellFormed_of_violations (hes e he)).1.1
  · rw [KnownTypes.isPath_key]
    exact (classNameViolations_eq_nil_iff.1 ((Settings.violations_eq_nil_iff.1 hs).2 n hn)).1

/-- Every builder of a valid manifest is well-formed. -/
theorem isWellFormed_builder {m : Manifest} (h : m.isValid) {e : Entity} (he : e ∈ m.entities) :
    (m.builder e).IsWellFormed := by
  obtain ⟨hs, hes⟩ := isValid_iff.1 h
  have hentities : ∀ f ∈ m.entities, f.violations = [] := fun f hf =>
    ((entityViolations_eq_nil_iff.1 hes).1 f hf).1
  obtain ⟨⟨hpath, hfree⟩, hproperties, hmethods⟩ := Entity.wellFormed_of_violations (hentities e he)
  have hmarker := Settings.isPath_effectiveMarker hs
  exact
    { entity := hpath
      entityFree := hfree
      marker := hmarker.1
      markerFree := hmarker.2
      known := isPath_of_mem_known hs hentities
      property := hproperties
      method := fun d hd => (hmethods d hd).1
      parameter := fun d hd => (hmethods d hd).2 }

end Manifest

end BuilderForge
