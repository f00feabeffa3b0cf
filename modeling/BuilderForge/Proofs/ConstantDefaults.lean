import BuilderForge.Proofs.Resolution
/-
  Constants as defaults.

  A default that is a constant of the entity is printed as the entity's short
  name, two colons and the constant. Read with the statements at the top of the
  page, the short name means the entity as long as the page does not import
  another class under it. The page imports the entity's namespace under its
  last label, so the default goes wrong where this label is the short name of
  the entity, up to the case of its letters, and nowhere else:
  `denotes_constant_iff`.
-/

namespace BuilderForge

open Php (Header)

/-- Whether the namespace of an entity has the entity's short name as its last label. -/
def Entity.IsShadowed (e : Entity) : Prop :=
  e.scope ≠ [] ∧ Text.sameFolded (Name.short e.scope) e.shortName

namespace Php.Header

/-- A label that no import goes by is read below the namespace. -/
theorem resolve_label {h : Header} {label : Text} (hlabel : Name.isLabel label)
    (hi : ∀ i ∈ h.imports, Text.fold (Name.short i) ≠ Text.fold label) :
    h.resolve label = Name.qualify h.scope label := by
  have hnone : h.imports.find? (fun i => Text.sameFolded (Name.short i) label) = none := by
    rw [List.find?_eq_none]
    intro i himport hsame
    exact hi i himport (Text.sameFolded_iff.1 hsame)
  have hresolve := h.resolve_append hlabel (.inl rfl)
  rwa [hnone, List.append_nil] at hresolve

end Php.Header

namespace Builder

variable {b : Builder}

/-- The short name of the entity means the entity unless it is that of the import. -/
theorem IsWellFormed.resolve_shortName_iff (hb : b.IsWellFormed) :
    Text.sameFolded (b.header.resolve b.entity.shortName) b.entity.qualifiedName ↔
      ¬ b.entity.IsShadowed := by
  have hlabel : Name.isLabel b.entity.shortName := Name.isLabel_short hb.entity
  have hname : Name.qualify b.entity.scope b.entity.shortName = b.entity.qualifiedName :=
    Name.qualify_scope_short hb.entity
  rw [Text.sameFolded_iff, ← hname]
  by_cases hscope : b.entity.scope = []
  · -- the global namespace imports nothing
    rw [header, hscope, if_pos rfl, Header.resolve_global (Name.isPath_of_isLabel hlabel)]
    exact iff_of_true rfl fun h => h.1 hscope
  · rw [header, if_neg hscope]
    by_cases hsame : Text.fold (Name.short b.entity.scope) = Text.fold b.entity.shortName
    · -- the import takes the name, and the namespace is shorter than the entity's name
      have hresolve : Header.resolve ⟨b.entity.scope, [b.entity.scope]⟩ b.entity.shortName =
          b.entity.scope := by
        simpa using Header.resolve_label_append hlabel hsame (.inl rfl)
      rw [hresolve, Name.qualify, if_neg hscope]
      refine iff_of_false (fun h => ?_) fun h => h ⟨hscope, Text.sameFolded_iff.2 hsame⟩
      have hlength := congrArg List.length h
      rw [Text.fold_append, List.length_append] at hlength
      simp [Text.fold] at hlength
    · rw [Header.resolve_label hlabel (by simpa using hsame)]
      exact iff_of_true rfl fun h => hsame (Text.sameFolded_iff.1 h.2)

/-- The parameters of a forwarded method have the declared types and defaults. -/
theorem exists_param_of_declared (b : Builder) {a : Accessor} {i : Nat} {q : ParameterDeclaration}
    (h : a.declared[i]? = some q) :
    ∃ p, (b.method a).params[i]? = some p ∧ p.type = q.builderType ∧
      p.default = q.default.map b.defaultText := by
  cases a with
  | field d => cases h
  | setter d =>
    have hparam : d.params[i]? = some q := h
    refine ⟨{ b.parameter q with name := "value".toList }, ?_, rfl, rfl⟩
    show (d.params.map _)[i]? = _
    rw [List.getElem?_map, hparam]
    rfl
  | mutator d =>
    have hparam : d.params[i]? = some q := h
    refine ⟨b.parameter q, ?_, rfl, rfl⟩
    show (d.params.map _)[i]? = _
    rw [List.getElem?_map, hparam]
    rfl

/-- A declared parameter of an accessor that has its method in the class is
printed in its place in the head of the method. -/
theorem IsWellFormed.exists_printed (hb : b.IsWellFormed) (style : Style) {a : Accessor}
    (ha : IsLast Accessor.key a b.entity.accessorsByKind) {i : Nat} {q : ParameterDeclaration}
    (hq : a.declared[i]? = some q) :
    ∃ params returns p t,
      (Php.Namespace.headRows 1 (Php.Namespace.methodHead (b.method a)) params returns).map
        (Code.Row.line style.layout.indentation.unit) <:+:
          Text.pieces '\n' (b.page style.layout) ∧
      (b.method a).params[i]? = some p ∧ p.type = q.builderType ∧
      p.default = q.default.map b.defaultText ∧ params[i]? = some t ∧
      b.toNamespace.parameterText p = some t := by
  obtain ⟨params, returns, hparams, hinfix⟩ := hb.infix_headRows style (b.method_mem_methods ha)
  obtain ⟨p, hp, htype, hdefault⟩ := b.exists_param_of_declared hq
  obtain ⟨t, ht, hprinted⟩ := Php.getElem?_mapM hparams hp
  exact ⟨params, returns, p, t, hinfix, hp, htype, hdefault, ht, hprinted⟩

end Builder

/-- Whether the page prints the default `text` for a parameter of the method of
an accessor: the lines of the method's head stand on the page, and the parameter
in this place is printed as one of the class that has the default. -/
def PrintsDefault (b : Builder) (style : Style) (page : Text) (a : Accessor) (i : Nat)
    (text : Text) : Prop :=
  ∃ params returns p t,
    (Php.Namespace.headRows 1 (Php.Namespace.methodHead (b.method a)) params returns).map
      (Code.Row.line style.layout.indentation.unit) <:+: Text.pieces '\n' page ∧
    (b.method a).params[i]? = some p ∧ params[i]? = some t ∧
    (Header.ofPage page).Declares p t ∧ p.default = some text

/-- A constant default of an accessor that has its method in the class is printed
behind the entity's short name. -/
theorem Builder.IsWellFormed.prints_constant {b : Builder} (hb : b.IsWellFormed) (style : Style)
    {a : Accessor} (ha : IsLast Accessor.key a b.entity.accessorsByKind) {i : Nat}
    {q : ParameterDeclaration} (hq : a.declared[i]? = some q) {c : Text}
    (hc : q.default = some (.constant c)) :
    PrintsDefault b style (b.page style.layout) a i
      (b.entity.shortName ++ "::".toList ++ Default.unqualified c) := by
  obtain ⟨params, returns, p, t, hinfix, hp, -, hdefault, ht, hprinted⟩ :=
    hb.exists_printed style ha hq
  refine ⟨params, returns, p, t, hinfix, hp, ht, ?_, ?_⟩
  · rw [hb.header_page style]
    exact hb.declares (b.method_mem_methods ha) (List.mem_of_getElem? hp) hprinted
  · rw [hdefault, hc]
    rfl

/-- Every constant default of a setter or mutator that has its method on the
page of a valid manifest is printed there behind the entity's short name, and
this name means the entity, up to the case of A to Z, exactly if the entity is
not shadowed by its namespace. -/
theorem denotes_constant_iff {m : Manifest} (hm : m.isValid) {e : Entity} (he : e ∈ m.entities)
    (hwanted : (m.builder e).isWanted) (style : Style) :
    ∃ page, (m.builder e).page? style.layout = some page ∧
      (∀ a, IsLast Accessor.key a e.accessorsByKind → ∀ i q c, a.declared[i]? = some q →
        q.default = some (.constant c) →
        PrintsDefault (m.builder e) style page a i
          (e.shortName ++ "::".toList ++ Default.unqualified c)) ∧
      (Text.sameFolded ((Header.ofPage page).resolve e.shortName) e.qualifiedName ↔
        ¬ e.IsShadowed) := by
  have hb := Manifest.isWellFormed_builder hm he
  refine ⟨(m.builder e).page style.layout, by rw [Builder.page?, if_pos hwanted], ?_, ?_⟩
  · intro a ha i q c hq hc
    exact hb.prints_constant style ha hq hc
  · rw [hb.header_page style]
    exact hb.resolve_shortName_iff

/-- A setter whose default is a constant. -/
def coverSetter : MethodDeclaration :=
  ⟨"setCover".toList, .publicAccess, false,
    [⟨"cover".toList, none, false, some (.constant "self::NONE".toList)⟩]⟩

/-- An album under a name. -/
def album (name : Text) : Entity := ⟨name, [], [coverSetter]⟩

/-- The manifest of one album. -/
def albumManifest (name : Text) : Manifest := ⟨Settings.default, [album name]⟩

theorem denotes_constant_iff_album :
    (albumManifest "App\\Album".toList).isValid ∧
    album "App\\Album".toList ∈ (albumManifest "App\\Album".toList).entities ∧
    ((albumManifest "App\\Album".toList).builder (album "App\\Album".toList)).isWanted ∧
    ∃ page, ((albumManifest "App\\Album".toList).builder (album "App\\Album".toList)).page?
        Style.psr.layout = some page ∧
      Text.sameFolded ((Header.ofPage page).resolve "Album".toList) "App\\Album".toList := by
  have hvalid : (albumManifest "App\\Album".toList).isValid := by decide
  have hmem : album "App\\Album".toList ∈ (albumManifest "App\\Album".toList).entities :=
    List.mem_singleton_self _
  have hwanted : ((albumManifest "App\\Album".toList).builder
      (album "App\\Album".toList)).isWanted := by decide
  obtain ⟨page, hpage, -, hiff⟩ := denotes_constant_iff hvalid hmem hwanted .psr
  refine ⟨hvalid, hmem, hwanted, page, hpage, hiff.2 fun h => ?_⟩
  exact absurd h.2 (by decide)

/-- Below a namespace of its own short name the album is shadowed: its page is
made and prints the constant, and there the class of the constant is another one. -/
theorem not_denotes_constant_album :
    (albumManifest "Album\\Album".toList).isValid ∧
    ((albumManifest "Album\\Album".toList).builder (album "Album\\Album".toList)).isWanted ∧
    ∃ page, ((albumManifest "Album\\Album".toList).builder (album "Album\\Album".toList)).page?
        Style.psr.layout = some page ∧
      PrintsDefault ((albumManifest "Album\\Album".toList).builder (album "Album\\Album".toList))
        .psr page (.setter coverSetter) 0 "Album::NONE".toList ∧
      ¬ Text.sameFolded ((Header.ofPage page).resolve "Album".toList) "Album\\Album".toList := by
  have hvalid : (albumManifest "Album\\Album".toList).isValid := by decide
  have hwanted : ((albumManifest "Album\\Album".toList).builder
      (album "Album\\Album".toList)).isWanted := by decide
  have hb := Manifest.isWellFormed_builder hvalid
    (List.mem_singleton_self (album "Album\\Album".toList))
  have hlast : IsLast Accessor.key (.setter coverSetter)
      (album "Album\\Album".toList).accessorsByKind :=
    ⟨[], [], rfl, fun _ h => absurd h List.not_mem_nil⟩
  have hshadowed : (album "Album\\Album".toList).IsShadowed := ⟨by decide, by decide⟩
  refine ⟨hvalid, hwanted, _, by rw [Builder.page?, if_pos hwanted],
    hb.prints_constant .psr hlast (i := 0) rfl rfl, ?_⟩
  rw [hb.header_page .psr]
  intro h
  exact hb.resolve_shortName_iff.1 h hshadowed

end BuilderForge
