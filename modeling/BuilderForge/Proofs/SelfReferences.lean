import BuilderForge.Proofs.Alternatives
import BuilderForge.Proofs.ConstantDefaults
/-
  Types that mean the entity, inside the class of its builder.

  In the declaration of an entity an alternative of a type means the entity if it
  is the entity's name or the keyword `self`. The alternatives of a parameter's
  type come into another class, and there the name goes on meaning the entity,
  whatever short form it is given. The keyword is written as it is, and in the
  builder's class it means the builder. So an alternative that meant the entity
  goes on meaning it exactly if it is not the keyword, and no other alternative
  comes to mean it: `meansEntity_iff`, and for a page `keeps_entity_iff`.
-/

namespace BuilderForge

open Php (Header)

/-- The keyword for the class that is being declared. -/
def selfWord : Text := "self".toList

/-- The class that an alternative of a type means in the class `current`, if it
means one. A name means what it resolves to. -/
def classMeant? (current : Text) (resolve : Text → Text) (a : Text) : Option Text :=
  if Text.fold a = selfWord then some current
  else if Name.isTypeKeyword a then none
  else some (resolve a)

/-- Whether an alternative means the entity in the entity's own declaration,
where names are complete with or without a separator in front. -/
def Entity.IsMeant (e : Entity) (a : Text) : Prop :=
  ∃ c, classMeant? e.qualifiedName Name.stripSeparator a = some c ∧ Text.sameFolded c e.qualifiedName

/-- Whether an alternative means the entity in the class of its builder, in a
file with the header `h`. -/
def Builder.MeansEntity (b : Builder) (h : Header) (a : Text) : Prop :=
  ∃ c, classMeant? b.name h.resolve a = some c ∧ Text.sameFolded c b.entity.qualifiedName

/-- What becomes of a declared alternative in the builder's class: it means the
entity if it did before and is not the keyword `self`. That keyword is printed
as it was declared, and means the builder. -/
structure Builder.Transcribes (b : Builder) (h : Header) (declared printed : Text) : Prop where
  entity : b.MeansEntity h printed ↔ b.entity.IsMeant declared ∧ Text.fold declared ≠ selfWord
  self : Text.fold declared = selfWord →
    printed = declared ∧ classMeant? b.name h.resolve printed = some b.name

theorem isTypeKeyword_of_fold_eq_selfWord {a : Text} (h : Text.fold a = selfWord) :
    Name.isTypeKeyword a := by
  rw [Name.isTypeKeyword, h]
  decide

theorem classMeant?_eq_some_iff {current a c : Text} {resolve : Text → Text} :
    classMeant? current resolve a = some c ↔
      Text.fold a = selfWord ∧ current = c ∨ Name.isTypeKeyword a = false ∧ resolve a = c := by
  unfold classMeant?
  split
  · rename_i hself
    have hkeyword := isTypeKeyword_of_fold_eq_selfWord hself
    simp [hself, hkeyword]
  · rename_i hself
    split
    · rename_i hkeyword
      simp [hself, hkeyword]
    · rename_i hkeyword
      simp [hself, hkeyword]

/-! ## Names of entities and builders -/

theorem Name.fold_eq_of_qualify {scope s t : Text}
    (h : Text.fold (qualify scope s) = Text.fold (qualify scope t)) : Text.fold s = Text.fold t := by
  unfold qualify at h
  split at h
  · exact h
  · rw [Text.fold_append, Text.fold_append] at h
    exact (List.cons_inj_right _).1 (List.append_cancel_left h)

/-- A keyword is a label, in any case of its letters. -/
theorem Name.isLabel_of_isTypeKeyword {t : Text} (h : isTypeKeyword t) : isLabel t := by
  have hall : ∀ k ∈ typeKeywords, isLabel k = true := by decide
  rw [← isLabel_fold]
  exact hall _ (List.contains_iff_mem.1 h)

theorem Name.short_stripSeparator {name : Text} (h : isPath (stripSeparator name)) :
    short (stripSeparator name) = short name := by
  unfold short split
  rw [stripSeparator_of_isPath h]

/-- A type keyword is reserved, and so is what differs from it in case only. -/
theorem Name.isReserved_of_isTypeKeyword {s t : Text} (h : isTypeKeyword s)
    (hfold : Text.fold s = Text.fold t) : isReserved t := by
  have hall : ∀ k ∈ typeKeywords, k ∈ reservedWords := by decide
  rw [isReserved, ← hfold]
  exact List.contains_iff_mem.2 (hall _ (List.contains_iff_mem.1 h))

namespace Builder

variable {b : Builder} (hb : b.IsWellFormed)
include hb

theorem IsWellFormed.fold_qualifiedName : Text.fold b.entity.qualifiedName =
    Text.fold (Name.qualify b.entity.scope b.entity.shortName) :=
  congrArg Text.fold (Name.qualify_scope_short hb.entity).symm

/-- The name of a builder is not that of its entity. -/
theorem IsWellFormed.fold_name_ne : Text.fold b.name ≠ Text.fold b.entity.qualifiedName := by
  intro h
  rw [hb.name_eq, Text.fold_append, List.append_right_eq_self] at h
  exact absurd h (by decide)

omit hb in
/-- A label means the class of this name below the namespace, unless it is read
with the import and means the namespace. -/
theorem resolve_label_cases (b : Builder) {label : Text} (hlabel : Name.isLabel label) :
    b.header.resolve label = Name.qualify b.entity.scope label ∨
      b.entity.scope ≠ [] ∧ b.header.resolve label = b.entity.scope := by
  by_cases hscope : b.entity.scope = []
  · rw [header, hscope, if_pos rfl, Header.resolve_global (Name.isPath_of_isLabel hlabel)]
    exact .inl rfl
  · rw [header, if_neg hscope]
    by_cases hsame : Text.fold (Name.short b.entity.scope) = Text.fold label
    · have hresolve : Header.resolve ⟨b.entity.scope, [b.entity.scope]⟩ (label ++ []) =
          b.entity.scope ++ [] := Header.resolve_label_append hlabel hsame (.inl rfl)
      rw [List.append_nil, List.append_nil] at hresolve
      exact .inr ⟨hscope, hresolve⟩
    · exact .inl (Header.resolve_label hlabel (by simpa using hsame))

/-- No keyword resolves to the entity. -/
theorem IsWellFormed.isTypeKeyword_eq_false {t : Text}
    (h : Text.fold (b.header.resolve t) = Text.fold b.entity.qualifiedName) :
    Name.isTypeKeyword t = false := by
  rw [← Bool.not_eq_true]
  intro hkeyword
  rw [hb.fold_qualifiedName] at h
  rcases b.resolve_label_cases (Name.isLabel_of_isTypeKeyword hkeyword) with hresolve | ⟨hne, hresolve⟩
  · -- the short name of the entity would be reserved
    rw [hresolve] at h
    have hreserved := Name.isReserved_of_isTypeKeyword hkeyword (Name.fold_eq_of_qualify h)
    rw [hb.entityFree] at hreserved
    cases hreserved
  · -- the entity's name is longer than that of its namespace
    rw [hresolve, Name.qualify, if_neg hne] at h
    have hlength := congrArg List.length h
    simp [Text.fold] at hlength

/-- No keyword is the name of the entity. -/
theorem IsWellFormed.isTypeKeyword_eq_false_of_name {t : Text}
    (h : Text.fold (Name.stripSeparator t) = Text.fold b.entity.qualifiedName) :
    Name.isTypeKeyword t = false := by
  rw [← Bool.not_eq_true]
  intro hkeyword
  have hlabel := Name.isLabel_of_isTypeKeyword hkeyword
  rw [Name.stripSeparator_of_isPath (Name.isPath_of_isLabel hlabel)] at h
  have hname : Name.isTypeKeyword b.entity.qualifiedName := by
    rwa [Name.isTypeKeyword, ← h]
  have hshort : Name.short b.entity.qualifiedName = b.entity.shortName :=
    Name.short_stripSeparator hb.entity
  have hreserved := Name.isReserved_short_of_isTypeKeyword hname
  rw [hshort, hb.entityFree] at hreserved
  cases hreserved

/-! ## One alternative -/

/-- In its declaration the entity is meant by its name and by `self`. -/
theorem IsWellFormed.isMeant_iff {a : Text} : b.entity.IsMeant a ↔ Text.fold a = selfWord ∨
    Text.fold (Name.stripSeparator a) = Text.fold b.entity.qualifiedName := by
  constructor
  · rintro ⟨c, hc, hsame⟩
    rw [Text.sameFolded_iff] at hsame
    rcases classMeant?_eq_some_iff.1 hc with ⟨hself, -⟩ | ⟨-, rfl⟩
    · exact .inl hself
    · exact .inr hsame
  · rintro (hself | hname)
    · exact ⟨_, classMeant?_eq_some_iff.2 (.inl ⟨hself, rfl⟩), Text.sameFolded_iff.2 rfl⟩
    · have hkeyword := hb.isTypeKeyword_eq_false_of_name hname
      exact ⟨_, classMeant?_eq_some_iff.2 (.inr ⟨hkeyword, rfl⟩), Text.sameFolded_iff.2 hname⟩

/-- In the builder's class a text means the entity if it resolves to it. -/
theorem IsWellFormed.meansEntity_header_iff {t : Text} : b.MeansEntity b.header t ↔
    Text.fold (b.header.resolve t) = Text.fold b.entity.qualifiedName := by
  constructor
  · rintro ⟨c, hc, hsame⟩
    rw [Text.sameFolded_iff] at hsame
    rcases classMeant?_eq_some_iff.1 hc with ⟨-, rfl⟩ | ⟨-, rfl⟩
    · -- `self` is the builder here
      exact absurd hsame hb.fold_name_ne
    · exact hsame
  · intro h
    have hkeyword := hb.isTypeKeyword_eq_false h
    exact ⟨_, classMeant?_eq_some_iff.2 (.inr ⟨hkeyword, rfl⟩), Text.sameFolded_iff.2 h⟩

/-- The short form of an alternative means the entity exactly if the alternative
meant it and was not the keyword. -/
theorem IsWellFormed.meansEntity_iff {a short : Text} (ha : Name.isPath (Name.stripSeparator a))
    (hshort : b.toNamespace.shorten a = some short) :
    b.MeansEntity b.header short ↔ b.entity.IsMeant a ∧ Text.fold a ≠ selfWord := by
  rw [hb.meansEntity_header_iff, hb.isMeant_iff]
  cases hkeyword : Name.isTypeKeyword a with
  | true =>
    -- a keyword is written as it is, and means the entity nowhere but as `self`
    rw [b.toNamespace.shorten_of_isTypeKeyword hkeyword] at hshort
    cases hshort
    refine iff_of_false (fun h => ?_) fun h => ?_
    · rw [hb.isTypeKeyword_eq_false h] at hkeyword
      cases hkeyword
    · rw [hb.isTypeKeyword_eq_false_of_name (h.1.resolve_left h.2)] at hkeyword
      cases hkeyword
  | false =>
    have hself : Text.fold a ≠ selfWord := by
      intro h
      rw [isTypeKeyword_of_fold_eq_selfWord h] at hkeyword
      cases hkeyword
    rw [hb.fold_resolve ha hkeyword hshort, or_iff_right hself, and_iff_left hself]

/-- An alternative is transcribed into its short form. The keyword for the class
is written as it is. -/
theorem IsWellFormed.transcribes {a short : Text} (ha : Name.isPath (Name.stripSeparator a))
    (hshort : b.toNamespace.shorten a = some short) : b.Transcribes b.header a short := by
  refine ⟨hb.meansEntity_iff ha hshort, fun hself => ?_⟩
  rw [b.toNamespace.shorten_of_isTypeKeyword (isTypeKeyword_of_fold_eq_selfWord hself)] at hshort
  cases hshort
  exact ⟨rfl, classMeant?_eq_some_iff.2 (.inl ⟨hself, rfl⟩)⟩

/-! ## The parameters of a page -/

end Builder

/-- Whether the page prints a type with the alternatives `parts` for a parameter
of the method of an accessor: the lines of the method's head stand on the page,
and the parameter in this place has the type before its name. -/
def PrintsType (b : Builder) (style : Style) (page : Text) (a : Accessor) (i : Nat)
    (parts : List Text) : Prop :=
  ∃ params returns p mark ending,
    (Php.Namespace.headRows 1 (Php.Namespace.methodHead (b.method a)) params returns).map
      (Code.Row.line style.layout.indentation.unit) <:+: Text.pieces '\n' page ∧
    (b.method a).params[i]? = some p ∧ (mark = [] ∨ mark = ['?']) ∧
    (ending = [] ∨ ending = "|null".toList) ∧
    params[i]? = some (mark ++ Text.join ['|'] parts ++ ending ++ [' '] ++ '$' :: p.name ++
      (p.default.map fun code => " = ".toList ++ code).getD [])

/-- A declared type of an accessor that has its method in the class is printed
with the short forms of its alternatives. -/
theorem Builder.IsWellFormed.prints_type {b : Builder} (hb : b.IsWellFormed) (style : Style)
    {a : Accessor} (ha : IsLast Accessor.key a b.entity.accessorsByKind) {i : Nat}
    {q : ParameterDeclaration} (hq : a.declared[i]? = some q) {ty : TypeHint} (hty : q.type = some ty) :
    Name.isTypeList ty.name ∧ ∃ parts, ty.listed.mapM b.toNamespace.shorten = some parts ∧
      PrintsType b style (b.page style.layout) a i parts := by
  have hlist : Name.isTypeList ty.name :=
    (hb.isWellFormed_of_declared ha.mem (List.mem_of_getElem? hq)).type ty hty
  obtain ⟨params, returns, p, t, hinfix, hp, htype, -, ht, hprinted⟩ := hb.exists_printed style ha hq
  obtain ⟨type, ⟨hnone, -⟩ | ⟨ty', printed, hty', htext, rfl⟩, rfl⟩ :=
    Php.Namespace.parameterText_eq_some hprinted
  · rw [htype, ParameterDeclaration.builderType, ParameterDeclaration.typeHint, hty] at hnone
    cases (if_pos hlist).symm.trans hnone
  · have hname : ty'.name = ty.name := by
      rw [htype, ParameterDeclaration.builderType, ParameterDeclaration.typeHint, hty] at hty'
      cases (if_pos hlist).symm.trans hty'
      rfl
    obtain ⟨parts, hparts, mark, ending, hmark, hending, rfl⟩ := Php.Namespace.typeText_eq_some htext
    refine ⟨hlist, parts, ?_, params, returns, p, mark, ending, hinfix, hp, hmark, hending, ht⟩
    rw [Php.mapM_eq_some_iff] at hparts ⊢
    rw [← hparts, hname, TypeHint.listed, List.map_map]
    rfl

/-- On the page of every entity of a valid manifest that gets one, every declared
type of a setter or mutator that has its method there is printed with its
alternatives in their order, each transcribed: a printed alternative means the
entity exactly if the declared one did and is not the keyword `self`. And no
alternative that means the entity is lost when the text of a type is read. -/
theorem keeps_entity_iff {m : Manifest} (hm : m.isValid) {e : Entity} (he : e ∈ m.entities)
    (hwanted : (m.builder e).isWanted) (style : Style) :
    ∃ page, (m.builder e).page? style.layout = some page ∧
      ∀ a, IsLast Accessor.key a e.accessorsByKind → ∀ i q ty, a.declared[i]? = some q →
        q.type = some ty →
        (∃ parts, PrintsType (m.builder e) style page a i parts ∧
          List.Forall₂ ((m.builder e).Transcribes (Header.ofPage page)) ty.listed parts) ∧
        ∀ raw, ty = TypeHint.parse raw → ∀ alt ∈ TypeHint.written raw, e.IsMeant alt →
          alt ∈ ty.listed := by
  have hb := Manifest.isWellFormed_builder hm he
  refine ⟨(m.builder e).page style.layout, by rw [Builder.page?, if_pos hwanted], ?_⟩
  rw [hb.header_page style]
  intro a ha i q ty hq hty
  obtain ⟨hlist, parts, hparts, hprints⟩ := hb.prints_type style ha hq hty
  refine ⟨⟨parts, hprints, Php.forall₂_of_mapM hparts fun alt halt printed hshort => ?_⟩, ?_⟩
  · obtain ⟨part, hpart, rfl⟩ := List.mem_map.1 halt
    exact hb.transcribes (List.all_eq_true.1 hlist part hpart) hshort
  · rintro raw rfl alt halt hmeant
    refine (TypeHint.mem_written_iff.1 halt).resolve_right ?_
    rintro ⟨-, rfl⟩
    -- `null` is a keyword other than `self`
    rcases hb.isMeant_iff.1 hmeant with hself | hname
    · exact absurd hself (by decide)
    · exact absurd (hb.isTypeKeyword_eq_false_of_name hname) (by decide)

/-- A setter of one parameter, whose type is written `raw`. -/
def parentSetter (raw : Text) : MethodDeclaration :=
  ⟨"setParent".toList, .publicAccess, false,
    [⟨"parent".toList, some (TypeHint.parse raw), false, none⟩]⟩

/-- An entity with this setter. -/
def node (raw : Text) : Entity := ⟨"App\\Node".toList, [], [parentSetter raw]⟩

/-- The manifest of this entity. -/
def nodeManifest (raw : Text) : Manifest := ⟨Settings.default, [node raw]⟩

theorem isLast_parentSetter (raw : Text) :
    IsLast Accessor.key (.setter (parentSetter raw)) (node raw).accessorsByKind :=
  ⟨[], [], rfl, fun _ h => absurd h List.not_mem_nil⟩

theorem keeps_entity_iff_node : (nodeManifest "null|\\app\\node".toList).isValid ∧
    node "null|\\app\\node".toList ∈ (nodeManifest "null|\\app\\node".toList).entities ∧
    ((nodeManifest "null|\\app\\node".toList).builder (node "null|\\app\\node".toList)).isWanted ∧
    ∃ page printed, ((nodeManifest "null|\\app\\node".toList).builder
        (node "null|\\app\\node".toList)).page? Style.psr.layout = some page ∧
      PrintsType ((nodeManifest "null|\\app\\node".toList).builder
        (node "null|\\app\\node".toList)) .psr page
        (.setter (parentSetter "null|\\app\\node".toList)) 0 [printed] ∧
      ((nodeManifest "null|\\app\\node".toList).builder
        (node "null|\\app\\node".toList)).MeansEntity (Header.ofPage page) printed := by
  have hvalid : (nodeManifest "null|\\app\\node".toList).isValid := by decide
  have hmem : node "null|\\app\\node".toList ∈
      (nodeManifest "null|\\app\\node".toList).entities := List.mem_singleton_self _
  have hwanted : ((nodeManifest "null|\\app\\node".toList).builder
      (node "null|\\app\\node".toList)).isWanted := by decide
  have hmeant : (node "null|\\app\\node".toList).IsMeant "\\app\\node".toList :=
    ⟨_, rfl, by decide⟩
  obtain ⟨page, hpage, hkeeps⟩ := keeps_entity_iff hvalid hmem hwanted .psr
  obtain ⟨⟨parts, hprints, hparts⟩, -⟩ := hkeeps _ (isLast_parentSetter _) 0 _ _ rfl rfl
  have hlisted : (TypeHint.parse "null|\\app\\node".toList).listed = ["\\app\\node".toList] := rfl
  rw [hlisted] at hparts
  obtain ⟨printed, rest, hprinted, hrest, rfl⟩ := List.forall₂_cons_left_iff.1 hparts
  cases hrest
  exact ⟨hvalid, hmem, hwanted, page, printed, hpage, hprints,
    hprinted.entity.2 ⟨hmeant, by decide⟩⟩

/-- A parameter of the type `self` accepted the entity, and on the page it is of
the type `self` again, which is the builder. -/
theorem not_keeps_entity_node :
    (nodeManifest "?self".toList).isValid ∧
    ((nodeManifest "?self".toList).builder (node "?self".toList)).isWanted ∧
    (node "?self".toList).IsMeant "self".toList ∧
    ∃ page, ((nodeManifest "?self".toList).builder (node "?self".toList)).page? Style.psr.layout =
        some page ∧
      PrintsType ((nodeManifest "?self".toList).builder (node "?self".toList)) .psr page
        (.setter (parentSetter "?self".toList)) 0 ["self".toList] ∧
      ¬ ((nodeManifest "?self".toList).builder (node "?self".toList)).MeansEntity
        (Header.ofPage page) "self".toList := by
  have hvalid : (nodeManifest "?self".toList).isValid := by decide
  have hwanted : ((nodeManifest "?self".toList).builder (node "?self".toList)).isWanted := by decide
  have hb := Manifest.isWellFormed_builder hvalid (List.mem_singleton_self (node "?self".toList))
  have hmeant : (node "?self".toList).IsMeant "self".toList := ⟨_, rfl, by decide⟩
  obtain ⟨-, parts, hparts, hprints⟩ := hb.prints_type .psr (isLast_parentSetter _) (i := 0) rfl rfl
  have hself : (TypeHint.parse "?self".toList).listed.mapM
      ((nodeManifest "?self".toList).builder (node "?self".toList)).toNamespace.shorten =
        some ["self".toList] := by decide
  cases hself.symm.trans hparts
  refine ⟨hvalid, hwanted, hmeant, _, by rw [Builder.page?, if_pos hwanted], hprints, ?_⟩
  rw [hb.header_page .psr]
  have hshort : ((nodeManifest "?self".toList).builder (node "?self".toList)).toNamespace.shorten
      "self".toList = some "self".toList := by decide
  intro h
  exact ((hb.meansEntity_iff (by decide) hshort).1 h).2 (by decide)

end BuilderForge
