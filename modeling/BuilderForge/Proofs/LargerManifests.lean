import Mathlib.Data.List.Forall2
import Mathlib.Data.List.Nodup
import BuilderForge.Proofs.Dependence
import BuilderForge.Proofs.Validity
/-
  What the entities of a manifest are to each other.

  The builder of an entity reads the rest of its manifest through the marker and
  the known types only. More known types let more annotations through and do
  nothing else: `Retyped` is all that can become of a method, and it carries
  over to the table of a class because it keeps the names. A manifest with the
  same entities and known types in another order makes the same files.
-/

namespace BuilderForge

/-! ## More known types -/

/-- Whether every name of the first set is in the second. -/
def KnownTypes.IsWithin (known known' : KnownTypes) : Prop :=
  ∀ name, known.contains name → known'.contains name

theorem KnownTypes.IsWithin.contains_eq {known known' : KnownTypes} (h : known.IsWithin known')
    (h' : known'.IsWithin known) (name : Text) : known.contains name = known'.contains name :=
  Bool.eq_iff_iff.2 ⟨h name, h' name⟩

/-- Only a class that is newly known can be newly allowed. -/
theorem KnownTypes.IsWithin.allows {known known' : KnownTypes} (h : known.IsWithin known')
    (name : Text) : known.allows name = known'.allows name ∨
      known.allows name = false ∧ known'.allows name = true ∧
        known.contains name = false ∧ known'.contains name = true := by
  unfold KnownTypes.allows
  cases annotationKeywords.contains (Text.fold name) with
  | true => exact .inl rfl
  | false =>
    rw [Bool.false_or, Bool.false_or]
    cases hold : known.contains name with
    | true => exact .inl (h name hold).symm
    | false =>
      cases known'.contains name with
      | true => exact .inr ⟨rfl, rfl, rfl, rfl⟩
      | false => exact .inl rfl

namespace PropertyDeclaration

variable {p : PropertyDeclaration}

/-- The type of a property that has only an annotation. -/
theorem builderType_annotated (huntyped : p.type = none) {word : Text}
    (hword : p.doc.bind Annotation.find? = some word) (known : KnownTypes) :
    p.builderType known =
      if known.allows (TypeHint.parse word).name then some (TypeHint.parse word) else none := by
  simp only [builderType, huntyped, hword]

/-- What more known types do to the type of a property: it stays, or an
annotation that was dropped is taken. -/
theorem builderType_of_isWithin {known known' : KnownTypes} (h : known.IsWithin known')
    (p : PropertyDeclaration) : p.builderType known = p.builderType known' ∨
      p.type = none ∧ ∃ word, p.doc.bind Annotation.find? = some word ∧
        known.contains (TypeHint.parse word).name = false ∧
        known'.contains (TypeHint.parse word).name = true ∧
        p.builderType known = none ∧ p.builderType known' = some (TypeHint.parse word) := by
  cases htype : p.type with
  | some ty => exact .inl (by simp only [builderType, htype])
  | none =>
    cases hword : p.doc.bind Annotation.find? with
    | none => exact .inl (by simp only [builderType, htype, hword])
    | some word =>
      rw [builderType_annotated htype hword, builderType_annotated htype hword]
      obtain heq | ⟨hold, hnew, hunknown, hlearnt⟩ := h.allows (TypeHint.parse word).name
      · exact .inl (by rw [heq])
      · exact .inr ⟨rfl, word, rfl, hunknown, hlearnt, by simp [hold], by rw [if_pos hnew]⟩

end PropertyDeclaration

/-- What becomes of a method of an entity when `known'` is known in place of
`known`: it stays, or it is that of an open property without a declared type,
its annotation is newly known, and its untyped parameter gets that type. -/
inductive Retyped (e : Entity) (known known' : KnownTypes) (m : Php.Method) : Php.Method → Prop where
  | same : Retyped e known known' m m
  | annotated (p : PropertyDeclaration) (word : Text) (declared : p ∈ e.properties)
      (opened : p.isOpen) (untyped : p.type = none)
      (tagged : p.doc.bind Annotation.find? = some word)
      (unknown : known.contains (TypeHint.parse word).name = false)
      (learnt : known'.contains (TypeHint.parse word).name)
      (name : m.name = Accessor.methodName (.field p))
      (params : m.params = [⟨"value".toList, none, none⟩]) :
      Retyped e known known' m
        { m with params := [⟨"value".toList, some (TypeHint.parse word), none⟩] }

theorem Retyped.name_eq {e : Entity} {known known' : KnownTypes} {m n : Php.Method}
    (h : Retyped e known known' m n) : m.name = n.name := by
  cases h <;> rfl

/-! ## Tables of related methods -/

namespace Php

variable {R : Method → Method → Prop} {ms ns : List Method}

/-- Related methods of one name go to the same place of related tables. -/
theorem forall₂_putMethod (hname : ∀ {m n}, R m n → m.name = n.name) {m n : Method} (h : R m n)
    (hs : List.Forall₂ R ms ns) : List.Forall₂ R (putMethod m ms) (putMethod n ns) := by
  induction hs with
  | nil => exact .cons h .nil
  | cons hhead htail ih =>
    rw [putMethod, putMethod, hname hhead, hname h]
    split
    · exact .cons h htail
    · exact .cons hhead ih

/-- Adding related methods to a class makes related tables. -/
theorem forall₂_addMethods (hname : ∀ {m n}, R m n → m.name = n.name) (c d : Class)
    (hc : List.Forall₂ R c.methods d.methods) (hs : List.Forall₂ R ms ns) :
    List.Forall₂ R (c.addMethods ms).methods (d.addMethods ns).methods := by
  rw [methods_addMethods, methods_addMethods]
  exact List.rel_foldl (R := R) (fun _ _ ht _ _ h => forall₂_putMethod hname h ht) hc hs

end Php

/-! ## Builders -/

namespace Builder

variable {e : Entity} {marker : Text} {known known' : KnownTypes}

theorem retyped_method (h : known.IsWithin known') {a : Accessor} (ha : a ∈ e.accessorsByKind) :
    Retyped e known known' ((⟨e, marker, known⟩ : Builder).method a)
      ((⟨e, marker, known'⟩ : Builder).method a) := by
  have hsame (htype : ∀ p, a = .field p → p.builderType known = p.builderType known') :
      Retyped e known known' ((⟨e, marker, known⟩ : Builder).method a)
        ((⟨e, marker, known'⟩ : Builder).method a) := by
    have heq : (⟨e, marker, known⟩ : Builder).method a = (⟨e, marker, known'⟩ : Builder).method a := by
      apply method_congr _ htype
      rfl
    rw [heq]
    exact .same
  cases a with
  | field p =>
    rcases p.builderType_of_isWithin h with heq | ⟨huntyped, word, hword, hold, hnew, hnone, hsome⟩
    · refine hsame fun q hq => ?_
      cases hq
      exact heq
    · obtain ⟨hp, hopen⟩ := Entity.mem_accessorsByKind_field.1 ha
      rw [method, method, hnone, hsome]
      exact .annotated p word hp hopen huntyped hword hold hnew rfl rfl
  -- a setter or mutator has no annotation
  | setter d => exact hsame (by rintro p ⟨⟩)
  | mutator d => exact hsame (by rintro p ⟨⟩)

/-- More known types retype methods of a builder's class and do nothing else to them. -/
theorem retyped_methods (h : known.IsWithin known') :
    List.Forall₂ (Retyped e known known') (⟨e, marker, known⟩ : Builder).toClass.methods
      (⟨e, marker, known'⟩ : Builder).toClass.methods := by
  refine Php.forall₂_addMethods Retyped.name_eq _ _ .nil (.cons .same (List.rel_append ?_ ?_))
  · rw [Entity.accessors_eq, List.forall₂_map_left_iff, List.forall₂_map_right_iff,
      List.forall₂_same]
    exact fun a ha => retyped_method h ha
  · exact .cons .same .nil

end Builder

/-! ## Manifests -/

namespace Manifest

variable {m m' : Manifest}

/-- The entities of a valid manifest have different names, also in another case. -/
theorem eq_of_fold_qualifiedName (hm : m.isValid) {e f : Entity} (he : e ∈ m.entities)
    (hf : f ∈ m.entities) (h : Text.fold e.qualifiedName = Text.fold f.qualifiedName) : e = f :=
  List.inj_on_of_nodup_map (entityViolations_eq_nil_iff.1 (isValid_iff.1 hm).2).2 he hf h

theorem eq_of_qualifiedName (hm : m.isValid) {e f : Entity} (he : e ∈ m.entities)
    (hf : f ∈ m.entities) (h : e.qualifiedName = f.qualifiedName) : e = f :=
  eq_of_fold_qualifiedName hm he hf (by rw [h])

theorem nodup_entities (hm : m.isValid) : m.entities.Nodup :=
  List.Nodup.of_map _ (entityViolations_eq_nil_iff.1 (isValid_iff.1 hm).2).2

/-- An entity is listed as skipped if it gets no builder. -/
theorem mem_skipped_iff (hm : m.isValid) {e : Entity} (he : e ∈ m.entities) :
    ⟨e.qualifiedName, Skipped.isBuilder⟩ ∈ m.skipped ↔ Builder.isEligible e.name = false := by
  rw [skipped, List.mem_map]
  constructor
  · rintro ⟨f, hf, heq⟩
    obtain ⟨hf, hwanted⟩ := List.mem_filter.1 hf
    cases eq_of_qualifiedName hm hf he (Skipped.mk.inj heq).1
    simpa [Builder.isWanted, builder] using hwanted
  · intro h
    exact ⟨e, List.mem_filter.2 ⟨he, by simpa [Builder.isWanted, builder] using h⟩, rfl⟩

/-- More entities and more known types of the settings make more known types. -/
theorem isWithin_known (hentities : m.entities ⊆ m'.entities)
    (hknown : m.settings.knownTypes ⊆ m'.settings.knownTypes) : m.known.IsWithin m'.known := by
  intro name h
  rw [KnownTypes.contains, List.contains_iff_mem, known, KnownTypes.mem_insertAll,
    KnownTypes.mem_insertAll] at h ⊢
  refine h.imp (.imp_right ?_) ?_
  · rintro ⟨n, hn, heq⟩
    exact ⟨n, List.map_subset _ hentities hn, heq⟩
  · rintro ⟨n, hn, heq⟩
    exact ⟨n, hknown hn, heq⟩

/-- Builders of one entity in manifests of one marker and the same known types. -/
theorem agrees_builder (hmarker : m.settings.effectiveMarker = m'.settings.effectiveMarker)
    (hknown : m.known.IsWithin m'.known) (hknown' : m'.known.IsWithin m.known) (e : Entity) :
    (m.builder e).Agrees (m'.builder e) :=
  ⟨rfl, rfl, rfl, rfl, hmarker, hknown.contains_eq hknown'⟩

/-- Builders that agree have the same file. -/
theorem preview?_eq_of_agrees {e : Entity} (h : (m.builder e).Agrees (m'.builder e))
    (style : Style) : m.preview? style e = m'.preview? style e := by
  rw [preview?, preview?, Builder.page?, Builder.page?, Builder.isWanted_congr h.name, h.page,
    Builder.path_congr h.name]

/-- Whatever the known types are, an entity has a file or not, and where it is. -/
theorem map_path_preview? (style : Style) (e : Entity) :
    (m.preview? style e).map Preview.path = (m'.preview? style e).map Preview.path := by
  have hname : (m.builder e).entity.name = (m'.builder e).entity.name := rfl
  rw [preview?, preview?, Builder.page?, Builder.page?, Builder.isWanted_congr hname,
    Builder.path_congr hname]
  split
  · simp only [Option.map_some]
  · simp only [Option.map_none]

/-- A valid manifest with more entities and known types, in any order, has the
files of the smaller one where they were and skips what that skips. In the
classes of the entities that both have, only the parameters of annotated
properties can change, from no type to the annotation's. If the manifests have
the same entities and known types, the files have the same contents, and only
their order changes. -/
theorem retypes_annotated_only (hm : m.isValid) (hm' : m'.isValid)
    (hmarker : m.settings.effectiveMarker = m'.settings.effectiveMarker)
    (hentities : m.entities ⊆ m'.entities)
    (hknown : m.settings.knownTypes ⊆ m'.settings.knownTypes) :
    (∀ e ∈ m.entities, (m.builder e).path = (m'.builder e).path ∧
      (∀ style, (m.preview? style e).map Preview.path = (m'.preview? style e).map Preview.path) ∧
      (⟨e.qualifiedName, Skipped.isBuilder⟩ ∈ m.skipped ↔
        ⟨e.qualifiedName, Skipped.isBuilder⟩ ∈ m'.skipped) ∧
      List.Forall₂ (Retyped e m.known m'.known) (m.builder e).toClass.methods
        (m'.builder e).toClass.methods) ∧
    (m'.entities ⊆ m.entities → m'.settings.knownTypes ⊆ m.settings.knownTypes → ∀ style,
      (∀ e ∈ m.entities, m.preview? style e = m'.preview? style e) ∧
      (m.previews style).Perm (m'.previews style)) := by
  have hwithin := isWithin_known hentities hknown
  refine ⟨fun e he => ⟨Builder.path_congr rfl, fun style => map_path_preview? style e, ?_, ?_⟩,
    fun hentities' hknown' style => ?_⟩
  · rw [mem_skipped_iff hm he, mem_skipped_iff hm' (hentities he)]
  · rw [builder, builder, hmarker]
    exact Builder.retyped_methods hwithin
  · have hagrees := agrees_builder hmarker hwithin (isWithin_known hentities' hknown')
    have hpreview : m.preview? style = m'.preview? style :=
      funext fun e => preview?_eq_of_agrees (hagrees e) style
    refine ⟨fun e _ => congrFun hpreview e, ?_⟩
    -- the names are different, so entities that are the same up to repetition are so up to order
    have hperm : m.entities.Perm m'.entities :=
      (List.perm_ext_iff_of_nodup (nodup_entities hm) (nodup_entities hm')).2 fun e =>
        ⟨fun he => hentities he, fun he => hentities' he⟩
    rw [previews, previews, hpreview]
    exact hperm.filterMap _

/-- An entity whose property is annotated with the class of another one. -/
def track : Entity :=
  ⟨"App\\Track".toList,
    [⟨"disc".toList, .publicAccess, false, none, some "/** @var \\App\\Disc */".toList⟩], []⟩

/-- The entity of that class. -/
def disc : Entity := ⟨"App\\Disc".toList, [], []⟩

/-- The manifest of the track alone. -/
def single : Manifest := ⟨Settings.default, [track]⟩

/-- A manifest with the disc before the track, and with another known class. -/
def album : Manifest := ⟨⟨none, .psr, none, ["Genre".toList]⟩, [disc, track]⟩

/-- The same entities in the other order. -/
def reissue : Manifest := ⟨⟨none, .psr, none, ["Genre".toList]⟩, [track, disc]⟩

/-- The method of the track's property is untyped in the single and typed on the album. -/
theorem retypes_annotated_only_album : single.isValid ∧ album.isValid ∧ reissue.isValid ∧
    single.entities ⊆ album.entities ∧ album.entities ⊆ reissue.entities ∧
    reissue.entities ⊆ album.entities ∧
    (single.builder track).toClass.methods.map Php.Method.params =
      [[], [⟨"value".toList, none, none⟩], []] ∧
    (album.builder track).toClass.methods.map Php.Method.params =
      [[], [⟨"value".toList, some ⟨"\\App\\Disc".toList, false⟩, none⟩], []] ∧
    List.Forall₂ (Retyped track single.known album.known) (single.builder track).toClass.methods
      (album.builder track).toClass.methods ∧
    (album.previews .psr).Perm (reissue.previews .psr) := by
  have hsingle : single.isValid := by decide
  have halbum : album.isValid := by decide
  have hreissue : reissue.isValid := by decide
  have hmore : single.entities ⊆ album.entities := List.subset_cons_self _ _
  have hswap : album.entities ⊆ reissue.entities := (List.Perm.swap track disc []).subset
  have hback : reissue.entities ⊆ album.entities := (List.Perm.swap disc track []).subset
  have huntyped : (single.builder track).toClass.methods.map Php.Method.params =
      [[], [⟨"value".toList, none, none⟩], []] := by
    rw [Builder.toClass, Php.methods_addMethods, Builder.methods, Entity.accessors_eq]
    decide
  have htyped : (album.builder track).toClass.methods.map Php.Method.params =
      [[], [⟨"value".toList, some ⟨"\\App\\Disc".toList, false⟩, none⟩], []] := by
    rw [Builder.toClass, Php.methods_addMethods, Builder.methods, Entity.accessors_eq]
    decide
  obtain ⟨hretyped, -⟩ := retypes_annotated_only hsingle halbum rfl hmore (List.nil_subset _)
  obtain ⟨-, hsame⟩ := retypes_annotated_only halbum hreissue rfl hswap (List.Subset.refl _)
  obtain ⟨-, -, -, hmethods⟩ := hretyped track (List.mem_singleton_self _)
  exact ⟨hsingle, halbum, hreissue, hmore, hswap, hback, huntyped, htyped, hmethods,
    (hsame hback (List.Subset.refl _) .psr).2⟩

end Manifest

end BuilderForge
