import Mathlib.Data.List.Nodup
import BuilderForge.Proofs.PagePairs
/-
  The two ways to spell a `null` default.

  A default that is `null` is declared as such or as a value, and both are
  printed as `null`. The type of the parameter is another matter: only the first
  spelling makes it nullable. So two entities that differ in spellings have one
  class exactly if no parameter whose type hinges on its default is spelled in
  two ways, and one page exactly if no such parameter has a printed type that
  shows it: `class_eq_iff_spellings`.

  The builders of the two entities are compared method by method. Of the
  accessors of one name the last one has the method, so the pairs that matter
  are those of the last accessors (`Accessor.Answers`).
-/

namespace BuilderForge

theorem forall₂_map_eq_iff {α β γ : Type} {f : α → γ} {g : β → γ} {l : List α} {l' : List β} :
    List.Forall₂ (fun a b => f a = g b) l l' ↔ l.map f = l'.map g := by
  rw [← List.forall₂_eq_eq_eq, List.forall₂_map_left_iff, List.forall₂_map_right_iff]

/-! ## Spellings -/

/-- The default with `null` spelled as such. -/
def Default.canonical : Default → Default
  | .value .null => .null
  | d => d

/-- The parameter with a `null` default spelled as such. -/
def ParameterDeclaration.canonical (p : ParameterDeclaration) : ParameterDeclaration :=
  { p with default := p.default.map Default.canonical }

/-- The method with every `null` default spelled as such. -/
def MethodDeclaration.canonical (m : MethodDeclaration) : MethodDeclaration :=
  { m with params := m.params.map ParameterDeclaration.canonical }

/-- The accessor with every `null` default spelled as such. -/
def Accessor.canonical : Accessor → Accessor
  | .field p => .field p
  | .setter m => .setter m.canonical
  | .mutator m => .mutator m.canonical

/-- The entity with every `null` default spelled as such. -/
def Entity.canonical (e : Entity) : Entity :=
  { e with methods := e.methods.map MethodDeclaration.canonical }

/-- Whether two entities are the same but for the spelling of `null` defaults. -/
def Entity.IsRespelled (e e' : Entity) : Prop := e.canonical = e'.canonical

theorem Builder.defaultText_canonical (b : Builder) (d : Default) :
    b.defaultText d.canonical = b.defaultText d := by
  unfold Default.canonical
  split <;> rfl

namespace ParameterDeclaration

variable {p q : ParameterDeclaration}

/-- Whether the default of a parameter is spelled as `null` itself. -/
def spellsNull (p : ParameterDeclaration) : Bool := p.default.any Default.isNull

/-- Whether the builder's parameter has a type, and nothing but its default can
make it nullable. -/
def Hinges (p : ParameterDeclaration) : Prop :=
  ∃ ty, p.type = some ty ∧ Name.isTypeList ty.name ∧ ty.nullable = false ∧ p.nullable = false

/-- Whether the printed type shows it: a type that accepts `null` by its own
keyword is printed without more. -/
def Shows (p : ParameterDeclaration) : Prop :=
  p.Hinges ∧ ∀ ty, p.type = some ty → Php.acceptsNull ty.name = false

/-- Both spellings are printed alike as defaults. -/
theorem defaultText_eq (h : p.canonical = q.canonical) (b : Builder) :
    p.default.map b.defaultText = q.default.map b.defaultText := by
  have hdefault : p.default.map Default.canonical = q.default.map Default.canonical :=
    (ParameterDeclaration.mk.inj h).2.2.2
  have htext : b.defaultText = b.defaultText ∘ Default.canonical :=
    funext fun d => (b.defaultText_canonical d).symm
  rw [htext, ← Option.map_map, hdefault, Option.map_map]

theorem type_eq (h : p.canonical = q.canonical) : p.type = q.type :=
  (ParameterDeclaration.mk.inj h).2.1

theorem nullable_eq (h : p.canonical = q.canonical) : p.nullable = q.nullable :=
  (ParameterDeclaration.mk.inj h).2.2.1

/-- What is well-formed does not depend on the spelling. -/
theorem IsWellFormed.of_canonical (hp : p.IsWellFormed) (h : p.canonical = q.canonical) :
    q.IsWellFormed := by
  obtain ⟨hname, htype, -, hdefault⟩ := ParameterDeclaration.mk.inj h
  refine ⟨hname ▸ hp.name, htype ▸ hp.type, fun name hq => hp.default name ?_⟩
  rw [hq] at hdefault
  obtain ⟨d, hd, hconstant⟩ := Option.map_eq_some_iff.1 hdefault
  rw [hd]
  -- a constant is spelled in one way
  unfold Default.canonical at hconstant
  split at hconstant
  · cases hconstant
  · rw [hconstant]

/-- The type of the builder's parameter, if the declared one is usable. -/
theorem builderType_eq_map (p : ParameterDeclaration) : p.builderType =
    (p.type.filter fun ty => Name.isTypeList ty.name).map fun ty =>
      { ty with nullable := ty.nullable || p.nullable || p.spellsNull } := by
  rw [builderType, typeHint]
  cases p.type with
  | none => rfl
  | some ty =>
    by_cases hlist : Name.isTypeList ty.name <;>
      simp [TypeHint.wellFormed?, Option.filter, hlist, spellsNull]

theorem map_name_builderType (h : p.canonical = q.canonical) :
    p.builderType.map TypeHint.name = q.builderType.map TypeHint.name := by
  rw [builderType_eq_map, builderType_eq_map, type_eq h, Option.map_map, Option.map_map]
  rfl

/-- The builder's parameters have one type exactly if it does not hinge on the
defaults, or these are spelled alike. -/
theorem builderType_eq_iff (h : p.canonical = q.canonical) :
    p.builderType = q.builderType ↔ (p.Hinges → p.spellsNull = q.spellsNull) := by
  rw [builderType_eq_map, builderType_eq_map, ← type_eq h, ← nullable_eq h]
  unfold Hinges
  cases p.type with
  | none => simp
  | some ty =>
    cases hlist : Name.isTypeList ty.name <;> cases hnull : ty.nullable <;>
      cases hp : p.nullable <;> simp [Option.filter, hlist, hnull]

end ParameterDeclaration

/-! ## Printed types -/

namespace Php.Namespace

variable {ns : Namespace}

/-- What makes a type nullable is printed, unless its own keyword accepts `null`. -/
theorem typeText_nullable_iff (h : ns.IsCovered) (name : Text) :
    ns.typeText ⟨name, true⟩ = ns.typeText ⟨name, false⟩ ↔ acceptsNull name := by
  obtain ⟨parts, hparts⟩ := Option.isSome_iff_exists.1
    (isSome_mapM (f := fun part => ns.shorten (Text.trim part)) (l := Text.pieces '|' name)
      fun _ _ => isSome_shorten h _)
  unfold typeText
  rw [hparts, Option.map_some, Option.map_some, Option.some_inj]
  cases hnull : acceptsNull name with
  | true => simp
  | false =>
    -- the text with `null` is longer
    refine iff_of_false (fun heq => ?_) (by simp)
    have hlength := congrArg List.length heq
    simp only [Bool.not_false, Bool.and_true, if_true, Bool.false_eq_true, if_false] at hlength
    split at hlength <;> simp at hlength

/-- A printed parameter tells how its type is printed. -/
theorem parameterText_eq_iff {name : Text} {default : Option Text} {ty ty' : TypeHint} :
    ns.parameterText ⟨name, some ty, default⟩ = ns.parameterText ⟨name, some ty', default⟩ ↔
      ns.typeText ty = ns.typeText ty' := by
  unfold parameterText
  dsimp only
  generalize ns.typeText ty = t
  generalize ns.typeText ty' = t'
  cases t <;> cases t' <;> simp

end Php.Namespace

/-- The builder's parameters are printed alike exactly if their printed types do not
show the difference, or the defaults are spelled alike. -/
theorem ParameterDeclaration.parameterText_eq_iff {p q : ParameterDeclaration}
    (h : p.canonical = q.canonical) {ns : Php.Namespace} (hns : ns.IsCovered) (name : Text)
    (default : Option Text) :
    ns.parameterText ⟨name, p.builderType, default⟩ = ns.parameterText ⟨name, q.builderType, default⟩ ↔
      (p.Shows → p.spellsNull = q.spellsNull) := by
  unfold Shows
  by_cases hsame : p.Hinges → p.spellsNull = q.spellsNull
  · rw [(builderType_eq_iff h).2 hsame]
    exact iff_of_true rfl fun hshows => hsame hshows.1
  · obtain ⟨hhinges, hne⟩ := Classical.not_imp.1 hsame
    obtain ⟨ty, hty, hlist, hnull, hp⟩ := id hhinges
    have htype (r : ParameterDeclaration) (hr : r.type = some ty) (hnullable : r.nullable = false) :
        r.builderType = some ⟨ty.name, r.spellsNull⟩ := by
      rw [builderType_eq_map, hr, hnullable]
      simp [Option.filter, hlist, hnull]
    have hq : q.builderType = some ⟨ty.name, q.spellsNull⟩ :=
      htype q (type_eq h ▸ hty) (nullable_eq h ▸ hp)
    rw [htype p hty hp, hq, Php.Namespace.parameterText_eq_iff]
    have hiff : ns.typeText ⟨ty.name, p.spellsNull⟩ = ns.typeText ⟨ty.name, q.spellsNull⟩ ↔
        Php.acceptsNull ty.name := by
      rw [← Php.Namespace.typeText_nullable_iff hns]
      revert hne
      cases p.spellsNull <;> cases q.spellsNull <;> simp [eq_comm]
    rw [hiff]
    simp [hhinges, hty, hne]

/-! ## Accessors -/

namespace Accessor

variable {a a' : Accessor}

theorem key_canonical (a : Accessor) : a.canonical.key = a.key := by cases a <;> rfl

/-- The name of the builder's parameter for a declared one. -/
def parameterName : Accessor → Text → Text
  | .mutator _, name => name
  | _, _ => "value".toList

/-- The parameter that a field has without a declared one. -/
def ownParameters (known : KnownTypes) : Accessor → List Php.Parameter
  | .field p => [⟨"value".toList, p.builderType known, none⟩]
  | _ => []

end Accessor

/-- The parameters of a method are those that were declared. -/
theorem Builder.params_method (b : Builder) (a : Accessor) :
    (b.method a).params = a.ownParameters b.known ++ a.declared.map fun q =>
      ⟨a.parameterName q.name, q.builderType, q.default.map b.defaultText⟩ := by
  cases a <;> rfl

theorem MethodDeclaration.isSetter_canonical (m : MethodDeclaration) :
    m.canonical.isSetter = m.isSetter := by
  show (m.isOpen && _ && decide ((m.params.map ParameterDeclaration.canonical).length = 1)) = _
  rw [List.length_map]
  rfl

theorem MethodDeclaration.isMutator_canonical (m : MethodDeclaration) :
    m.canonical.isMutator = m.isMutator := by
  show (m.isOpen && _ && !(m.params.map ParameterDeclaration.canonical).isEmpty) = _
  rw [List.isEmpty_map]
  rfl

theorem Entity.accessorsByKind_canonical (e : Entity) :
    e.canonical.accessorsByKind = e.accessorsByKind.map Accessor.canonical := by
  have hfilter {p : MethodDeclaration → Bool} (hp : ∀ m, p m.canonical = p m) :
      (e.methods.map MethodDeclaration.canonical).filter p =
        (e.methods.filter p).map MethodDeclaration.canonical := by
    rw [List.filter_map]
    congr 2
    exact funext hp
  simp only [accessorsByKind, canonical, hfilter MethodDeclaration.isSetter_canonical,
    hfilter MethodDeclaration.isMutator_canonical, List.map_append, List.map_map]
  rfl

/-- The declared parameters of the accessor with every `null` default spelled as such. -/
theorem Accessor.declared_canonical (a : Accessor) :
    a.canonical.declared = a.declared.map ParameterDeclaration.canonical := by
  cases a <;> rfl

theorem Accessor.forall₂_declared {a a' : Accessor} (h : a.canonical = a'.canonical) :
    List.Forall₂ (fun q q' : ParameterDeclaration => q.canonical = q'.canonical) a.declared
      a'.declared := by
  rw [forall₂_map_eq_iff, ← declared_canonical, h, declared_canonical]

/-- Whether two accessors have the methods of one name in the builders of two entities. -/
structure Accessor.Answers (e e' : Entity) (a a' : Accessor) : Prop where
  left : IsLast Accessor.key a e.accessorsByKind
  right : IsLast Accessor.key a' e'.accessorsByKind
  key : a.key = a'.key

/-- Whether two parameters stand in one place of the methods of one name. -/
def ParameterDeclaration.Answers (e e' : Entity) (q q' : ParameterDeclaration) : Prop :=
  ∃ a a', Accessor.Answers e e' a a' ∧ (q, q') ∈ a.declared.zip a'.declared

/-- In respelled entities they are the same but for spellings. -/
theorem Accessor.Answers.canonical_eq {e e' : Entity} (h : e.IsRespelled e') {a a' : Accessor}
    (ha : Accessor.Answers e e' a a') : a.canonical = a'.canonical := by
  have hlast {e : Entity} {a : Accessor} (ha : IsLast Accessor.key a e.accessorsByKind) :
      IsLast Accessor.key a.canonical e.canonical.accessorsByKind := by
    rw [Entity.accessorsByKind_canonical]
    apply IsLast.map
    simpa only [key_canonical] using ha
  refine (hlast ha.left).eq (h ▸ hlast ha.right) ?_
  rw [key_canonical, key_canonical, ha.key]

/-! ## Methods in pairs -/

namespace Builder

variable {b b' : Builder} {S : Php.Method → Php.Method → Prop}

/-- A relation holds between the methods of two builders if it does between those
of answering accessors, the constructors and the finishers. -/
theorem forall₂_methods_iff
    (hkeys : b.entity.accessorsByKind.map Accessor.key = b'.entity.accessorsByKind.map Accessor.key)
    (hkey : ∀ {m n}, S m n → m.key = n.key) (hfirst : S b.constructor b'.constructor)
    (hlast : S b.finisher b'.finisher) :
    List.Forall₂ S b.toClass.methods b'.toClass.methods ↔
      ∀ a a', Accessor.Answers b.entity b'.entity a a' → S (b.method a) (b'.method a') := by
  constructor
  · intro h a a' ha
    obtain ⟨n, hn, hS⟩ := (exists_mem_of_forall₂ h).1 _ (b.method_mem_methods ha.left)
    have hn' := b'.method_mem_methods ha.right
    have hnodup : (b'.toClass.methods.map Php.Method.key).Nodup :=
      (Php.isTable_addMethods rfl b'.methods).nodup
    have hkey' : n.key = (b'.method a').key := by
      rw [← hkey hS, key_method, key_method, ha.key]
    rwa [← List.inj_on_of_nodup_map hnodup hn hn' hkey']
  · intro h
    obtain ⟨ms, hmethods, htable⟩ := b.exists_isTable
    obtain ⟨ms', hmethods', htable'⟩ := b'.exists_isTable
    -- the tables have the same keys in the same order
    have hsame : ms.map Php.Method.key = ms'.map Php.Method.key := by
      rw [htable.keys, htable'.keys, List.map_map, List.map_map]
      simp only [Function.comp_def, key_method]
      rw [show (fun a : Accessor => a.key) = Accessor.key from rfl, hkeys]
    have hpairs : List.Forall₂ (fun m n : Php.Method => m.key = n.key) ms ms' :=
      forall₂_map_eq_iff.2 hsame
    rw [hmethods, hmethods']
    refine .cons hfirst (List.rel_append ?_ (.cons hlast .nil))
    rw [List.forall₂_iff_zip] at hpairs ⊢
    refine ⟨hpairs.1, fun {m n} hmn => ?_⟩
    obtain ⟨hm, hn⟩ := List.of_mem_zip hmn
    obtain ⟨a, rfl, ha⟩ := (htable.last m hm).exists_of_map
    obtain ⟨a', rfl, ha'⟩ := (htable'.last n hn).exists_of_map
    have hkey' := hpairs.2 hmn
    simp only [key_method] at ha ha' hkey'
    exact h a a' ⟨ha, ha', hkey'⟩

/-- A relation holds between the parameters of answering methods if it does
between the declared ones, place by place. -/
theorem forall₂_params_iff (hname : b.entity.name = b'.entity.name) (hknown : b.known = b'.known)
    {a a' : Accessor} (h : a.canonical = a'.canonical) {P : Php.Parameter → Php.Parameter → Prop}
    (hP : ∀ p, P p p) : List.Forall₂ P (b.method a).params (b'.method a').params ↔
      ∀ q q', (q, q') ∈ a.declared.zip a'.declared →
        P ⟨a.parameterName q.name, q.builderType, q.default.map b.defaultText⟩
          ⟨a.parameterName q.name, q'.builderType, q.default.map b.defaultText⟩ := by
  have hown : a.ownParameters b.known = a'.ownParameters b'.known := by
    have hcanonical (a : Accessor) (known : KnownTypes) :
        a.canonical.ownParameters known = a.ownParameters known := by cases a <;> rfl
    rw [← hcanonical, h, hcanonical, hknown]
  have hrename : a.parameterName = a'.parameterName := by
    have hcanonical (a : Accessor) : a.canonical.parameterName = a.parameterName := by
      cases a <;> rfl
    rw [← hcanonical, h, hcanonical]
  obtain ⟨hlength, hsame⟩ := List.forall₂_iff_zip.1 (Accessor.forall₂_declared h)
  -- declared parameters in one place have one name and one printed default
  have hparameter {q q' : ParameterDeclaration} (hq : (q, q') ∈ a.declared.zip a'.declared) :
      (⟨a'.parameterName q'.name, q'.builderType, q'.default.map b'.defaultText⟩ : Php.Parameter) =
        ⟨a.parameterName q.name, q'.builderType, q.default.map b.defaultText⟩ := by
    rw [hrename, ← funext (defaultText_congr hname), ← ParameterDeclaration.defaultText_eq (hsame hq),
      ← (ParameterDeclaration.mk.inj (hsame hq)).1]
  rw [params_method, params_method, ← hown, List.forall₂_iff_zip, List.zip_append rfl,
    List.length_append, List.length_append, List.length_map, List.length_map, hlength,
    and_iff_right rfl, List.zip_map]
  constructor
  · intro hP q q' hq
    rw [← hparameter hq]
    exact hP (List.mem_append_right _ (List.mem_map_of_mem (f := Prod.map _ _) hq))
  · intro hdeclared p p' hp
    rcases List.mem_append.1 hp with hp | hp
    · exact (List.forall₂_iff_zip.1 (List.forall₂_same.2 fun p _ => hP p)).2 hp
    · obtain ⟨⟨q, q'⟩, hq, heq⟩ := List.mem_map.1 hp
      cases heq
      dsimp only
      rw [hparameter hq]
      exact hdeclared q q' hq

/-- Answering methods match. -/
theorem matches_method (hname : b.entity.name = b'.entity.name) (hknown : b.known = b'.known)
    {a a' : Accessor} (h : a.canonical = a'.canonical) :
    (b.method a).Matches (b'.method a') := by
  have hparams : List.Forall₂ Php.Parameter.Matches (b.method a).params (b'.method a').params := by
    refine (forall₂_params_iff hname hknown h .refl).2 fun q q' hq => ⟨rfl, ?_, rfl⟩
    exact ParameterDeclaration.map_name_builderType
      ((List.forall₂_iff_zip.1 (Accessor.forall₂_declared h)).2 hq)
  have hmethodName : a.methodName = a'.methodName := by
    have hcanonical (a : Accessor) : a.canonical.methodName = a.methodName := by cases a <;> rfl
    rw [← hcanonical, h, hcanonical]
  have hbody : (b.method a).body = (b'.method a').body := by
    have hcanonical (b b' : Builder) (a : Accessor) :
        (b.method a.canonical).body = (b'.method a).body := by
      cases a with
      | field p => rfl
      | setter m => rfl
      | mutator m =>
        simp only [method, Accessor.canonical, MethodDeclaration.canonical, List.map_map]
        rfl
    rw [← hcanonical b, h, hcanonical]
  refine ⟨?_, ?_, ?_, hparams, ?_, hbody⟩
  · rw [name_method, name_method, hmethodName]
  · cases a <;> cases a' <;> rfl
  · cases a <;> cases a' <;> rfl
  · cases a <;> cases a' <;> rfl

theorem toClass_eq_iff (hname : b.entity.name = b'.entity.name) (hmarker : b.marker = b'.marker) :
    b.toClass = b'.toClass ↔ List.Forall₂ Eq b.toClass.methods b'.toClass.methods := by
  obtain ⟨hclass, himplements, hproperties⟩ := b.fields_toClass
  obtain ⟨hclass', himplements', hproperties'⟩ := b'.fields_toClass
  rw [List.forall₂_eq_eq_eq]
  refine ⟨fun h => by rw [h], fun h => ?_⟩
  calc b.toClass
      = ⟨b.toClass.name, b.toClass.implements, b.toClass.properties, b.toClass.methods⟩ := rfl
    _ = ⟨b'.toClass.name, b'.toClass.implements, b'.toClass.properties, b'.toClass.methods⟩ := by
        rw [hclass, hclass', himplements, himplements', hproperties, hproperties', h,
          shortName_congr hname, hmarker]
    _ = b'.toClass := rfl

/-- Whether two builders are the same but for the spelling of `null` defaults. -/
structure IsRespelled (b b' : Builder) : Prop where
  entity : b.entity.IsRespelled b'.entity
  marker : b.marker = b'.marker
  known : b.known = b'.known

theorem IsRespelled.name_eq (h : b.IsRespelled b') : b.entity.name = b'.entity.name :=
  (Entity.mk.inj h.entity).1

/-- Such builders are compared parameter by parameter. -/
theorem IsRespelled.forall₂_methods_iff_answers (h : b.IsRespelled b')
    {P : Php.Parameter → Php.Parameter → Prop} {Q : ParameterDeclaration → ParameterDeclaration → Prop}
    (hrefl : ∀ m, S m m) (hkey : ∀ {m n}, S m n → m.key = n.key) (hP : ∀ p, P p p)
    (hS : ∀ {m n : Php.Method}, m.Matches n → (S m n ↔ List.Forall₂ P m.params n.params))
    (hQ : ∀ {q q' : ParameterDeclaration}, q.canonical = q'.canonical → ∀ name default,
      (P ⟨name, q.builderType, default⟩ ⟨name, q'.builderType, default⟩ ↔ Q q q')) :
    List.Forall₂ S b.toClass.methods b'.toClass.methods ↔
      ∀ q q', ParameterDeclaration.Answers b.entity b'.entity q q' → Q q q' := by
  have hkeys : b.entity.accessorsByKind.map Accessor.key =
      b'.entity.accessorsByKind.map Accessor.key := by
    have hcanonical (e : Entity) : e.canonical.accessorsByKind.map Accessor.key =
        e.accessorsByKind.map Accessor.key := by
      rw [Entity.accessorsByKind_canonical, List.map_map]
      exact List.map_congr_left fun a _ => a.key_canonical
    rw [← hcanonical, h.entity, hcanonical]
  have hfirst : S b.constructor b'.constructor := by
    rw [constructor, constructor, entityReference_congr h.name_eq]
    exact hrefl _
  have hlast : S b.finisher b'.finisher := by
    rw [finisher, finisher, entityReference_congr h.name_eq]
    exact hrefl _
  have hmethod {a a' : Accessor} (ha : Accessor.Answers b.entity b'.entity a a') :
      S (b.method a) (b'.method a') ↔ ∀ q q', (q, q') ∈ a.declared.zip a'.declared → Q q q' := by
    have hcanonical := ha.canonical_eq h.entity
    have hdeclared := List.forall₂_iff_zip.1 (Accessor.forall₂_declared hcanonical)
    rw [hS (matches_method h.name_eq h.known hcanonical),
      forall₂_params_iff h.name_eq h.known hcanonical hP]
    exact forall₂_congr fun q q' => imp_congr_right fun hq => hQ (hdeclared.2 hq) _ _
  rw [forall₂_methods_iff hkeys hkey hfirst hlast]
  constructor
  · rintro hall q q' ⟨a, a', ha, hq⟩
    exact (hmethod ha).1 (hall a a' ha) q q' hq
  · intro hall a a' ha
    exact (hmethod ha).2 fun q q' hq => hall q q' ⟨a, a', ha, hq⟩

/-- Their methods match. -/
theorem IsRespelled.forall₂_matches (h : b.IsRespelled b') :
    List.Forall₂ Php.Method.Matches b.toClass.methods b'.toClass.methods := by
  refine (h.forall₂_methods_iff_answers (P := Php.Parameter.Matches) (Q := fun _ _ => True)
    .refl ?_ .refl ?_ ?_).2 fun _ _ _ => trivial
  · intro m n hmatches
    rw [Php.Method.key, hmatches.name, Php.Method.key]
  · exact fun hmatches => iff_of_true hmatches hmatches.params
  · exact fun hq _ _ => iff_of_true ⟨rfl, ParameterDeclaration.map_name_builderType hq, rfl⟩ trivial

/-- What is well-formed does not depend on spellings. -/
theorem IsRespelled.isWellFormed (h : b.IsRespelled b') (hb : b.IsWellFormed) : b'.IsWellFormed := by
  have hname : b.entity.qualifiedName = b'.entity.qualifiedName ∧
      b.entity.shortName = b'.entity.shortName := by
    rw [Entity.qualifiedName, Entity.shortName, h.name_eq]
    exact ⟨rfl, rfl⟩
  have hproperties : b.entity.properties = b'.entity.properties :=
    (Entity.mk.inj h.entity).2.1
  have hmethod {m' : MethodDeclaration} (hm' : m' ∈ b'.entity.methods) :
      ∃ m ∈ b.entity.methods, m.canonical = m'.canonical := by
    have hmem := List.mem_map_of_mem (f := MethodDeclaration.canonical) hm'
    rw [← (Entity.mk.inj h.entity).2.2] at hmem
    exact List.mem_map.1 hmem
  exact {
    entity := hname.1 ▸ hb.entity
    entityFree := hname.2 ▸ hb.entityFree
    marker := h.marker ▸ hb.marker
    markerFree := h.marker ▸ hb.markerFree
    known := h.known ▸ hb.known
    property := hproperties ▸ hb.property
    method := by
      intro m' hm'
      obtain ⟨m, hm, hcanonical⟩ := hmethod hm'
      rw [← (MethodDeclaration.mk.inj hcanonical).1]
      exact hb.method m hm
    parameter := by
      intro m' hm' p' hp'
      obtain ⟨m, hm, hcanonical⟩ := hmethod hm'
      have hmem := List.mem_map_of_mem (f := ParameterDeclaration.canonical) hp'
      rw [← (MethodDeclaration.mk.inj hcanonical).2.2.2] at hmem
      obtain ⟨p, hp, hp'⟩ := List.mem_map.1 hmem
      exact (hb.parameter m hm p hp).of_canonical hp' }

/-- Their methods are printed alike exactly if no parameter whose printed type shows
it is spelled in two ways. -/
theorem IsRespelled.printsAlike_iff (h : b.IsRespelled b') :
    List.Forall₂ b.opening.PrintsAlike b.toClass.methods b'.toClass.methods ↔
      ∀ q q', ParameterDeclaration.Answers b.entity b'.entity q q' → q.Shows →
        q.spellsNull = q'.spellsNull := by
  have hcovered : b.opening.IsCovered := Php.Namespace.isCovered_addImport_named _ ⟨[], [], [], []⟩
  refine h.forall₂_methods_iff_answers
    (P := fun p p' => b.opening.parameterText p = b.opening.parameterText p') (.refl _) ?_
    (fun _ => rfl) ?_ ?_
  · intro m n halike
    rw [Php.Method.key, halike.isMatch.name, Php.Method.key]
  · intro m n hmatches
    rw [forall₂_map_eq_iff]
    exact ⟨fun halike => halike.params, fun hparams => ⟨hmatches, hparams⟩⟩
  · exact fun hq name default => ParameterDeclaration.parameterText_eq_iff hq hcovered name default

/-- Their methods are the same exactly if no parameter whose type hinges on its
default is spelled in two ways. -/
theorem IsRespelled.methods_eq_iff (h : b.IsRespelled b') :
    List.Forall₂ Eq b.toClass.methods b'.toClass.methods ↔
      ∀ q q', ParameterDeclaration.Answers b.entity b'.entity q q' → q.Hinges →
        q.spellsNull = q'.spellsNull := by
  refine h.forall₂_methods_iff_answers (P := Eq) (fun _ => rfl) (fun heq => by rw [heq])
    (fun _ => rfl) ?_ ?_
  · intro m n hmatches
    rw [List.forall₂_eq_eq_eq]
    exact ⟨fun heq => by rw [heq], hmatches.eq_of_params⟩
  · intro q q' hq name default
    rw [← ParameterDeclaration.builderType_eq_iff hq]
    simp

end Builder

/-- Builders that differ at most in the spelling of `null` defaults have one class
exactly if no parameter whose type hinges on its default is spelled in two ways.
They have one page if no parameter whose printed type shows it is, and, if they
are well-formed, only then. -/
theorem class_eq_iff_spellings {b b' : Builder} (h : b.IsRespelled b') :
    (b.toClass = b'.toClass ↔ ∀ q q', ParameterDeclaration.Answers b.entity b'.entity q q' →
      q.Hinges → q.spellsNull = q'.spellsNull) ∧
    ((∀ q q', ParameterDeclaration.Answers b.entity b'.entity q q' → q.Shows →
      q.spellsNull = q'.spellsNull) → ∀ layout, b.page layout = b'.page layout) ∧
    (b.IsWellFormed → ∀ style : Style, b.page style.layout = b'.page style.layout →
      ∀ q q', ParameterDeclaration.Answers b.entity b'.entity q q' → q.Shows →
        q.spellsNull = q'.spellsNull) := by
  refine ⟨?_, fun hshows => ?_, fun hb style heq => ?_⟩
  · rw [Builder.toClass_eq_iff h.name_eq h.marker, h.methods_eq_iff]
  · exact Builder.page_congr h.name_eq h.marker (h.printsAlike_iff.2 hshows)
  · exact h.printsAlike_iff.1
      (hb.printsAlike_of_page (h.isWellFormed hb) h.name_eq h.marker h.forall₂_matches style heq)

/-- A setter of one parameter with a `null` default in one spelling. -/
def titleSetter (type : Text) (d : Default) : MethodDeclaration :=
  ⟨"setTitle".toList, .publicAccess, false,
    [⟨"title".toList, some (TypeHint.parse type), false, some d⟩]⟩

/-- An entity with this setter. -/
def poem (type : Text) (d : Default) : Entity := ⟨"App\\Poem".toList, [], [titleSetter type d]⟩

/-- The manifest of this entity. -/
def poemManifest (type : Text) (d : Default) : Manifest := ⟨Settings.default, [poem type d]⟩

/-- The builder of this entity. -/
def poemBuilder (type : Text) (d : Default) : Builder := (poemManifest type d).builder (poem type d)

theorem isRespelled_poem (type : Text) :
    (poemBuilder type .null).IsRespelled (poemBuilder type (.value .null)) :=
  ⟨rfl, rfl, rfl⟩

theorem answers_poem {type : Text} {d d' : Default} {q q' : ParameterDeclaration} :
    ParameterDeclaration.Answers (poem type d) (poem type d') q q' ↔
      q = ⟨"title".toList, some (TypeHint.parse type), false, some d⟩ ∧
      q' = ⟨"title".toList, some (TypeHint.parse type), false, some d'⟩ := by
  have hlast (d : Default) : IsLast Accessor.key (.setter (titleSetter type d))
      (poem type d).accessorsByKind :=
    ⟨[], [], rfl, fun _ h => absurd h List.not_mem_nil⟩
  constructor
  · rintro ⟨a, a', ha, hq⟩
    cases List.mem_singleton.1 ha.left.mem
    cases List.mem_singleton.1 ha.right.mem
    cases List.mem_singleton.1 hq
    exact ⟨rfl, rfl⟩
  · rintro ⟨rfl, rfl⟩
    exact ⟨_, _, ⟨hlast d, hlast d', rfl⟩, List.mem_singleton_self _⟩

/-- A type that is nullable anyway is the same in both spellings. -/
theorem class_eq_iff_spellings_poem :
    (poemBuilder "?string".toList .null).IsRespelled (poemBuilder "?string".toList (.value .null)) ∧
    (poemBuilder "?string".toList .null).toClass =
      (poemBuilder "?string".toList (.value .null)).toClass := by
  have h := isRespelled_poem "?string".toList
  refine ⟨h, (class_eq_iff_spellings h).1.2 ?_⟩
  rintro q q' hq ⟨ty, hty, -, hnull, -⟩
  obtain ⟨rfl, rfl⟩ := answers_poem.1 hq
  cases hty
  cases hnull

/-- A type that is not nullable otherwise is so in one spelling only, in the class
and on the page. -/
theorem not_class_eq_poem :
    (poemManifest "string".toList .null).isValid ∧
    (poemManifest "string".toList (.value .null)).isValid ∧
    (poemBuilder "string".toList .null).IsRespelled (poemBuilder "string".toList (.value .null)) ∧
    (poemBuilder "string".toList .null).toClass ≠
      (poemBuilder "string".toList (.value .null)).toClass ∧
    (poemBuilder "string".toList .null).page Style.psr.layout ≠
      (poemBuilder "string".toList (.value .null)).page Style.psr.layout := by
  have hvalid : (poemManifest "string".toList .null).isValid := by decide
  have hvalid' : (poemManifest "string".toList (.value .null)).isValid := by decide
  have h := isRespelled_poem "string".toList
  have hb : (poemBuilder "string".toList .null).IsWellFormed :=
    Manifest.isWellFormed_builder hvalid (List.mem_singleton_self _)
  have hanswers : ParameterDeclaration.Answers (poem "string".toList .null)
      (poem "string".toList (.value .null)) _ _ := answers_poem.2 ⟨rfl, rfl⟩
  refine ⟨hvalid, hvalid', h, fun heq => ?_, fun heq => ?_⟩
  · rw [Builder.toClass_eq_iff h.name_eq h.marker, h.methods_eq_iff] at heq
    cases heq _ _ hanswers ⟨_, rfl, by decide, rfl, rfl⟩
  · have halike := hb.printsAlike_of_page (h.isWellFormed hb) h.name_eq h.marker h.forall₂_matches
      .psr heq
    cases h.printsAlike_iff.1 halike _ _ hanswers
      ⟨⟨_, rfl, by decide, rfl, rfl⟩, by rintro ty ⟨⟩; decide⟩

end BuilderForge
