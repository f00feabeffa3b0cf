import BuilderForge.Manifest.Source
import BuilderForge.Proofs.Findings
import BuilderForge.Proofs.NameForms
import BuilderForge.Proofs.Validity
/-
  Valid manifests, and which violation of an invalid one is reported.

  `Manifest.IsProper` says what a manifest has to be, by the grammar of names
  and without an order of checks. `Manifest.Fails` says which violations a
  manifest has and at which place each is found; places are compared as words,
  so the numbers in the rules are the order of the checks: marker, known types,
  entities; of an entity its name, its properties, its methods, and after all
  that an earlier entity of the same name.

  The list of violations is the traversal of all this (`lists_violations`). So
  a manifest is valid exactly if it is proper, and what is reported of any
  other is the violation at the least place.
-/

namespace BuilderForge

open Findings (Place Lists Steps IsFirst)
open Name (LabelForm NameForm TypeForm FullForm ConstantForm SameLetters SameClass)

/-! ## Proper manifests -/

/-- Whether a name can be that of a class. -/
def Name.IsClassName (name : Text) : Prop :=
  ∃ last, NameForm name last ∧ ∀ word ∈ Name.reservedWords, ¬ SameLetters last word

/-- Whether a method is declared as it should be. -/
structure MethodDeclaration.IsProper (d : MethodDeclaration) : Prop where
  name : LabelForm d.name
  parameter : ∀ p ∈ d.params, LabelForm p.name ∧ p.name ≠ "this".toList
  type : ∀ p ∈ d.params, ∀ ty, p.type = some ty → TypeForm ty.name
  constant : ∀ p ∈ d.params, ∀ c, p.default = some (.constant c) →
    ∃ name, ConstantForm c name ∧ LabelForm name
  distinct : (d.params.map ParameterDeclaration.name).Nodup

/-- Whether an entity is declared as it should be. -/
structure Entity.IsProper (e : Entity) : Prop where
  name : Name.IsClassName e.name
  property : ∀ p ∈ e.properties, LabelForm p.name
  type : ∀ p ∈ e.properties, ∀ ty, p.type = some ty → TypeForm ty.name
  method : ∀ d ∈ e.methods, d.IsProper

/-- Whether a manifest is as it should be. -/
structure Manifest.IsProper (m : Manifest) : Prop where
  marker : ∀ name, m.settings.marker = some name → Name.IsClassName name
  knownType : ∀ name ∈ m.settings.knownTypes, Name.IsClassName name
  entity : ∀ e ∈ m.entities, e.IsProper
  distinct : m.entities.Pairwise fun e f => ¬ SameClass e.name f.name

/-! ## Violations and their places -/

/-- The violation of a text that cannot be the name of a class. -/
inductive ClassNameFault (role : Role) (name : Text) : Violation → Prop where
  | malformed (h : ∀ last, ¬ NameForm name last) : ClassNameFault role name (.malformed role name)
  | reserved {last word : Text} (h : NameForm name last) (hword : word ∈ Name.reservedWords)
    (hsame : SameLetters last word) : ClassNameFault role name (.reserved name)

/-- The violations of a parameter of `method` that comes after those named in `before`. -/
inductive ParameterDeclaration.Fails (method : Text) (before : List Text)
    (p : ParameterDeclaration) : Place → Violation → Prop where
  | name (h : ¬ LabelForm p.name) : Fails method before p [0] (.malformed .parameter p.name)
  | type {ty : TypeHint} (hty : p.type = some ty) (h : ¬ TypeForm ty.name) :
    Fails method before p [1] (.malformed .type ty.name)
  | self (h : p.name = "this".toList) : Fails method before p [2] (.selfParameter p.name method)
  | repeated (h : p.name ∈ before) : Fails method before p [3] (.repeatedParameter p.name method)
  | constant {c name : Text} (hc : p.default = some (.constant c)) (hname : ConstantForm c name)
    (h : ¬ LabelForm name) : Fails method before p [4] (.malformed .constant name)

/-- The violations of a method. -/
inductive MethodDeclaration.Fails (d : MethodDeclaration) : Place → Violation → Prop where
  | name (h : ¬ LabelForm d.name) : Fails d [0] (.malformed .method d.name)
  | parameter {i : Nat} {p : ParameterDeclaration} {place : Place} {v : Violation}
    (hp : d.params[i]? = some p)
    (h : p.Fails d.name ((d.params.take i).map ParameterDeclaration.name) place v) :
    Fails d (1 :: i :: place) v

/-- The violations of an entity by itself. -/
inductive Entity.Fails (e : Entity) : Place → Violation → Prop where
  | name {v : Violation} (h : ClassNameFault .entity e.name v) : Fails e [0] v
  | propertyName {i : Nat} {p : PropertyDeclaration} (hp : e.properties[i]? = some p)
    (h : ¬ LabelForm p.name) : Fails e [1, i, 0] (.malformed .property p.name)
  | propertyType {i : Nat} {p : PropertyDeclaration} {ty : TypeHint}
    (hp : e.properties[i]? = some p) (hty : p.type = some ty) (h : ¬ TypeForm ty.name) :
    Fails e [1, i, 1] (.malformed .type ty.name)
  | method {i : Nat} {d : MethodDeclaration} {place : Place} {v : Violation}
    (hd : e.methods[i]? = some d) (h : d.Fails place v) : Fails e (2 :: i :: place) v

/-- The violations of a manifest. -/
inductive Manifest.Fails (m : Manifest) : Place → Violation → Prop where
  | marker {name : Text} {v : Violation} (hn : m.settings.marker = some name)
    (h : ClassNameFault .marker name v) : Fails m [0] v
  | knownType {i : Nat} {name : Text} {v : Violation} (hn : m.settings.knownTypes[i]? = some name)
    (h : ClassNameFault .knownType name v) : Fails m [1, i] v
  | entity {i : Nat} {e : Entity} {place : Place} {v : Violation} (he : m.entities[i]? = some e)
    (h : e.Fails place v) : Fails m (2 :: i :: 0 :: place) v
  | repeated {i : Nat} {e f : Entity} {name : Text} (he : m.entities[i]? = some e)
    (hf : f ∈ m.entities.take i) (h : SameClass f.name e.name) (hname : FullForm e.name name) :
    Fails m [2, i, 1] (.repeatedEntity name)

/-! ## The list of violations -/

theorem lists_labelViolations (role : Role) (name : Text) :
    Lists (fun place v => place = [] ∧ ¬ LabelForm name ∧ v = .malformed role name)
      (labelViolations role name) := by
  unfold labelViolations
  split
  · rename_i h
    exact .none fun v hv => hv.1 (Name.isLabel_iff.1 h)
  · rename_i h
    exact .single fun v => and_iff_right (mt Name.isLabel_iff.2 h)

theorem lists_classNameViolations (role : Role) (name : Text) :
    Lists (fun place v => place = [] ∧ ClassNameFault role name v) (classNameViolations role name) := by
  unfold classNameViolations
  split
  · rename_i h
    have hnone : ∀ last, ¬ NameForm name last := fun last hlast => by
      rw [(Name.nameForm_iff.1 hlast).1] at h
      cases h
    refine .single fun v => ⟨fun hv => ?_, fun hv => hv ▸ .malformed hnone⟩
    cases hv with
    | malformed => rfl
    | reserved hlast => exact absurd hlast (hnone _)
  · rename_i h
    have hform : NameForm name (Name.short name) := Name.nameForm_iff.2 ⟨by simpa using h, rfl⟩
    split
    · rename_i hr
      obtain ⟨word, hword, hsame⟩ := Name.isReserved_iff.1 hr
      refine .single fun v => ⟨fun hv => ?_, fun hv => hv ▸ .reserved hform hword hsame⟩
      cases hv with
      | malformed hnone => exact absurd hform (hnone _)
      | reserved => rfl
    · rename_i hr
      refine .none fun v hv => ?_
      cases hv with
      | malformed hnone => exact hnone _ hform
      | reserved hlast hword hsame =>
        rw [← (Name.nameForm_iff.1 hlast).2] at hsame
        exact hr (Name.isReserved_iff.2 ⟨_, hword, hsame⟩)

theorem lists_typeViolations (type : Option TypeHint) :
    Lists (fun place v => place = [] ∧
      ∃ ty, type = some ty ∧ ¬ TypeForm ty.name ∧ v = .malformed .type ty.name)
      (typeViolations type) := by
  cases type with
  | none => exact .none fun v ⟨_, hty, _⟩ => by cases hty
  | some ty =>
    simp only [typeViolations, Option.some_inj, exists_eq_left']
    split
    · rename_i h
      exact .none fun v hv => hv.1 (Name.isTypeList_iff.1 h)
    · rename_i h
      exact .single fun v => and_iff_right (mt Name.isTypeList_iff.2 h)

theorem lists_defaultViolations (default : Option Default) :
    Lists (fun place v => place = [] ∧ ∃ c name, default = some (.constant c) ∧
      ConstantForm c name ∧ ¬ LabelForm name ∧ v = .malformed .constant name)
      (defaultViolations default) := by
  rcases default with _ | _ | _ | c
  · exact .none fun v ⟨_, _, hc, _⟩ => by cases hc
  · exact .none fun v ⟨_, _, hc, _⟩ => by cases hc
  · exact .none fun v ⟨_, _, hc, _⟩ => by cases hc
  · simpa [defaultViolations, Name.constantForm_iff] using
      lists_labelViolations .constant (Default.unqualified c)

theorem lists_ite {c : Prop} [Decidable c] (v : Violation) :
    Lists (fun place w => place = [] ∧ c ∧ w = v) (if c then [v] else []) := by
  split
  · rename_i h
    exact .single fun w => and_iff_right h
  · rename_i h
    exact .none fun w hw => h hw.1

/-- What is wrong with one parameter. -/
theorem lists_parameter (method : Text) (before : List Text) (p : ParameterDeclaration) :
    Lists (p.Fails method before) (labelViolations .parameter p.name ++ typeViolations p.type ++
      (if p.name = selfName then [.selfParameter p.name method] else []) ++
      (if before.contains p.name then [.repeatedParameter p.name method] else []) ++
      defaultViolations p.default) := by
  have hsteps := ((((Steps.first (lists_labelViolations .parameter p.name)).next
    (lists_typeViolations p.type)).next
    (lists_ite (c := p.name = selfName) (.selfParameter p.name method))).next
    (lists_ite (c := before.contains p.name) (.repeatedParameter p.name method))).next
    (lists_defaultViolations p.default)
  refine hsteps.lists.congr fun place v => ⟨?_, ?_⟩
  · rintro ((((⟨_, rfl, rfl, h, rfl⟩ | ⟨_, rfl, rfl, ty, hty, h, rfl⟩) | ⟨_, rfl, rfl, h, rfl⟩) |
      ⟨_, rfl, rfl, h, rfl⟩) | ⟨_, rfl, rfl, c, name, hc, hname, h, rfl⟩)
    · exact .name h
    · exact .type hty h
    · exact .self h
    · exact .repeated (List.contains_iff_mem.1 h)
    · exact .constant hc hname h
  · intro h
    cases h with
    | name h => exact .inl (.inl (.inl (.inl ⟨[], rfl, rfl, h, rfl⟩)))
    | type hty h => exact .inl (.inl (.inl (.inr ⟨[], rfl, rfl, _, hty, h, rfl⟩)))
    | self h => exact .inl (.inl (.inr ⟨[], rfl, rfl, h, rfl⟩))
    | repeated h => exact .inl (.inr ⟨[], rfl, rfl, List.contains_iff_mem.2 h, rfl⟩)
    | constant hc hname h => exact .inr ⟨[], rfl, rfl, _, _, hc, hname, h, rfl⟩

theorem ParameterDeclaration.Fails.mono {method : Text} {before before' : List Text}
    {p : ParameterDeclaration} {place : Place} {v : Violation} (h : p.Fails method before place v)
    (hmem : ∀ n ∈ before, n ∈ before') : p.Fails method before' place v := by
  cases h with
  | name h => exact .name h
  | type hty h => exact .type hty h
  | self h => exact .self h
  | repeated h => exact .repeated (hmem _ h)
  | constant hc hname h => exact .constant hc hname h

theorem lists_method (d : MethodDeclaration) : Lists d.Fails d.violations := by
  have hparams := Lists.traverse ParameterDeclaration.name (parameterViolations d.name)
    (fun _ => rfl) (fun _ _ _ => rfl) (lists_parameter d.name) [] d.params
  refine ((Steps.first (lists_labelViolations .method d.name)).next hparams).lists.congr
    fun place v => ⟨?_, ?_⟩
  · rintro (⟨_, rfl, rfl, h, rfl⟩ | ⟨_, rfl, i, p, place, rfl, hp, h⟩)
    · exact .name h
    · exact .parameter hp (h.mono fun n hn => by simpa using hn)
  · intro h
    cases h with
    | name h => exact .inl ⟨[], rfl, rfl, h, rfl⟩
    | parameter hp h =>
      exact .inr ⟨_, rfl, _, _, _, rfl, hp, h.mono fun n hn => by simpa using hn⟩

theorem lists_property (p : PropertyDeclaration) :
    Lists (fun place v => place = [0] ∧ ¬ LabelForm p.name ∧ v = .malformed .property p.name ∨
      place = [1] ∧ ∃ ty, p.type = some ty ∧ ¬ TypeForm ty.name ∧ v = .malformed .type ty.name)
      p.violations := by
  refine ((Steps.first (lists_labelViolations .property p.name)).next
    (lists_typeViolations p.type)).lists.congr fun place v => ⟨?_, ?_⟩
  · rintro (⟨_, rfl, rfl, h⟩ | ⟨_, rfl, rfl, h⟩)
    · exact .inl ⟨rfl, h⟩
    · exact .inr ⟨rfl, h⟩
  · rintro (⟨rfl, h⟩ | ⟨rfl, h⟩)
    · exact .inl ⟨[], rfl, rfl, h⟩
    · exact .inr ⟨[], rfl, rfl, h⟩

theorem lists_entity (e : Entity) : Lists e.Fails e.violations := by
  refine (((Steps.first (lists_classNameViolations .entity e.name)).next
    (Lists.flatMap lists_property e.properties)).next
    (Lists.flatMap lists_method e.methods)).lists.congr fun place v => ⟨?_, ?_⟩
  · rintro ((⟨_, rfl, rfl, h⟩ | ⟨_, rfl, i, p, _, rfl, hp, ⟨rfl, h, rfl⟩ | ⟨rfl, ty, hty, h, rfl⟩⟩) |
      ⟨_, rfl, i, d, place, rfl, hd, h⟩)
    · exact .name h
    · exact .propertyName hp h
    · exact .propertyType hp hty h
    · exact .method hd h
  · intro h
    cases h with
    | name h => exact .inl (.inl ⟨[], rfl, rfl, h⟩)
    | propertyName hp h => exact .inl (.inr ⟨_, rfl, _, _, _, rfl, hp, .inl ⟨rfl, h, rfl⟩⟩)
    | propertyType hp hty h =>
      exact .inl (.inr ⟨_, rfl, _, _, _, rfl, hp, .inr ⟨rfl, _, hty, h, rfl⟩⟩)
    | method hd h => exact .inr ⟨_, rfl, _, _, _, rfl, hd, h⟩

/-- The list of violations of a manifest is what is wrong with it, in the order
of the places. -/
theorem Manifest.lists_violations (m : Manifest) : Lists m.Fails m.violations := by
  have hmarker : Lists (fun place v => place = [] ∧
      ∃ name, m.settings.marker = some name ∧ ClassNameFault .marker name v)
      (m.settings.marker.toList.flatMap (classNameViolations .marker)) := by
    cases m.settings.marker with
    | none => exact .none fun v ⟨_, h, _⟩ => by cases h
    | some name => simpa using lists_classNameViolations .marker name
  have hseen (i : Nat) (e : Entity) :
      (((m.entities.take i).map fun f : Entity => Text.fold f.qualifiedName).reverse ++ []).contains
        (Text.fold e.qualifiedName) ↔
        ∃ f ∈ m.entities.take i, SameClass f.name e.name := by
    rw [List.append_nil, List.contains_iff_mem, List.mem_reverse, List.mem_map]
    simp only [Name.sameClass_iff, Entity.qualifiedName]
  have hentity (seen : List Text) (e : Entity) := (Steps.first (lists_entity e)).next
    (lists_ite (c := seen.contains (Text.fold e.qualifiedName)) (.repeatedEntity e.qualifiedName))
  have hentities := Lists.traverse (fun e : Entity => Text.fold e.qualifiedName)
    entityViolations (fun _ => rfl) (fun _ _ _ => rfl) (fun seen e => (hentity seen e).lists)
    [] m.entities
  refine (((Steps.first hmarker).next (Lists.flatMap (lists_classNameViolations .knownType)
    m.settings.knownTypes)).next hentities).lists.congr fun place v => ⟨?_, ?_⟩
  · rintro ((⟨_, rfl, rfl, name, hn, h⟩ | ⟨_, rfl, i, name, _, rfl, hn, rfl, h⟩) |
      ⟨_, rfl, i, e, _, rfl, he, ⟨place, rfl, h⟩ | ⟨_, rfl, rfl, h, rfl⟩⟩)
    · exact .marker hn h
    · exact .knownType hn h
    · exact .entity he h
    · obtain ⟨f, hf, hsame⟩ := (hseen i e).1 h
      exact .repeated he hf hsame (Name.fullForm_iff.2 rfl)
  · intro h
    cases h with
    | marker hn h => exact .inl (.inl ⟨[], rfl, rfl, _, hn, h⟩)
    | knownType hn h => exact .inl (.inr ⟨_, rfl, _, _, _, rfl, hn, rfl, h⟩)
    | entity he h => exact .inr ⟨_, rfl, _, _, _, rfl, he, .inl ⟨_, rfl, h⟩⟩
    | repeated he hf h hname =>
      cases Name.fullForm_iff.1 hname
      exact .inr ⟨_, rfl, _, _, _, rfl, he, .inr ⟨[], rfl, rfl, (hseen _ _).2 ⟨_, hf, h⟩, rfl⟩⟩

/-! ## Validity -/

theorem Name.isClassName_iff {role : Role} {name : Text} :
    classNameViolations role name = [] ↔ Name.IsClassName name := by
  have hfree {last : Text} : Name.isReserved last = false ↔
      ∀ word ∈ Name.reservedWords, ¬ SameLetters last word := by
    rw [← Bool.not_eq_true, Name.isReserved_iff]
    simp only [not_exists, not_and]
  simp only [classNameViolations_eq_nil_iff, Name.IsClassName, hfree, Name.nameForm_iff, and_assoc,
    exists_and_left, exists_eq_left']

theorem MethodDeclaration.isProper_iff {d : MethodDeclaration} : d.violations = [] ↔ d.IsProper := by
  rw [violations, List.append_eq_nil_iff, labelViolations_eq_nil_iff, parameterViolations_eq_nil_iff,
    Name.isLabel_iff]
  constructor
  · rintro ⟨hname, hparams, hdistinct⟩
    exact ⟨hname, fun p hp => ⟨Name.isLabel_iff.1 (hparams p hp).1.name, (hparams p hp).2.1⟩,
      fun p hp ty hty => Name.isTypeList_iff.1 ((hparams p hp).1.type ty hty),
      fun p hp c hc => ⟨_, Name.constantForm_iff.2 rfl,
        Name.isLabel_iff.1 ((hparams p hp).1.default c hc)⟩, hdistinct⟩
  · rintro ⟨hname, hparameter, htype, hconstant, hdistinct⟩
    refine ⟨hname, fun p hp => ⟨⟨Name.isLabel_iff.2 (hparameter p hp).1, fun ty hty => ?_,
      fun c hc => ?_⟩, (hparameter p hp).2, List.not_mem_nil⟩, hdistinct⟩
    · exact Name.isTypeList_iff.2 (htype p hp ty hty)
    · obtain ⟨name, hname, hlabel⟩ := hconstant p hp c hc
      rw [Name.constantForm_iff.1 hname]
      exact Name.isLabel_iff.2 hlabel

theorem Entity.isProper_iff {e : Entity} : e.violations = [] ↔ e.IsProper := by
  have hproperty (p : PropertyDeclaration) : p.violations = [] ↔
      LabelForm p.name ∧ ∀ ty, p.type = some ty → TypeForm ty.name := by
    rw [PropertyDeclaration.violations, List.append_eq_nil_iff, labelViolations_eq_nil_iff,
      typeViolations_eq_nil_iff, Name.isLabel_iff]
    simp only [Name.isTypeList_iff]
  rw [violations, List.append_eq_nil_iff, List.append_eq_nil_iff, List.flatMap_eq_nil_iff,
    List.flatMap_eq_nil_iff, Name.isClassName_iff]
  simp only [hproperty, MethodDeclaration.isProper_iff]
  constructor
  · rintro ⟨⟨hname, hproperties⟩, hmethods⟩
    exact ⟨hname, fun p hp => (hproperties p hp).1, fun p hp => (hproperties p hp).2, hmethods⟩
  · rintro ⟨hname, hlabels, htypes, hmethods⟩
    exact ⟨⟨hname, fun p hp => ⟨hlabels p hp, htypes p hp⟩⟩, hmethods⟩

namespace Manifest

theorem isValid_iff_isProper {m : Manifest} : m.isValid ↔ m.IsProper := by
  have hdistinct : (m.entities.map fun e => Text.fold e.qualifiedName).Nodup ↔
      m.entities.Pairwise fun e f => ¬ SameClass e.name f.name := by
    simp only [List.Nodup, List.pairwise_map, Name.sameClass_iff, Entity.qualifiedName, ne_eq]
  rw [isValid_iff, Settings.violations_eq_nil_iff, entityViolations_eq_nil_iff, hdistinct]
  simp only [Name.isClassName_iff, Entity.isProper_iff, List.not_mem_nil, not_false_iff, and_true]
  constructor
  · rintro ⟨⟨hmarker, hknown⟩, hentities, hpairs⟩
    exact ⟨hmarker, hknown, hentities, hpairs⟩
  · rintro ⟨hmarker, hknown, hentities, hpairs⟩
    exact ⟨⟨hmarker, hknown⟩, hentities, hpairs⟩

theorem check_eq {format : Document.Format} {source : Text} {m : Manifest}
    (h : parse format source = .ok m) :
    check format source = match m.violations.head? with
      | none => .ok m
      | some v => .error (.invalid v) := by
  unfold check
  cases hv : m.violations with
  | nil =>
    simp only [h, hv, bind, Except.bind]
    rfl
  | cons v vs =>
    simp only [h, hv, bind, Except.bind]
    rfl

/-- A manifest is valid exactly if it is proper, and any other has a violation at
a least place, which is reported; this is what becomes of every source from
which a manifest is read. -/
theorem reports_first (m : Manifest) : (m.isValid ↔ m.IsProper) ∧
    (m.IsProper ∨ ∃ v, IsFirst m.Fails v) ∧
    (∀ v, m.violations.head? = some v ↔ IsFirst m.Fails v) ∧
    ∀ format source, parse format source = .ok m →
      (check format source = .ok m ↔ m.IsProper) ∧
      ∀ v, check format source = .error (.invalid v) ↔ IsFirst m.Fails v := by
  have hfirst (v : Violation) : m.violations.head? = some v ↔ IsFirst m.Fails v :=
    m.lists_violations.head?_eq_some_iff
  have hproper : m.violations.head? = none ↔ m.IsProper := by
    rw [← isValid_iff_isProper, isValid, List.isEmpty_iff, List.head?_eq_none_iff]
  refine ⟨isValid_iff_isProper, ?_, hfirst, fun format source hparse => ?_⟩
  · cases hv : m.violations.head? with
    | none => exact .inl (hproper.1 hv)
    | some v => exact .inr ⟨v, (hfirst v).1 hv⟩
  · rw [check_eq hparse, ← hproper]
    simp only [← hfirst]
    cases m.violations.head? <;> simp

end Manifest

end BuilderForge
