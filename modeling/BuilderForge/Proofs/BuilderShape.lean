import BuilderForge.Builder.Basic
import BuilderForge.Proofs.Accessors
import BuilderForge.Proofs.MethodTable
import BuilderForge.Proofs.NameForms
/-
  The shape of a builder's class.

  Between the constructor and `build` the class has the table of its accessors'
  methods: one method for each folded name, in the order in which the names
  first come, made from the last accessor of the name. The names of accessors
  begin with `with`, so none of them is that of the constructor or of `build`.
  `Forwards` says in full what a method made from an accessor is, down to the
  source text of each default (`WritesDefault`).
-/

namespace BuilderForge

/-- In two lists that go together every element has a partner in the other one. -/
theorem exists_mem_of_forall₂ {α β : Type} {R : α → β → Prop} {l : List α} {l' : List β}
    (h : List.Forall₂ R l l') : (∀ a ∈ l, ∃ b ∈ l', R a b) ∧ ∀ b ∈ l', ∃ a ∈ l, R a b := by
  induction h with
  | nil => exact ⟨nofun, nofun⟩
  | cons hhead _ ih =>
    simp only [List.mem_cons, forall_eq_or_imp, exists_eq_or_imp]
    exact ⟨⟨.inl hhead, fun a ha => .inr (ih.1 a ha)⟩, .inl hhead, fun b hb => .inr (ih.2 b hb)⟩

/-- What method names have in common that mean the same method. -/
def Accessor.key (a : Accessor) : Text := Text.fold a.methodName

/-- The parameters with which the method of an accessor is declared. -/
def Accessor.declared : Accessor → List ParameterDeclaration
  | .field _ => []
  | .setter d => d.params
  | .mutator d => d.params

/-- The type of a builder's parameter: the type that the parameter accepts, if
it is written as a type. -/
def ParameterDeclaration.usableType (p : ParameterDeclaration) : Option TypeHint :=
  p.typeHint.filter fun ty => Name.isTypeList ty.name

namespace Builder

/-- The lines of a method that runs a statement and answers the builder. -/
def fluentBody (statement : Text) : List Text :=
  Text.lines (statement ++ "\n\nreturn $this;".toList)

/-- What a builder writes for a declared default: nothing if there is none, `null`,
the literal of the value, or the constant behind the entity's short name. -/
inductive WritesDefault (b : Builder) : Option Default → Option Text → Prop where
  | missing : WritesDefault b none none
  | null : WritesDefault b (some .null) (some "null".toList)
  | value (v : Value) : WritesDefault b (some (.value v)) (some v.literal)
  | constant {c name : Text} (h : Name.ConstantForm c name) :
    WritesDefault b (some (.constant c)) (some (b.entity.shortName ++ "::".toList ++ name))

/-- Whether a builder's parameter of a name stands for a declared one. -/
structure Takes (b : Builder) (name : Text) (p : ParameterDeclaration) (q : Php.Parameter) : Prop where
  name : q.name = name
  type : q.type = p.usableType
  default : b.WritesDefault p.default q.default

/-- Whether a method is what a builder makes of an accessor: it is public and
final, a field or setter takes one parameter `value`, a mutator takes the
declared parameters and passes its own ones on in their order, and each
parameter has the declared type and default. -/
def Forwards (b : Builder) (a : Accessor) (m : Php.Method) : Prop :=
  m.name = a.methodName ∧ m.visibility = .publicAccess ∧ m.isFinal = true ∧ m.returns = none ∧
  match a with
  | .field p =>
    m.params = [⟨"value".toList, p.builderType b.known, none⟩] ∧
    m.body = fluentBody ("$this->entity->".toList ++ p.name ++ " = $value;".toList)
  | .setter d =>
    (∃ p q, d.params = [p] ∧ m.params = [q] ∧ b.Takes "value".toList p q) ∧
    m.body = fluentBody ("$this->entity->".toList ++ d.name ++ "($value);".toList)
  | .mutator d =>
    List.Forall₂ (fun p q => b.Takes p.name p q) d.params m.params ∧
    m.body = fluentBody ("$this->entity = $this->entity->".toList ++ d.name ++ ['('] ++
      Text.join [',', ' '] (m.params.map fun q => '$' :: q.name) ++ ");".toList)

theorem usableType_eq (p : ParameterDeclaration) : p.builderType = p.usableType := by
  unfold ParameterDeclaration.builderType ParameterDeclaration.usableType
  cases p.typeHint with
  | none => rfl
  | some ty => simp [TypeHint.wellFormed?, Option.filter]

theorem writesDefault_defaultText (b : Builder) (default : Option Default) :
    b.WritesDefault default (default.map b.defaultText) := by
  rcases default with _ | _ | v | c
  · exact .missing
  · exact .null
  · exact .value v
  · exact .constant (Name.constantForm_iff.2 rfl)

theorem takes_parameter (b : Builder) (p : ParameterDeclaration) : b.Takes p.name p (b.parameter p) where
  name := rfl
  type := by rw [parameter, usableType_eq]
  default := b.writesDefault_defaultText p.default

theorem name_method (b : Builder) (a : Accessor) : (b.method a).name = a.methodName := by
  cases a <;> rfl

theorem key_method (b : Builder) (a : Accessor) : (b.method a).key = a.key := by
  rw [Php.Method.key, name_method, Accessor.key]

/-- Every accessor is forwarded by the method that the builder makes of it. -/
theorem forwards_method (b : Builder) {a : Accessor} (ha : a ∈ b.entity.accessorsByKind) :
    b.Forwards a (b.method a) := by
  refine ⟨name_method b a, by cases a <;> rfl, by cases a <;> rfl, by cases a <;> rfl, ?_⟩
  cases a with
  | field p => exact ⟨rfl, rfl⟩
  | setter d =>
    refine ⟨?_, rfl⟩
    have hd := (Entity.mem_accessorsByKind_setter.1 ha).2
    obtain ⟨p, hp⟩ : ∃ p, d.params = [p] := by
      apply List.length_eq_one_iff.1
      simp only [MethodDeclaration.isSetter, Bool.and_eq_true, decide_eq_true_eq] at hd
      exact hd.2
    refine ⟨p, { b.parameter p with name := "value".toList }, hp, ?_, rfl, (b.takes_parameter p).type,
      (b.takes_parameter p).default⟩
    show (d.params.map fun p => { b.parameter p with name := "value".toList }) = _
    rw [hp, List.map_singleton]
  | mutator d =>
    have hparams : (b.method (.mutator d)).params = d.params.map b.parameter := rfl
    refine ⟨?_, ?_⟩
    · rw [hparams, List.forall₂_map_right_iff, List.forall₂_same]
      exact fun p _ => b.takes_parameter p
    · rw [hparams, List.map_map]
      show Text.lines _ = Text.lines _
      simp [Function.comp_def, parameter]

/-- Every parameter of a method that is made of an accessor is that of a field, or
stands for a declared one. -/
theorem Forwards.exists_takes {b : Builder} {a : Accessor} {m : Php.Method} (h : b.Forwards a m)
    {q : Php.Parameter} (hq : q ∈ m.params) :
    (∃ p, a = .field p ∧ q = ⟨"value".toList, p.builderType b.known, none⟩) ∨
      ∃ p ∈ a.declared, ∃ name, (name = "value".toList ∨ name = p.name) ∧ b.Takes name p q := by
  obtain ⟨-, -, -, -, hforwards⟩ := h
  cases a with
  | field p =>
    rw [hforwards.1, List.mem_singleton] at hq
    exact .inl ⟨p, rfl, hq⟩
  | setter d =>
    obtain ⟨⟨p, q', hp, hparams, htakes⟩, -⟩ := hforwards
    rw [hparams, List.mem_singleton] at hq
    have hdeclared : p ∈ d.params := hp ▸ List.mem_singleton_self p
    exact .inr ⟨p, hdeclared, _, .inl rfl, hq ▸ htakes⟩
  | mutator d =>
    obtain ⟨p, hp, htakes⟩ := (exists_mem_of_forall₂ hforwards.1).2 q hq
    exact .inr ⟨p, hp, _, .inr rfl, htakes⟩

/-! ## Names -/

/-- The name of every accessor begins with `with`. -/
theorem isPrefix_methodName {e : Entity} {a : Accessor} (ha : a ∈ e.accessorsByKind) :
    "with".toList <+: a.methodName := by
  cases a with
  | field p => exact List.prefix_append _ _
  | setter d => exact List.prefix_append _ _
  | mutator d =>
    have hd := (Entity.mem_accessorsByKind_mutator.1 ha).2
    simp only [MethodDeclaration.isMutator, Bool.and_eq_true] at hd
    exact List.isPrefixOf_iff_prefix.1 hd.1.2

theorem isPrefix_key {e : Entity} {a : Accessor} (ha : a ∈ e.accessorsByKind) :
    "with".toList <+: a.key := by
  obtain ⟨rest, hrest⟩ := isPrefix_methodName ha
  refine ⟨Text.fold rest, ?_⟩
  rw [Accessor.key, ← hrest, Text.fold_append]
  rfl

theorem key_ne_of_not_isPrefix {e : Entity} {a : Accessor} (ha : a ∈ e.accessorsByKind) {k : Text}
    (hk : "with".toList.isPrefixOf k = false) : a.key ≠ k := by
  intro h
  have := List.isPrefixOf_iff_prefix.2 (h ▸ isPrefix_key ha)
  rw [hk] at this
  cases this

/-! ## The class -/

theorem fields_toClass (b : Builder) : b.toClass.name = b.shortName ∧
    b.toClass.implements = [b.marker] ∧ b.toClass.properties = [⟨"entity".toList, .privateAccess⟩] :=
  Php.fields_addMethods _ _

theorem foldl_putMethod_cons {c : Php.Method} (ms : List Php.Method) :
    (∀ m ∈ ms, c.key ≠ m.key) → ∀ t, ms.foldl (fun t m => Php.putMethod m t) (c :: t) =
      c :: ms.foldl (fun t m => Php.putMethod m t) t := by
  induction ms with
  | nil => intro _ t; rfl
  | cons m ms ih =>
    intro h t
    have hput : Php.putMethod m (c :: t) = c :: Php.putMethod m t := by
      rw [Php.putMethod_eq, Php.putMethod_eq, putKeyed, if_neg (h m List.mem_cons_self)]
    rw [List.foldl_cons, hput, ih fun n hn => h n (List.mem_cons_of_mem _ hn)]
    rfl

/-- The methods of a builder's class are the constructor, the table of the
accessors' methods, and `build`. -/
theorem exists_isTable (b : Builder) : ∃ ms,
    b.toClass.methods = b.constructor :: (ms ++ [b.finisher]) ∧
    Php.IsTable (b.entity.accessorsByKind.map b.method) ms := by
  have hkey {k : Text} (hk : "with".toList.isPrefixOf k = false) {m : Php.Method}
      (hm : m ∈ b.entity.accessorsByKind.map b.method) : m.key ≠ k := by
    obtain ⟨a, ha, rfl⟩ := List.mem_map.1 hm
    rw [key_method]
    exact key_ne_of_not_isPrefix ha hk
  have htable := Php.isTable_foldl (b.entity.accessorsByKind.map b.method) Php.isTable_nil
  rw [List.nil_append] at htable
  refine ⟨_, ?_, htable⟩
  -- no accessor has the key of the constructor, so the constructor stays in front
  have hfirst : ∀ m ∈ b.entity.accessorsByKind.map b.method, b.constructor.key ≠ m.key :=
    fun m hm h => hkey (k := b.constructor.key) rfl hm h.symm
  -- nor has any method before it the key of `build`
  have hlast : b.finisher.key ∉ (b.constructor ::
      (b.entity.accessorsByKind.map b.method).foldl (fun t m => Php.putMethod m t) []).map
        Php.Method.key := by
    rw [List.map_cons, htable.keys, List.mem_cons, List.mem_eraseDups, not_or]
    have hne : b.finisher.key ≠ b.constructor.key := by
      show Text.fold "build".toList ≠ Text.fold "__construct".toList
      decide
    refine ⟨hne, fun h => ?_⟩
    obtain ⟨m, hm, h⟩ := List.mem_map.1 h
    exact hkey (k := b.finisher.key) rfl hm h
  calc b.toClass.methods
      = b.methods.foldl (fun t m => Php.putMethod m t) [] := Php.methods_addMethods _ _
    _ = Php.putMethod b.finisher ((b.entity.accessorsByKind.map b.method).foldl
          (fun t m => Php.putMethod m t) [b.constructor]) := by
        rw [methods, Entity.accessors_eq, List.foldl_cons, List.foldl_append]
        rfl
    _ = Php.putMethod b.finisher (b.constructor ::
          (b.entity.accessorsByKind.map b.method).foldl (fun t m => Php.putMethod m t) []) := by
        rw [foldl_putMethod_cons _ hfirst]
    _ = b.constructor ::
          ((b.entity.accessorsByKind.map b.method).foldl (fun t m => Php.putMethod m t) [] ++
            [b.finisher]) := by
        rw [Php.putMethod_eq, putKeyed_of_notMem hlast, List.cons_append]

/-- The last accessor of a name has its method in the class. -/
theorem method_mem_methods (b : Builder) {a : Accessor}
    (ha : IsLast Accessor.key a b.entity.accessorsByKind) : b.method a ∈ b.toClass.methods := by
  obtain ⟨ms, hmethods, htable⟩ := b.exists_isTable
  have hlast : IsLast (fun x => (b.method x).key) a b.entity.accessorsByKind := by
    simpa only [key_method] using ha
  rw [hmethods]
  exact List.mem_cons_of_mem _ (List.mem_append_left _ (htable.mem hlast.map))

/-- A builder's class has the constructor, then one method for each folded
accessor name in the order in which the names first come, made from the last
accessor of that name, then `build`, and no two methods of one key. -/
theorem shape_toClass (b : Builder) : ∃ ms,
    b.toClass.methods = b.constructor :: (ms ++ [b.finisher]) ∧
    b.constructor.name = "__construct".toList ∧ b.finisher.name = "build".toList ∧
    (b.toClass.methods.map Php.Method.key).Nodup ∧
    ms.map Php.Method.key = (b.entity.accessorsByKind.map Accessor.key).eraseDups ∧
    ∀ m ∈ ms, ∃ a, IsLast Accessor.key a b.entity.accessorsByKind ∧ b.Forwards a m := by
  obtain ⟨ms, hmethods, htable⟩ := b.exists_isTable
  refine ⟨ms, hmethods, rfl, rfl, (Php.isTable_addMethods rfl b.methods).nodup, ?_, ?_⟩
  · rw [htable.keys, List.map_map]
    simp only [Function.comp_def, key_method]
  · intro m hm
    obtain ⟨a, rfl, ha⟩ := (htable.last m hm).exists_of_map
    simp only [key_method] at ha
    exact ⟨a, ha, b.forwards_method ha.mem⟩

end Builder
end BuilderForge
