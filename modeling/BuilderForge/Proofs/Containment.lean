import BuilderForge.Proofs.HarmlessPage
import BuilderForge.Proofs.Literals
import BuilderForge.Proofs.ParameterTypes
/-
  The strings of a manifest stay where the page puts them.

  Every string of a valid manifest that reaches a page is a name, an
  alternative of a type, or the content of a default. Names and alternatives
  are plain because they are checked, or because they come from the known
  types, which are; defaults are literals. Hence the class of a builder is
  harmless (`harmless_toClass`), and its page has the literals, lines and braces
  of the layout and no others: `isContained_page`.
-/

namespace BuilderForge

open Php (Balanced Flat Harmless Plain)

/-! ## Names and types -/

theorem plain_of_isPath {t : Text} (h : Name.isPath t) : Plain t := fun _ hc =>
  Php.isPlain_of_isNameChar (Name.isNameChar_of_mem h hc)

theorem plain_of_isLabel {t : Text} (h : Name.isLabel t) : Plain t :=
  plain_of_isPath (Name.isPath_of_isLabel h)

theorem plain_of_stripSeparator {t : Text} (h : Plain (Name.stripSeparator t)) : Plain t := by
  rcases Name.stripSeparator_cases t with ht | ht
  · rwa [ht] at h
  · rw [ht]
    exact Plain.append (s := [Name.separator]) (by decide) h

theorem plain_capitalize {t : Text} (h : Name.isLabel t) : Plain (Text.capitalize t) := by
  cases t with
  | nil => cases h
  | cons c t =>
    have hupper : Name.isLabelChar c.toUpper := by
      have hc := Name.isLabelChar_of_mem h List.mem_cons_self
      rw [Name.isLabelChar_iff] at hc ⊢
      rw [Text.toNat_toUpper]
      split <;> omega
    intro d hd
    rcases List.mem_cons.1 hd with rfl | hd
    · exact Php.isPlain_of_isNameChar (by rw [Name.isNameChar, hupper, Bool.true_or])
    · exact plain_of_isLabel h d (List.mem_cons_of_mem _ hd)

theorem TypeHint.isPlain_of_isTypeList {ty : TypeHint} (h : Name.isTypeList ty.name) : ty.IsPlain :=
  fun part hpart => plain_of_stripSeparator (plain_of_isPath (List.all_eq_true.1 h part hpart))

theorem TypeHint.isPlain_of_plain {ty : TypeHint} (h : Plain ty.name) : ty.IsPlain :=
  fun part hpart c hc => h c (Text.mem_of_mem_pieces part hpart c (Text.mem_of_mem_trim hc)).1

theorem plain_lines {t : Text} (h : ∀ c ∈ t, c = '\n' ∨ Php.isPlain c) :
    ∀ line ∈ Text.lines t, Plain line := by
  intro line hline c hc
  obtain ⟨hmem, hne⟩ := Text.mem_of_mem_lines line hline c hc
  exact (h c hmem).resolve_left hne

namespace Builder

/-! ## The class -/

theorem plain_fluentBody {statement : Text} (h : Plain statement) :
    ∀ line ∈ fluentBody statement, Plain line := by
  refine plain_lines fun c hc => ?_
  have hend : Plain "return $this;".toList := by decide
  rcases List.mem_append.1 hc with hc | hc
  · exact .inr (h c hc)
  rcases List.mem_cons.1 hc with rfl | hc
  · exact .inl rfl
  rcases List.mem_cons.1 hc with rfl | hc
  · exact .inl rfl
  · exact .inr (hend c hc)

variable {b : Builder} (hb : b.IsWellFormed)
include hb

theorem IsWellFormed.plain_shortName : Plain b.entity.shortName :=
  plain_of_isLabel (Name.isLabel_short hb.entity)

theorem IsWellFormed.plain_entityReference : Plain b.entityReference :=
  Plain.append (s := [Name.separator]) (by decide) (plain_of_isPath hb.entity)

theorem harmless_of_writesDefault {p : ParameterDeclaration} (hp : p.IsWellFormed) {code : Text}
    (h : b.WritesDefault p.default (some code)) : Harmless code := by
  generalize hdefault : p.default = default at h
  cases h with
  | null => exact .of_plain (by decide)
  | value v => exact v.harmless_literal
  | constant hname =>
    have hlabel := hp.default _ hdefault
    rw [Name.constantForm_iff.1 hname] at hlabel
    exact .of_plain ((hb.plain_shortName.append (by decide)).append (plain_of_isLabel hlabel))

theorem isHarmless_of_takes {p : ParameterDeclaration} (hp : p.IsWellFormed) {name : Text}
    (hname : Plain name) {q : Php.Parameter} (h : b.Takes name p q) : q.IsHarmless where
  name := h.name ▸ hname
  type _ hty := TypeHint.isPlain_of_isTypeList
    (ParameterDeclaration.isTypeList_of_usableType (h.type.symm.trans hty))
  default _ hcode := harmless_of_writesDefault hb hp (hcode ▸ h.default)

theorem harmless_constructor : b.constructor.IsHarmless := by
  refine ⟨show Plain "__construct".toList by decide, ?_, ?_, ?_⟩
  · intro p hp
    cases hp
  · intro ty hty
    cases hty
  have hstatement : Plain ("$this->entity = new ".toList ++ b.entityReference ++ [';']) :=
    (Plain.append (by decide) hb.plain_entityReference).append (by decide)
  exact plain_lines fun c hc => .inr (hstatement c hc)

theorem harmless_finisher : b.finisher.IsHarmless := by
  refine ⟨show Plain "build".toList by decide, ?_, ?_, ?_⟩
  · intro p hp
    cases hp
  · intro ty hty
    cases hty
    exact TypeHint.isPlain_of_plain hb.plain_entityReference
  · have hstatement : Plain "return $this->entity;".toList := by decide
    exact plain_lines fun c hc => .inr (hstatement c hc)

theorem plain_methodName {a : Accessor} (ha : a ∈ b.entity.accessorsByKind) : Plain a.methodName := by
  have hwith : Plain "with".toList := by decide
  cases a with
  | field p =>
    have hp := hb.property p (Entity.mem_accessorsByKind_field.1 ha).1
    exact hwith.append (plain_capitalize hp)
  | setter d =>
    have hd := plain_of_isLabel (hb.method d (Entity.mem_accessorsByKind_setter.1 ha).1)
    exact hwith.append fun c hc => hd c (List.mem_of_mem_drop hc)
  | mutator d => exact plain_of_isLabel (hb.method d (Entity.mem_accessorsByKind_mutator.1 ha).1)

omit hb in
theorem plain_arguments {params : List Php.Parameter} (h : ∀ q ∈ params, q.IsHarmless) :
    Plain (Text.join [',', ' '] (params.map fun q => '$' :: q.name)) := by
  refine Plain.join (by decide) fun t ht => ?_
  obtain ⟨q, hq, rfl⟩ := List.mem_map.1 ht
  exact Plain.append (s := ['$']) (by decide) (h q hq).name

/-- The parameters and the body of a method that is made of an accessor. -/
theorem harmless_of_forwards {a : Accessor} (ha : a ∈ b.entity.accessorsByKind) {m : Php.Method}
    (h : b.Forwards a m) : m.IsHarmless := by
  have hvalue : Plain "value".toList := by decide
  have hthis : Plain "$this->entity->".toList := by decide
  have hparams : ∀ q ∈ m.params, q.IsHarmless := by
    intro q hq
    rcases h.exists_takes hq with ⟨p, rfl, rfl⟩ | ⟨p, hp, name, hname, htakes⟩
    · refine ⟨hvalue, fun ty hty => ?_, fun code hcode => by cases hcode⟩
      exact TypeHint.isPlain_of_isTypeList (PropertyDeclaration.isTypeList_of_builderType hb.known hty)
    · have hwf := hb.isWellFormed_of_declared ha hp
      refine isHarmless_of_takes hb hwf ?_ htakes
      rcases hname with rfl | rfl
      · exact hvalue
      · exact plain_of_isLabel hwf.name
  obtain ⟨hname, -, -, hreturns, hforwards⟩ := h
  have hbody : ∀ line ∈ m.body, Plain line := by
    cases a with
    | field p =>
      have hp := plain_of_isLabel (hb.property p (Entity.mem_accessorsByKind_field.1 ha).1)
      rw [hforwards.2]
      exact plain_fluentBody ((hthis.append hp).append (by decide))
    | setter d =>
      have hd := plain_of_isLabel (hb.method d (Entity.mem_accessorsByKind_setter.1 ha).1)
      rw [hforwards.2]
      exact plain_fluentBody ((hthis.append hd).append (by decide))
    | mutator d =>
      -- the names of the parameters come back as arguments
      have hd := plain_of_isLabel (hb.method d (Entity.mem_accessorsByKind_mutator.1 ha).1)
      have hcall : Plain ("$this->entity = $this->entity->".toList ++ d.name) :=
        Plain.append (by decide) hd
      rw [hforwards.2]
      refine plain_fluentBody ?_
      exact ((hcall.append (by decide)).append (plain_arguments hparams)).append (by decide)
  refine ⟨?_, hparams, ?_, hbody⟩
  · rw [hname]
    exact plain_methodName hb ha
  · rw [hreturns]
    intro ty hty
    cases hty

/-- The class of a well-formed builder can be printed without harm. -/
theorem harmless_toClass : b.toClass.IsHarmless := by
  obtain ⟨hname, himplements, hproperties⟩ := b.fields_toClass
  refine ⟨?_, ?_, ?_, fun m hm => ?_⟩
  · rw [hname]
    exact hb.plain_shortName.append (by decide)
  · rw [himplements, List.forall_mem_singleton]
    exact plain_of_stripSeparator (plain_of_isPath hb.marker)
  · rw [hproperties, List.forall_mem_singleton]
    decide
  · rcases forwards_of_mem hm with rfl | rfl | ⟨a, ha, hforwards⟩
    · exact harmless_constructor hb
    · exact harmless_finisher hb
    · exact harmless_of_forwards hb ha hforwards

theorem plain_toNamespace : b.toNamespace.IsPlain := by
  have hscope : Plain b.entity.scope := by
    rcases hb.isPath_scope with h | h
    · rw [h]
      decide
    · exact plain_of_isPath h
  rw [hb.toNamespace_eq]
  refine ⟨hscope, fun i hi => ?_⟩
  dsimp only at hi
  split at hi
  · cases hi
  · rename_i hne
    rw [List.mem_singleton.1 hi]
    have hpath : Name.isPath (Name.stripSeparator b.entity.scope) := by
      have h := hb.isPath_scope.resolve_left hne
      rwa [Name.stripSeparator_of_isPath h]
    exact ⟨plain_of_isLabel (Name.isLabel_short hpath), hscope⟩

end Builder

/-! ## The page -/

/-- A line without the tabs that the style indents it with. -/
def Style.unindented : Style → Text → Text
  | .psr, line => line
  | .nette, line => line.dropWhile fun c => c = '\t'

/-- What a page of a class with `m` methods is made of: literals that end on
their lines, and outside them no quote and the braces of the class and of its
methods; lines without control characters; and at the end the brace of the
class on a line of its own. -/
structure IsContained (style : Style) (m : Nat) (page : Text) : Prop where
  code : ∃ rest, Php.outside .code page = some rest ∧ '\'' ∉ rest ∧ '"' ∉ rest ∧
    rest.count '\x7b' = 1 + m ∧ rest.count '\x7d' = 1 + m ∧ Php.depthAfter 2 0 rest = some 0
  lines : ∀ line ∈ Text.pieces '\n' page, ∀ c ∈ style.unindented line, Php.isControl c = false
  ending : "\n\x7d\n".toList <:+ page

theorem Style.flat_unit (style : Style) : Flat style.layout.indentation.unit := by
  have hspace : Flat [' '] := Php.flat_singleton (by decide) (by decide)
  have htab : Flat ['\t'] := Php.flat_singleton (by decide) (by decide)
  cases style with
  | psr => exact ((hspace.append hspace).append hspace).append hspace
  | nette => exact htab

theorem dropWhile_tabs (depth : Nat) (t : Text) :
    ((List.replicate depth ['\t']).flatten ++ t).dropWhile (fun c => c = '\t') =
      t.dropWhile fun c => c = '\t' := by
  induction depth with
  | zero => rfl
  | succ depth ih =>
    rw [List.replicate_succ, List.flatten_cons, List.append_assoc, List.singleton_append,
      List.dropWhile_cons_of_pos (by simp), ih]

/-- The indentation of a row is all that is not in its text. -/
theorem Style.clean_unindented {style : Style} {r : Code.Row}
    (hr : ∀ c ∈ r.text, Php.isControl c = false) :
    ∀ c ∈ style.unindented (r.line style.layout.indentation.unit), Php.isControl c = false := by
  cases style with
  | psr =>
    intro c hc
    rcases List.mem_append.1 hc with hc | hc
    · obtain ⟨u, hu, hc⟩ := List.mem_flatten.1 hc
      rw [List.eq_of_mem_replicate hu] at hc
      have hspace : Php.Plain Style.psr.layout.indentation.unit := by decide
      exact (Php.Harmless.of_plain hspace).clean c hc
    · exact hr c hc
  | nette =>
    -- the tabs of the margin go, and those of the row with them
    intro c hc
    have hdrop : Style.nette.unindented (r.line Style.nette.layout.indentation.unit) =
        r.text.dropWhile fun c => c = '\t' := dropWhile_tabs r.depth r.text
    rw [hdrop] at hc
    exact hr c ((List.dropWhile_sublist _).mem hc)

namespace Builder

/-- The rows of a well-formed builder's page. They have no control characters,
so the lines of the page are the rows. -/
theorem IsWellFormed.rows_page {b : Builder} (hb : b.IsWellFormed) (style : Style) :
    ∃ interfaces methods, [b.marker].mapM b.toNamespace.shorten = some interfaces ∧
      b.toNamespace.methodsCode style.layout.spacing (b.toClass.properties = []) b.toClass.methods =
        some methods ∧
      b.page style.layout = Code.printRows style.layout.indentation.unit
        (b.toNamespace.pageRows b.toClass interfaces methods) ∧
      Php.IsNested style.layout.indentation.unit (b.toClass.methods.length + 1) 2
        (b.toNamespace.pageRows b.toClass interfaces methods) ∧
      Text.pieces '\n' (b.page style.layout) =
        (b.toNamespace.pageRows b.toClass interfaces methods).map
          (Code.Row.line style.layout.indentation.unit) ++ [[]] := by
  have hclasses : b.toNamespace.classes = [b.toClass] := by rw [hb.toNamespace_eq]
  have hpage : b.toNamespace.page style.layout = some (b.page style.layout) :=
    (Option.some_get _).symm
  obtain ⟨interfaces, methods, hinterfaces, hmethods, hrows⟩ :=
    Php.Namespace.page_eq_some hclasses hpage
  have hnested := Php.Namespace.isNested_pageRows (plain_toNamespace hb) (harmless_toClass hb)
    hinterfaces hmethods style.flat_unit
  rw [b.fields_toClass.2.1] at hinterfaces
  -- neither a row nor its indentation has a line end
  have hlineEnd : ∀ r ∈ b.toNamespace.pageRows b.toClass interfaces methods, '\n' ∉ r.text := by
    intro r hr hc
    have hcontrol := hnested.clean r hr '\n' hc
    cases hcontrol
  have hunit : '\n' ∉ style.layout.indentation.unit := by cases style <;> decide
  refine ⟨interfaces, methods, hinterfaces, hmethods, hrows, hnested, ?_⟩
  rw [hrows]
  exact Code.pieces_printRows hunit hlineEnd

end Builder

/-- The page of every entity that gets one has the structure of its class,
whatever strings an accepted manifest holds. -/
theorem isContained_page {format : Document.Format} {name source : Text} {m : Manifest}
    (hm : Manifest.ofSource format name source = .ok m) {e : Entity} (he : e ∈ m.entities)
    (hwanted : (m.builder e).isWanted) (style : Style) :
    ∃ page, (m.builder e).page? style.layout = some page ∧
      IsContained style (m.builder e).toClass.methods.length page := by
  have hb := Manifest.isWellFormed_builder (Manifest.isValid_of_ofSource hm) he
  obtain ⟨interfaces, methods, -, -, hrows, hnested, hlines⟩ := hb.rows_page style
  refine ⟨(m.builder e).page style.layout, by rw [Builder.page?, if_pos hwanted], ?_, ?_, ?_⟩
  · obtain ⟨rest, hrest, hopen, hclose, hdepth⟩ := hnested.balanced
    rw [← hrows] at hrest
    have hquote := Php.not_quote_of_outside hrest
    refine ⟨rest, hrest, fun hc => ?_, fun hc => ?_, by omega, by omega, hdepth 2 0 (by omega)⟩
    · exact (hquote _ hc).1 rfl
    · exact (hquote _ hc).2 rfl
  · rw [hlines]
    intro line hline
    rcases List.mem_append.1 hline with hline | hline
    · obtain ⟨r, hr, rfl⟩ := List.mem_map.1 hline
      exact Style.clean_unindented (hnested.clean r hr)
    · rw [List.mem_singleton.1 hline]
      intro c hc
      cases style <;> cases hc
  · rw [hrows, Php.Namespace.pageRows, List.append_cons, ← List.cons_append, ← List.append_assoc]
    exact Code.suffix_printRows_concat (by simp) ['\x7d']

/-- A manifest whose default is made of quotes, braces and a line end. -/
def hostileSource : Text :=
  ("\x7b\"entities\": [\x7b\"name\": \"App\\\\Foo\", \"methods\": [\x7b\"name\": \"setBar\", \"params\": " ++
    "[\x7b\"name\": \"bar\", \"default\": \x7b\"value\": \"it's \x7d \\\" $x \\n\"\x7d\x7d]\x7d]\x7d]\x7d").toList

theorem isContained_page_hostileSource : ∃ m e,
    Manifest.ofSource .json "builders.json".toList hostileSource = .ok m ∧ e ∈ m.entities ∧
    (m.builder e).isWanted ∧ ∃ page, (m.builder e).page? Style.nette.layout = some page ∧
      IsContained .nette (m.builder e).toClass.methods.length page := by
  have haccepted : (match Manifest.ofSource .json "builders.json".toList hostileSource with
      | .ok m => m.entities.any fun e => (m.builder e).isWanted
      | .error _ => false) = true := by decide +kernel
  cases hm : Manifest.ofSource .json "builders.json".toList hostileSource with
  | error r =>
    rw [hm] at haccepted
    cases haccepted
  | ok m =>
    rw [hm] at haccepted
    obtain ⟨e, he, hwanted⟩ := List.any_eq_true.1 haccepted
    exact ⟨m, e, rfl, he, hwanted, isContained_page hm he hwanted .nette⟩

end BuilderForge
