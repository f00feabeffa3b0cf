import BuilderForge.Proofs.LineSplits
import BuilderForge.Proofs.Resolution
import BuilderForge.Proofs.Totality
/-
  The entity on the page of its builder.

  A page names the entity twice: behind `new` in the constructor, and as the type
  that `build` answers. The first name is found by a scan of the line, which ends
  a name where no character of names follows (`cutName_append`). The second one is
  an alternative of a type, and blanks around an alternative do not belong to it.
  But every character outside ASCII is a letter, also those that are blanks. So
  the constructor makes an instance of the entity whatever it is called, and
  `build` promises the entity exactly if its name does not end in a blank:
  `answers_entity_iff`.
-/

namespace BuilderForge

namespace Php

namespace Namespace

variable {ns : Namespace}

/-- A line without literals and names stays as it is. -/
theorem shortenLine_of_inert {line : Text} (h : line.all isInert) : ns.shortenLine line = some line := by
  have hparts : (cutPieces false line).mapM (Piece.shorten ns) = some (line.map fun c => [c]) := by
    rw [mapM_eq_some_iff, cutPieces_of_inert h]
    simp [Piece.shorten]
  rw [shortenLine, hparts, Option.map_some, ← List.flatMap_def, List.flatMap_singleton']

/-- In a line without literals the one name that is written in full is shortened. -/
theorem shortenLine_name {before name after short : Text} (hbefore : before.all isInert)
    (hgap : before.getLast?.all fun c => !Name.isLabelChar c) (hname : Name.isPath name)
    (hafter : after.all isInert) (hend : after.head?.all fun c => !Name.isNameChar c)
    (hshort : ns.shorten (Name.separator :: name) = some short) :
    ns.shortenLine (before ++ Name.separator :: (name ++ after)) = some (before ++ short ++ after) := by
  have hflag : (before.getLast?.map Name.isLabelChar).getD false = false := by
    cases hlast : before.getLast? with
    | none => rfl
    | some c => simpa [hlast] using hgap
  have hnext : continuesName after = false := by
    cases after with
    | nil => rfl
    | cons c after =>
      rw [List.head?_cons, Option.all_some, Bool.not_eq_true', Name.isNameChar,
        Bool.or_eq_false_iff] at hend
      rw [continuesName, hend.1, hend.2]
      rfl
  have hquote : ¬ (Name.separator = '\'' ∨ Name.separator = '"') := by decide
  have hstart : startsLabel (name ++ after) := startsLabel_append (startsLabel_of_isPath hname) after
  have hpieces : cutPieces false (before ++ Name.separator :: (name ++ after)) =
      before.map .other ++ .name (Name.separator :: name) :: after.map .other := by
    rw [cutPieces_inert hbefore, hflag, cutPieces, if_neg hquote, if_pos (by simp [hstart]),
      cutName_append hname hnext, cutPieces_of_inert hafter]
  have hparts : (cutPieces false (before ++ Name.separator :: (name ++ after))).mapM (Piece.shorten ns) =
      some (before.map (fun c => [c]) ++ short :: after.map (fun c => [c])) := by
    rw [mapM_eq_some_iff, hpieces]
    simp [Piece.shorten, hshort, Function.comp_def]
  rw [shortenLine, hparts, Option.map_some, List.flatten_append, List.flatten_cons,
    ← List.flatMap_def, ← List.flatMap_def, List.flatMap_singleton', List.flatMap_singleton',
    List.append_assoc]

/-- A line of a body is written with its names shortened, unless it is blank. -/
theorem mapM_bodyLine_singleton {line short : Text} {c : Char} (hc : c ∈ line)
    (hblank : Text.isBlank c = false) (hshort : ns.shortenLine line = some short) :
    [line].mapM ns.bodyLine = some [.line short] := by
  have hne : Text.trim line ≠ [] := by
    intro hnil
    have hmem := Text.mem_trim hc hblank
    rw [hnil] at hmem
    cases hmem
  rw [mapM_eq_some_iff, List.map_singleton, bodyLine, if_neg hne, hshort]
  rfl

end Namespace

end Php

open Php (Header)

/-- Whether the name of an entity ends in a blank. -/
def Entity.EndsInBlank (e : Entity) : Prop :=
  ∃ c ∈ e.qualifiedName.getLast?, Text.isBlank c = true

/-- Whether the page of a builder has a constructor that makes an instance of
the class `name`. -/
def MakesInstance (style : Style) (page name : Text) : Prop :=
  ([⟨1, "public function __construct()".toList⟩, ⟨1, ['\x7b']⟩,
    ⟨2, "$this->entity = new ".toList ++ name ++ [';']⟩, ⟨1, ['\x7d']⟩] : List Code.Row).map
      (Code.Row.line style.layout.indentation.unit) <:+: Text.pieces '\n' page

/-- Whether the page of a builder has a method `build` that answers the
instance as one of the class `type`. -/
def AnswersInstance (style : Style) (page type : Text) : Prop :=
  ([⟨1, "final public function build(): ".toList ++ type⟩, ⟨1, ['\x7b']⟩,
    ⟨2, "return $this->entity;".toList⟩, ⟨1, ['\x7d']⟩] : List Code.Row).map
      (Code.Row.line style.layout.indentation.unit) <:+: Text.pieces '\n' page

namespace Builder

variable {b : Builder}

theorem constructor_mem_methods (b : Builder) : b.constructor ∈ b.toClass.methods := by
  obtain ⟨ms, hmethods, -⟩ := b.exists_isTable
  rw [hmethods]
  exact List.mem_cons_self

theorem finisher_mem_methods (b : Builder) : b.finisher ∈ b.toClass.methods := by
  obtain ⟨ms, hmethods, -⟩ := b.exists_isTable
  rw [hmethods]
  exact List.mem_cons_of_mem _ (List.mem_append_right _ List.mem_cons_self)

theorem isTypeKeyword_cons_separator (t : Text) : Name.isTypeKeyword (Name.separator :: t) = false := by
  cases hk : Name.isTypeKeyword (Name.separator :: t) with
  | false => rfl
  | true =>
    have hpath := Name.isPath_of_isTypeKeyword hk
    rw [Name.not_isPath_cons_separator] at hpath
    cases hpath

variable (hb : b.IsWellFormed)
include hb

/-- The lines of a method, given its parts as they are written, stand together on the page. -/
theorem IsWellFormed.infix_method (style : Style) {m : Php.Method} (hm : m ∈ b.toClass.methods)
    {params : List Text} {returns : Text} {body : List Code.Fragment}
    (hparams : m.params.mapM b.toNamespace.parameterText = some params)
    (hreturns : b.toNamespace.returnText m = some returns)
    (hbody : m.body.mapM b.toNamespace.bodyLine = some body) :
    (Php.Namespace.headRows 1 (Php.Namespace.methodHead m) params returns ++
      Code.Row.mk 1 (Php.Namespace.beforeBody params returns ++ ['\x7b']) ::
        (Code.Fragment.rowsAll 2 body ++ [Code.Row.mk 1 ['\x7d']])).map
      (Code.Row.line style.layout.indentation.unit) <:+: Text.pieces '\n' (b.page style.layout) := by
  obtain ⟨code, hcode, hinfix⟩ := hb.infix_methodRows style hm
  obtain ⟨params', returns', body', hparams', hreturns', hbody', hrows⟩ :=
    Php.Namespace.rowsAll_methodCode hcode 1
  cases hparams.symm.trans hparams'
  cases hreturns.symm.trans hreturns'
  cases hbody.symm.trans hbody'
  rwa [hrows] at hinfix

/-! ## The constructor -/

theorem IsWellFormed.body_constructor : b.constructor.body =
    ["$this->entity = new ".toList ++ Name.separator :: (b.entity.qualifiedName ++ [';'])] := by
  have hlineEnd : '\n' ∉ "$this->entity = new ".toList ++
      Name.separator :: (b.entity.qualifiedName ++ [';']) := by
    intro hc
    rcases List.mem_append.1 hc with hc | hc
    · exact absurd hc (by decide)
    rcases List.mem_cons.1 hc with hc | hc
    · exact absurd hc (by decide)
    rcases List.mem_append.1 hc with hc | hc
    · exact absurd (Name.isNameChar_of_mem hb.entity hc) (by decide)
    · exact absurd hc (by decide)
  have hlines := Text.lines_of_notMem (by simp) hlineEnd
  show [] ++ Text.lines ("$this->entity = new ".toList ++ b.entityReference ++ [';']) = _
  rw [List.nil_append, ← hlines, entityReference, List.append_assoc, List.cons_append]

/-- The constructor makes an instance of what the short form of the entity's name means. -/
theorem IsWellFormed.makesInstance (style : Style) {made : Text}
    (hmade : b.toNamespace.shorten b.entityReference = some made) :
    MakesInstance style (b.page style.layout) made := by
  have hline : b.toNamespace.shortenLine ("$this->entity = new ".toList ++
      Name.separator :: (b.entity.qualifiedName ++ [';'])) =
        some ("$this->entity = new ".toList ++ made ++ [';']) :=
    Php.Namespace.shortenLine_name (by decide) (by decide) hb.entity (by decide) (by decide) hmade
  have hparams : b.constructor.params.mapM b.toNamespace.parameterText = some [] := rfl
  have hreturns : b.toNamespace.returnText b.constructor = some [] := rfl
  have hbody : b.constructor.body.mapM b.toNamespace.bodyLine =
      some [.line ("$this->entity = new ".toList ++ made ++ [';'])] := by
    rw [hb.body_constructor]
    exact Php.Namespace.mapM_bodyLine_singleton (c := '$') (List.mem_append_left _ (by decide))
      (by decide) hline
  exact hb.infix_method style b.constructor_mem_methods hparams hreturns hbody

/-! ## The type of `build` -/

/-- `build` answers what the short form of the entity's name means, after that
name was trimmed. -/
theorem IsWellFormed.answersInstance (style : Style) {answered : Text}
    (hanswered : b.toNamespace.shorten (Text.trim b.entityReference) = some answered) :
    AnswersInstance style (b.page style.layout) answered := by
  have hbar : '|' ∉ b.entityReference := fun hc =>
    absurd (Name.isNameChar_of_mem_name (t := b.entityReference) hb.entity hc) (by decide)
  have hparts : [b.entityReference].mapM (fun part => b.toNamespace.shorten (Text.trim part)) =
      some [answered] := by
    rw [Php.mapM_eq_some_iff, List.map_singleton, hanswered]
    rfl
  have hreturns : b.toNamespace.returnText b.finisher = some (':' :: ' ' :: answered) := by
    show (b.toNamespace.typeText ⟨b.entityReference, false⟩).map _ = _
    rw [Php.Namespace.typeText, Text.pieces_of_not_mem hbar, hparts, Option.map_some, Option.map_some]
    simp [Text.join_singleton]
  have hbody : b.finisher.body.mapM b.toNamespace.bodyLine =
      some [.line "return $this->entity;".toList] := by
    have hline : b.toNamespace.shortenLine "return $this->entity;".toList =
        some "return $this->entity;".toList := Php.Namespace.shortenLine_of_inert (by decide)
    exact Php.Namespace.mapM_bodyLine_singleton (c := '$') (by decide) (by decide) hline
  have hparams : b.finisher.params.mapM b.toNamespace.parameterText = some [] := rfl
  exact hb.infix_method style b.finisher_mem_methods hparams hreturns hbody

omit hb in
theorem trim_entityReference (b : Builder) :
    Text.trim b.entityReference = Name.separator :: Text.trimEnd b.entity.qualifiedName :=
  Text.trim_cons (by decide) _

/-- What is left of the entity's name has no separator in front. -/
theorem IsWellFormed.start_trimEnd :
    [Name.separator].isPrefixOf (Text.trimEnd b.entity.qualifiedName) = false := by
  have hstart := Header.isPrefixOf_separator_of_isPath hb.entity
  rw [← Bool.not_eq_true, List.isPrefixOf_iff_prefix] at hstart ⊢
  exact fun h => hstart (h.trans (Text.trimEnd_prefix _))

omit hb in
/-- Trimming changes the name of an entity exactly if it ends in a blank. -/
theorem fold_trimEnd_iff {e : Entity} :
    Text.fold (Text.trimEnd e.qualifiedName) = Text.fold e.qualifiedName ↔ ¬ e.EndsInBlank := by
  have hself : Text.fold (Text.trimEnd e.qualifiedName) = Text.fold e.qualifiedName ↔
      Text.trimEnd e.qualifiedName = e.qualifiedName := by
    refine ⟨fun h => ?_, fun h => by rw [h]⟩
    have hlength := congrArg List.length h
    rw [Text.fold, Text.fold, List.length_map, List.length_map] at hlength
    exact (Text.trimEnd_prefix _).eq_of_length hlength
  rw [hself, Text.trimEnd_eq_self_iff, Entity.EndsInBlank]
  simp

end Builder

/-- On the page of every entity of a valid manifest that gets one, the
constructor makes an instance of the entity. `build` answers the class whose
name is the entity's without the blanks at its end, up to the case of A to Z;
this is the entity exactly if its name does not end in a blank. -/
theorem answers_entity_iff {m : Manifest} (hm : m.isValid) {e : Entity} (he : e ∈ m.entities)
    (hwanted : (m.builder e).isWanted) (style : Style) :
    ∃ page made answered, (m.builder e).page? style.layout = some page ∧
      MakesInstance style page made ∧ AnswersInstance style page answered ∧
      Text.sameFolded ((Header.ofPage page).resolve made) e.qualifiedName ∧
      Text.sameFolded ((Header.ofPage page).resolve answered) (Text.trimEnd e.qualifiedName) ∧
      (Text.sameFolded ((Header.ofPage page).resolve answered) e.qualifiedName ↔ ¬ e.EndsInBlank) := by
  have hb := Manifest.isWellFormed_builder hm he
  have hcovered := (m.builder e).isCovered_toNamespace
  obtain ⟨made, hmade⟩ := Option.isSome_iff_exists.1
    (Php.Namespace.isSome_shorten hcovered (m.builder e).entityReference)
  obtain ⟨answered, hanswered⟩ := Option.isSome_iff_exists.1
    (Php.Namespace.isSome_shorten hcovered (Text.trim (m.builder e).entityReference))
  have hmakes := hb.makesInstance style hmade
  have hanswers := hb.answersInstance style hanswered
  have hpath : Name.isPath (Name.stripSeparator (m.builder e).entityReference) := hb.entity
  have hmeans := hb.fold_resolve hpath (Builder.isTypeKeyword_cons_separator _) hmade
  have htrimmed : Text.fold ((m.builder e).header.resolve answered) =
      Text.fold (Text.trimEnd e.qualifiedName) := by
    rw [Builder.trim_entityReference] at hanswered
    have hstart : [Name.separator].isPrefixOf (Name.stripSeparator
        (Name.separator :: Text.trimEnd (m.builder e).entity.qualifiedName)) = false := hb.start_trimEnd
    exact hb.fold_resolve_of_start (List.cons_ne_nil _ _) hstart
      (Builder.isTypeKeyword_cons_separator _) hanswered
  refine ⟨_, made, answered, by rw [Builder.page?, if_pos hwanted], hmakes, hanswers, ?_⟩
  rw [hb.header_page style, Text.sameFolded_iff, Text.sameFolded_iff, Text.sameFolded_iff, htrimmed]
  exact ⟨hmeans, rfl, Builder.fold_trimEnd_iff⟩

/-- The manifest of one entity without members. -/
def bareManifest (name : Text) : Manifest := ⟨Settings.default, [⟨name, [], []⟩]⟩

theorem answers_entity_iff_bare : (bareManifest "Über\\Größe".toList).isValid ∧
    ⟨"Über\\Größe".toList, [], []⟩ ∈ (bareManifest "Über\\Größe".toList).entities ∧
    ((bareManifest "Über\\Größe".toList).builder ⟨"Über\\Größe".toList, [], []⟩).isWanted ∧
    ∃ page made answered, ((bareManifest "Über\\Größe".toList).builder
        ⟨"Über\\Größe".toList, [], []⟩).page? Style.nette.layout = some page ∧
      MakesInstance .nette page made ∧ AnswersInstance .nette page answered ∧
      Text.sameFolded ((Header.ofPage page).resolve made) "Über\\Größe".toList ∧
      Text.sameFolded ((Header.ofPage page).resolve answered) "Über\\Größe".toList := by
  have hvalid : (bareManifest "Über\\Größe".toList).isValid := by decide
  have hmem : ⟨"Über\\Größe".toList, [], []⟩ ∈ (bareManifest "Über\\Größe".toList).entities :=
    List.mem_singleton_self _
  have hwanted : ((bareManifest "Über\\Größe".toList).builder
      ⟨"Über\\Größe".toList, [], []⟩).isWanted := by decide
  obtain ⟨page, made, answered, hpage, hmakes, hanswers, hmade, -, hiff⟩ :=
    answers_entity_iff hvalid hmem hwanted .nette
  refine ⟨hvalid, hmem, hwanted, page, made, answered, hpage, hmakes, hanswers, hmade, hiff.2 ?_⟩
  intro h
  obtain ⟨c, hc, hblank⟩ := h
  cases hc
  exact absurd hblank (by decide)

/-- An entity whose name ends in a no-break space, which is a letter and a blank. -/
def spaced : Entity := ⟨"App\\Foo\u00a0".toList, [], []⟩

/-- `build` does not answer this entity, though the constructor makes it. -/
theorem not_answers_spaced :
    (Manifest.mk Settings.default [spaced]).isValid ∧
    ((Manifest.mk Settings.default [spaced]).builder spaced).isWanted ∧
    ∃ page, ((Manifest.mk Settings.default [spaced]).builder spaced).page? Style.psr.layout =
        some page ∧
      MakesInstance .psr page "App\\Foo\u00a0".toList ∧ AnswersInstance .psr page "App\\Foo".toList ∧
      ¬ Text.sameFolded ((Header.ofPage page).resolve "App\\Foo".toList) spaced.qualifiedName := by
  have hvalid : (Manifest.mk Settings.default [spaced]).isValid := by decide
  have hwanted : ((Manifest.mk Settings.default [spaced]).builder spaced).isWanted := by decide
  have hb := Manifest.isWellFormed_builder hvalid (List.mem_singleton_self spaced)
  refine ⟨hvalid, hwanted, _, by rw [Builder.page?, if_pos hwanted], hb.makesInstance .psr (by decide),
    hb.answersInstance .psr (by decide), ?_⟩
  rw [hb.header_page .psr]
  decide

end BuilderForge
