import BuilderForge.Proofs.NameForms
import BuilderForge.Proofs.ParameterTypes
import BuilderForge.Proofs.Shortening
/-
  The alternatives of a type, from a manifest to a page.

  A type is a set of alternatives, and a question mark in front of it is one
  way to write the alternative `null`. Reading a type takes `null` out at one
  place and keeps it as a flag (`mem_written_iff`); printing puts it back as a
  question mark, as a last alternative, or not at all where the type accepts
  `null` already (`exists_typeText`). In between a declaration may set the
  flag. All of it together loses no alternative and invents none:
  `keeps_alternatives`.

  The printed text can be cut at its bars because the short form of a name is a
  name again, in every namespace that imports were put into one by one.
-/

namespace BuilderForge

/-! ## Alternatives of a text -/

/-- The alternative that a question mark stands for. -/
def nullWord : Text := "null".toList

namespace TypeHint

/-- The alternatives of a type as they stand between its bars, with `null` for a
question mark in front. -/
def alternatives (t : Text) : List Text :=
  match dropMark? t with
  | some rest => nullWord :: Text.pieces '|' rest
  | none => Text.pieces '|' t

/-- The alternatives of a type in a manifest, without the blanks around them. -/
def written (raw : Text) : List Text := (alternatives (Text.trim raw)).map Text.trim

/-- What the name of a type lists. -/
def listed (ty : TypeHint) : List Text := (Text.pieces '|' ty.name).map Text.trim

/-- Whether printing puts `null` beside what the type lists. -/
def gainsNull (ty : TypeHint) : Bool := ty.nullable && !Php.acceptsNull ty.name

theorem trim_nullWord : Text.trim nullWord = nullWord := by decide

theorem mem_alternatives {t a : Text} : a ∈ alternatives t ↔
    (dropMark? t).isSome ∧ a = nullWord ∨ a ∈ Text.pieces '|' ((dropMark? t).getD t) := by
  unfold alternatives
  cases dropMark? t <;> simp

theorem dropMark?_eq_none {t : Text} (h : '?' ∉ t) : dropMark? t = none := by
  unfold dropMark?
  split
  · exact absurd List.mem_cons_self h
  · rfl

/-! ## Reading -/

/-- Where `null` is dropped it was the first or the last alternative. -/
theorem mem_pieces_of_dropNull? {name rest a : Text} (h : dropNull? name = some rest) :
    a ∈ Text.pieces '|' name ↔ a ∈ Text.pieces '|' rest ∨ a = nullWord := by
  have hnull : Text.pieces '|' nullWord = [nullWord] := by decide
  unfold dropNull? at h
  split at h
  · rename_i r hstart
    cases h
    rw [← List.isPrefixOf?_eq_some_iff_append_eq.1 hstart,
      show "null|".toList ++ rest = nullWord ++ '|' :: rest from rfl, Text.pieces_append_sep, hnull,
      List.singleton_append, List.mem_cons, or_comm]
  · rw [← List.isSuffixOf?_eq_some_iff_append_eq.1 h,
      show "|null".toList = '|' :: nullWord from rfl, Text.pieces_append_sep, hnull, List.mem_append,
      List.mem_singleton]

/-- Reading a type keeps its alternatives as they stand, but `null`, which may become the flag. -/
theorem mem_alternatives_iff {raw a : Text} : a ∈ alternatives (Text.trim raw) ↔
    a ∈ Text.pieces '|' (parse raw).name ∨ (parse raw).nullable ∧ a = nullWord := by
  rw [mem_alternatives]
  unfold parse
  dsimp only
  split
  · rename_i rest hrest
    rw [mem_pieces_of_dropNull? hrest]
    simp only [true_and]
    tauto
  · exact or_comm

/-- Reading a type keeps its alternatives but `null`, without regard to the blanks around them. -/
theorem mem_written_iff {raw a : Text} : a ∈ written raw ↔
    a ∈ (parse raw).listed ∨ (parse raw).nullable ∧ a = nullWord := by
  rw [written, listed, List.mem_map, List.mem_map]
  simp only [mem_alternatives_iff]
  constructor
  · rintro ⟨b, hb | ⟨hnullable, rfl⟩, rfl⟩
    · exact .inl ⟨b, hb, rfl⟩
    · exact .inr ⟨hnullable, trim_nullWord⟩
  · rintro (⟨b, hb, rfl⟩ | ⟨hnullable, rfl⟩)
    · exact ⟨b, .inl hb, rfl⟩
    · exact ⟨nullWord, .inr ⟨hnullable, rfl⟩, trim_nullWord⟩

end TypeHint

/-! ## Short names are names -/

namespace Php.Namespace

/-- A namespace that was made by adding imports and classes. -/
inductive IsMade : Namespace → Prop where
  | named (name : Text) : IsMade (named name)
  | addImport {ns : Namespace} (h : IsMade ns) (name : Text) : IsMade (ns.addImport name)
  | addClass {ns : Namespace} (h : IsMade ns) (c : Class) : IsMade (ns.addClass c)

theorem mem_putImport {i j : Import} {l : List Import} (h : j ∈ putImport i l) : j = i ∨ j ∈ l := by
  induction l with
  | nil => exact .inl (List.mem_singleton.1 h)
  | cons k l ih =>
    rw [putImport] at h
    split at h
    · exact (List.mem_cons.1 h).imp_right (List.mem_cons_of_mem _)
    · rcases List.mem_cons.1 h with rfl | h
      · exact .inr List.mem_cons_self
      · exact (ih h).imp_right (List.mem_cons_of_mem _)

/-- Every import goes by the last label of its name. -/
theorem IsMade.label_eq {ns : Namespace} (h : ns.IsMade) :
    ∀ i ∈ ns.imports, i.label = Name.short i.name := by
  induction h with
  | named name =>
    intro i hi
    cases hi
  | addImport _ name ih =>
    intro i hi
    unfold Namespace.addImport at hi
    dsimp only at hi
    split at hi
    · exact ih i hi
    · rcases mem_putImport hi with rfl | hi
      · rfl
      · exact ih i hi
  | addClass _ c ih => exact ih

/-- The label of an import that stands for the start of a path is a label. -/
theorem IsMade.isLabel_label {ns : Namespace} (h : ns.IsMade) {i : Import} (hi : i ∈ ns.imports)
    {head rest : Text} (hname : Name.isPath (head ++ rest)) (hhead : Text.fold head = Text.fold i.name)
    (hrest : rest = [] ∨ ∃ below, rest = Name.separator :: below) : Name.isLabel i.label := by
  -- what the import stands for is a path
  have hpath : Name.isPath head := by
    rcases hrest with rfl | ⟨below, rfl⟩
    · rwa [List.append_nil] at hname
    · rw [Name.isPath_append, Bool.and_eq_true] at hname
      exact hname.1
  rw [← Name.isPath_fold, hhead, Name.isPath_fold] at hpath
  rw [h.label_eq i hi]
  apply Name.isLabel_short
  rwa [Name.stripSeparator_of_isPath hpath]

/-- A path is written as a path, or in full. -/
theorem IsMade.isPath_or_eq {ns : Namespace} (h : ns.IsMade) {name short : Text}
    (hname : Name.isPath name) (hshort : Shortening ns name short) :
    Name.isPath short ∨ short = Name.separator :: name := by
  cases hshort with
  | imported hi hhead hrest =>
    have hlabel := Name.isPath_of_isLabel (h.isLabel_label hi hname hhead hrest)
    refine .inl ?_
    rcases hrest with rfl | ⟨below, rfl⟩
    · rwa [List.append_nil]
    · rw [Name.isPath_append, Bool.and_eq_true] at hname ⊢
      exact ⟨hlabel, hname.2⟩
  | bare _ _ => exact .inl hname
  | relative _ _ _ =>
    rw [Name.isPath_append, Bool.and_eq_true] at hname
    exact .inl hname.2
  | full _ _ _ => exact .inr rfl

/-- The short form of a name is a name. -/
theorem IsMade.isPath_shorten {ns : Namespace} (h : ns.IsMade) {name short : Text}
    (hname : Name.isPath (Name.stripSeparator name)) (hshort : ns.shorten name = some short) :
    Name.isPath (Name.stripSeparator short) := by
  obtain ⟨-, rfl⟩ | ⟨-, hshort⟩ := shortening_of_shorten hshort
  · exact hname
  obtain hpath | rfl := h.isPath_or_eq hname hshort
  · rwa [Name.stripSeparator_of_isPath hpath]
  · rwa [Name.stripSeparator, if_pos rfl]

/-! ## Printing -/

/-- Names with bars between them come apart again, and do not begin with a question mark. -/
theorem pieces_join_names {parts : List Text} (hne : parts ≠ [])
    (hnames : ∀ p ∈ parts, Name.isPath (Name.stripSeparator p)) :
    Text.pieces '|' (Text.join ['|'] parts) = parts ∧ '?' ∉ Text.join ['|'] parts := by
  have hfree : ∀ p ∈ parts, ∀ c ∈ p, c ≠ '|' ∧ c ≠ '?' := by
    intro p hp c hc
    have hchar := Name.isNameChar_of_mem_name (hnames p hp) hc
    constructor <;> intro heq <;> rw [heq] at hchar <;> exact absurd hchar (by decide)
  refine ⟨Text.pieces_join hne fun p hp hbar => (hfree p hp _ hbar).1 rfl, fun hmark => ?_⟩
  obtain hc | ⟨p, hp, hc⟩ := Text.mem_join hmark
  · exact absurd hc (by decide)
  · exact (hfree p hp _ hc).2 rfl

/-- The printed form of a type of names, if its names have short ones. These come
apart again, and there is no question mark among them. -/
theorem IsMade.typeText_eq {ns : Namespace} (h : ns.IsMade) {ty : TypeHint}
    (hlist : Name.isTypeList ty.name) {parts : List Text}
    (hparts : ty.listed.mapM ns.shorten = some parts) :
    Text.pieces '|' (Text.join ['|'] parts) = parts ∧ '?' ∉ Text.join ['|'] parts ∧
    ns.typeText ty = some (if ty.gainsNull then
      if ty.isUnion then Text.join ['|'] parts ++ "|null".toList else '?' :: Text.join ['|'] parts
      else Text.join ['|'] parts) := by
  have hmap := mapM_eq_some_iff.1 hparts
  have hne : parts ≠ [] := by
    intro hnil
    rw [hnil, List.map_nil, List.map_eq_nil_iff, TypeHint.listed, List.map_eq_nil_iff] at hmap
    exact Text.pieces_ne_nil _ _ hmap
  obtain ⟨hpieces, hmark⟩ := pieces_join_names hne fun p hp => by
    obtain ⟨a, ha, hshort⟩ := exists_of_mem_mapM hparts hp
    obtain ⟨piece, hpiece, rfl⟩ := List.mem_map.1 ha
    exact h.isPath_shorten (List.all_eq_true.1 hlist piece hpiece) hshort
  have hshort : ((Text.pieces '|' ty.name).mapM fun part => ns.shorten (Text.trim part)) =
      some parts := by
    apply mapM_eq_some_iff.2
    rw [← hmap, TypeHint.listed, List.map_map]
    rfl
  refine ⟨hpieces, hmark, ?_⟩
  rw [typeText, hshort]
  rfl

/-- The alternatives of a printed type are the short forms of the listed ones,
and `null` is one more where printing puts it there. -/
theorem IsMade.perm_alternatives {ns : Namespace} (h : ns.IsMade) {ty : TypeHint}
    (hlist : Name.isTypeList ty.name) {parts : List Text}
    (hparts : ty.listed.mapM ns.shorten = some parts) {printed : Text}
    (hprinted : ns.typeText ty = some printed) :
    (TypeHint.alternatives printed).Perm (if ty.gainsNull then nullWord :: parts else parts) := by
  obtain ⟨hpieces, hmark, htext⟩ := h.typeText_eq hlist hparts
  cases htext.symm.trans hprinted
  split
  · split
    · rw [TypeHint.alternatives, TypeHint.dropMark?_eq_none (by simpa using hmark),
        show "|null".toList = '|' :: nullWord from rfl, Text.pieces_append_sep, hpieces,
        Text.pieces_of_not_mem (by decide : '|' ∉ nullWord)]
      exact List.perm_append_singleton _ _
    · show (nullWord :: Text.pieces '|' (Text.join ['|'] parts)).Perm _
      rw [hpieces]
  · rw [TypeHint.alternatives, TypeHint.dropMark?_eq_none hmark, hpieces]

/-- A type of names has a printed form if its names have short ones. These are
its alternatives, and `null` is one more where the type does not accept it by
its own keyword. -/
theorem IsMade.exists_typeText {ns : Namespace} (h : ns.IsMade) (ty : TypeHint)
    (hlist : Name.isTypeList ty.name) {parts : List Text}
    (hparts : ty.listed.mapM ns.shorten = some parts) :
    ∃ printed, ns.typeText ty = some printed ∧ ∀ a, a ∈ TypeHint.alternatives printed ↔
      a ∈ parts ∨ (ty.nullable ∧ acceptsNull ty.name = false) ∧ a = nullWord := by
  obtain ⟨-, -, htext⟩ := h.typeText_eq hlist hparts
  refine ⟨_, htext, fun a => ?_⟩
  have hgains : ty.gainsNull ↔ ty.nullable ∧ acceptsNull ty.name = false := by
    simp [TypeHint.gainsNull]
  rw [(h.perm_alternatives hlist hparts htext).mem_iff, ← hgains]
  split
  · rename_i hnull
    rw [List.mem_cons, and_iff_right hnull, or_comm]
  · rename_i hnull
    simp only [hnull, Bool.false_eq_true, false_and, or_false]

theorem shorten_of_isTypeKeyword (ns : Namespace) {t : Text} (h : Name.isTypeKeyword t) :
    ns.shorten t = some t := by
  rw [shorten, if_pos (.inr h)]

/-- A type that accepts `null` by its keyword lists this keyword alone. -/
theorem listed_of_acceptsNull {ty : TypeHint} (h : acceptsNull ty.name) : ty.listed = [ty.name] := by
  have hfold : ∀ c ∈ ty.name, 97 ≤ c.toLower.toNat ∧ c.toLower.toNat ≤ 122 := by
    have hletters : ∀ word ∈ ["mixed".toList, nullWord],
        word.all fun c => 97 ≤ c.toNat && c.toNat ≤ 122 := by decide
    have hword : Text.fold ty.name ∈ ["mixed".toList, nullWord] := by
      simpa [acceptsNull, nullWord] using h
    intro c hc
    have hletter := List.all_eq_true.1 (hletters _ hword) _ (List.mem_map_of_mem hc)
    simpa using hletter
  have hletter : ∀ c ∈ ty.name, c ≠ '|' ∧ Text.isBlank c = false := by
    intro c hc
    have hbounds := hfold c hc
    rw [Text.toNat_toLower] at hbounds
    constructor
    · intro heq
      rw [heq] at hbounds
      exact absurd hbounds (by decide)
    · have hrange : 65 ≤ c.toNat ∧ c.toNat ≤ 122 := by
        split at hbounds <;> omega
      simp only [Text.isBlank, Text.blankRanges, List.any_cons, List.any_nil, Bool.or_false,
        Bool.or_eq_false_iff, Bool.and_eq_false_iff, decide_eq_false_iff_not]
      omega
  rw [TypeHint.listed, Text.pieces_of_not_mem fun hbar => (hletter _ hbar).1 rfl, List.map_singleton,
    Text.trim_eq_self fun c hc => (hletter c hc).2]

end Php.Namespace

/-! ## From a declaration to a page -/

/-- Whether two lists have the same texts up to the case of A to Z. -/
def Text.SameFoldedSet (s t : List Text) : Prop := ∀ x, x ∈ s.map fold ↔ x ∈ t.map fold

namespace ParameterDeclaration

/-- Whether the declaration makes a parameter accept `null` besides its type. -/
def addsNull (p : ParameterDeclaration) : Bool := p.nullable || p.default.any Default.isNull

/-- What a parameter accepts, if its type lists `declared`. Since `mixed` stands
for everything, `null` beside it is left out. -/
def accepted (p : ParameterDeclaration) (ty : TypeHint) (declared : List Text) : List Text :=
  let all := declared ++ if p.addsNull then [nullWord] else []
  if Text.fold ty.name = "mixed".toList then all.filter fun a => !Text.sameFolded a nullWord else all

theorem mem_accepted_iff {p : ParameterDeclaration} {ty : TypeHint} {declared : List Text} {a : Text} :
    a ∈ p.accepted ty declared ↔ (a ∈ declared ∨ p.addsNull ∧ a = nullWord) ∧
      (Text.fold ty.name = "mixed".toList → Text.fold a ≠ nullWord) := by
  have hall : a ∈ declared ++ (if p.addsNull then [nullWord] else []) ↔
      a ∈ declared ∨ p.addsNull ∧ a = nullWord := by
    cases p.addsNull <;> simp
  have hfold : Text.fold nullWord = nullWord := by decide
  unfold accepted
  dsimp only
  split
  · rename_i hmixed
    rw [List.mem_filter, hall, Bool.not_eq_true', ← Bool.not_eq_true, Text.sameFolded_iff, hfold]
    simp only [hmixed, forall_const]
  · rename_i hmixed
    rw [hall]
    simp only [hmixed, false_implies, and_true]

end ParameterDeclaration

theorem Text.SameFoldedSet.of_mem_iff {s t : List Text} (h : ∀ a, a ∈ s ↔ a ∈ t) : SameFoldedSet s t := by
  intro x
  simp only [List.mem_map, h]

namespace Php.Namespace

/-- The names that are declared have the short forms of the listed ones, and `null` is one of
them where the flag holds it. -/
theorem mem_declared_iff {ns : Namespace} {raw : Text} {parts declared : List Text}
    (hparts : (TypeHint.parse raw).listed.mapM ns.shorten = some parts)
    (hdeclared : (TypeHint.written raw).mapM ns.shorten = some declared) {b : Text} :
    b ∈ declared ↔ b ∈ parts ∨ (TypeHint.parse raw).nullable ∧ b = nullWord := by
  have hnull : ns.shorten nullWord = some nullWord := ns.shorten_of_isTypeKeyword (by decide)
  rw [mem_mapM_iff hdeclared, mem_mapM_iff hparts]
  constructor
  · intro h
    obtain ⟨a, ha, hshort⟩ := h
    obtain ha | ⟨hnullable, rfl⟩ := TypeHint.mem_written_iff.1 ha
    · exact .inl ⟨a, ha, hshort⟩
    · rw [hnull, Option.some_inj] at hshort
      exact .inr ⟨hnullable, hshort.symm⟩
  · intro h
    obtain ⟨a, ha, hshort⟩ | ⟨hnullable, rfl⟩ := h
    · exact ⟨a, TypeHint.mem_written_iff.2 (.inl ha), hshort⟩
    · exact ⟨nullWord, TypeHint.mem_written_iff.2 (.inr ⟨hnullable, rfl⟩), hnull⟩

/-- Leaving `null` out beside a keyword that accepts it changes nothing else. -/
theorem sameFoldedSet_accepted {ns : Namespace} {p : ParameterDeclaration} {ty : TypeHint}
    {parts declared shown : List Text} (hparts : ty.listed.mapM ns.shorten = some parts)
    (hdeclared : ∀ a, a ∈ declared ↔ a ∈ parts ∨ ty.nullable ∧ a = nullWord)
    (hshown : ∀ a, a ∈ shown ↔ a ∈ parts ∨
      ((ty.nullable || p.addsNull) ∧ acceptsNull ty.name = false) ∧ a = nullWord) :
    Text.SameFoldedSet shown (p.accepted ty declared) := by
  have haccepted : ∀ a, a ∈ p.accepted ty declared ↔
      (a ∈ parts ∨ (ty.nullable || p.addsNull) ∧ a = nullWord) ∧
        (Text.fold ty.name = "mixed".toList → Text.fold a ≠ nullWord) := by
    intro a
    rw [ParameterDeclaration.mem_accepted_iff, hdeclared, Bool.or_eq_true]
    tauto
  cases hnull : acceptsNull ty.name with
  | false =>
    have hmixed : Text.fold ty.name ≠ "mixed".toList := by
      intro heq
      rw [acceptsNull, heq] at hnull
      cases hnull
    apply Text.SameFoldedSet.of_mem_iff
    intro a
    rw [hshown, haccepted, hnull]
    simp only [hmixed, and_true, false_implies]
  | true =>
    -- the keyword is all that the type lists
    have hword : Text.fold ty.name = "mixed".toList ∨ Text.fold ty.name = nullWord := by
      simpa [acceptsNull, nullWord] using hnull
    have hkeyword : Name.isTypeKeyword ty.name := by
      rw [Name.isTypeKeyword]
      obtain hword | hword := hword <;> rw [hword] <;> decide
    obtain rfl : parts = [ty.name] := by
      have hsingle : [ty.name].mapM ns.shorten = some [ty.name] := by
        rw [mapM_eq_some_iff, List.map_singleton, ns.shorten_of_isTypeKeyword hkeyword]
        rfl
      rw [listed_of_acceptsNull hnull, hsingle] at hparts
      exact (Option.some_inj.1 hparts).symm
    have hshown : ∀ a, a ∈ shown ↔ a = ty.name := by
      intro a
      rw [hshown, hnull, List.mem_singleton]
      simp only [reduceCtorEq, and_false, false_and, or_false]
    have hfold : Text.fold nullWord = nullWord := by decide
    intro x
    rw [List.mem_map, List.mem_map]
    simp only [hshown, haccepted, List.mem_singleton, exists_eq_left]
    constructor
    · intro h
      refine ⟨ty.name, ⟨.inl rfl, fun hmixed => ?_⟩, h⟩
      rw [hmixed]
      decide
    · intro h
      obtain ⟨a, ⟨rfl | ⟨-, rfl⟩, hmixed⟩, rfl⟩ := h
      · rfl
      · -- `null` is there beside `null` only, as it is left out beside `mixed`
        obtain hword | hword := hword
        · exact absurd hfold (hmixed hword)
        · rw [hword, hfold]

end Php.Namespace

/-- In every namespace where the names of a type have short forms, a parameter
of the type is printed with exactly these as its alternatives, and `null` if the
type, the declaration or the default says so. -/
theorem keeps_alternatives {ns : Php.Namespace} (hns : ns.IsMade) {p : ParameterDeclaration}
    {raw : Text} (htype : p.type = some (TypeHint.parse raw))
    (hlist : Name.isTypeList (TypeHint.parse raw).name)
    (hshort : ∀ a ∈ TypeHint.written raw, (ns.shorten a).isSome) :
    ∃ declared ty printed, (TypeHint.written raw).mapM ns.shorten = some declared ∧
      p.typeHint = some ty ∧ p.builderType = some ty ∧ ns.typeText ty = some printed ∧
      Text.SameFoldedSet (TypeHint.alternatives printed)
        (p.accepted (TypeHint.parse raw) declared) := by
  obtain ⟨declared, hdeclared⟩ := Option.isSome_iff_exists.1 (Php.isSome_mapM hshort)
  obtain ⟨parts, hparts⟩ := Option.isSome_iff_exists.1 (Php.isSome_mapM (f := ns.shorten)
    fun a ha => hshort a (TypeHint.mem_written_iff.2 (.inl ha)))
  have hhint : p.typeHint = some { TypeHint.parse raw with
      nullable := (TypeHint.parse raw).nullable || p.addsNull } := by
    rw [ParameterDeclaration.typeHint, htype, Option.map_some, Bool.or_assoc]
    rfl
  obtain ⟨printed, hprinted, hshown⟩ := hns.exists_typeText
    { TypeHint.parse raw with nullable := (TypeHint.parse raw).nullable || p.addsNull } hlist hparts
  refine ⟨declared, _, printed, hdeclared, hhint, ?_, hprinted, ?_⟩
  · rw [ParameterDeclaration.builderType, hhint]
    exact if_pos hlist
  · exact Php.Namespace.sameFoldedSet_accepted hparts
      (fun _ => Php.Namespace.mem_declared_iff hparts hdeclared) hshown

/-- A type with `null` in front and in the middle. -/
def ownerType : Text := " ?app\\User | NULL|Int ".toList

/-- A parameter of this type, with `null` as its default. -/
def ownerParameter : ParameterDeclaration :=
  ⟨"owner".toList, some (TypeHint.parse ownerType), false, some .null⟩

/-- A namespace that imports itself. -/
def appNamespace : Php.Namespace := (Php.Namespace.named "App".toList).addImport "App".toList

theorem keeps_alternatives_ownerParameter :
    appNamespace.IsMade ∧ ownerParameter.type = some (TypeHint.parse ownerType) ∧
    Name.isTypeList (TypeHint.parse ownerType).name ∧
    (∀ a ∈ TypeHint.written ownerType, (appNamespace.shorten a).isSome) ∧
    ∃ declared ty printed, (TypeHint.written ownerType).mapM appNamespace.shorten = some declared ∧
      ownerParameter.typeHint = some ty ∧ ownerParameter.builderType = some ty ∧
      appNamespace.typeText ty = some printed ∧
      Text.SameFoldedSet (TypeHint.alternatives printed)
        (ownerParameter.accepted (TypeHint.parse ownerType) declared) := by
  have hns : appNamespace.IsMade := .addImport (.named _) _
  have hlist : Name.isTypeList (TypeHint.parse ownerType).name := by decide
  have hshort : ∀ a ∈ TypeHint.written ownerType, (appNamespace.shorten a).isSome := by decide
  exact ⟨hns, rfl, hlist, hshort, keeps_alternatives hns rfl hlist hshort⟩

end BuilderForge
