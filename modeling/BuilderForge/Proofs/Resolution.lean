import Mathlib.Data.List.Forall2
import BuilderForge.Proofs.Containment
/-
  What the names on a page mean.

  A reader of a file takes its namespace and its imports from the statements at
  its top (`Header.ofPage`) and resolves a class name with them: a separator in
  front says that the name is complete; else an import whose last label is the
  first label of the name stands for it; else the name lies below the
  namespace.

  A page imports its own namespace and nothing else. A name that the import
  covers is written with its last label, and then read with the import; any
  other name is written in full, or stands in the global namespace where there
  is nothing to put before it. No name is written relative to the namespace,
  because all that lies below it is covered. So every name means what it was
  the short form of: `fold_resolve_shorten`, and for a page
  `IsResolved`.
-/

namespace BuilderForge.Php

open Code (Row Fragment)

/-- What decides in a file which class a name means. -/
structure Header where
  scope : Text
  imports : List Text

namespace Header

/-- What a line says after a word and before a semicolon. -/
def operand? (word line : Text) : Option Text :=
  (word.isPrefixOf? line).bind fun rest => [';'].isSuffixOf? rest

/-- The namespace and the imports that the lines of a file state. -/
def ofPage (page : Text) : Header :=
  let lines := Text.pieces '\n' page
  ⟨(lines.findSome? (operand? "namespace ".toList)).getD [],
   lines.filterMap (operand? "use ".toList)⟩

/-- The class that a name means. -/
def resolve (h : Header) (name : Text) : Text :=
  if [Name.separator].isPrefixOf name then Name.stripSeparator name
  else
    match h.imports.find? fun i =>
        Text.sameFolded (Name.short i) (name.takeWhile (· ≠ Name.separator)) with
    | some i => i ++ name.dropWhile (· ≠ Name.separator)
    | none => Name.qualify h.scope name

/-- Whether a printed alternative of a type is the declared one: a keyword is
written as it is, and a class name means the class that was declared. -/
def Refers (h : Header) (declared printed : Text) : Prop :=
  if Name.isTypeKeyword (Text.trim declared) then printed = Text.trim declared
  else Text.sameFolded (h.resolve printed) (Name.stripSeparator (Text.trim declared)) = true

/-- Whether a text is a parameter with its type, name and default, and each
alternative of the printed type is the declared one. -/
def Declares (h : Header) (p : Parameter) (t : Text) : Prop :=
  ∃ type, t = type ++ '$' :: p.name ++ (p.default.map fun code => " = ".toList ++ code).getD [] ∧
    match p.type with
    | none => type = []
    | some ty => ∃ mark parts ending, (mark = [] ∨ mark = ['?']) ∧
        (ending = [] ∨ ending = "|null".toList) ∧
        type = mark ++ Text.join ['|'] parts ++ ending ++ [' '] ∧
        List.Forall₂ h.Refers (Text.pieces '|' ty.name) parts

/-! ## Short names -/

theorem resolve_separator (h : Header) (name : Text) : h.resolve (Name.separator :: name) = name := by
  simp [resolve, Name.stripSeparator]

theorem isPrefixOf_separator {t : Text} (h : Name.isLabel t) (rest : Text) :
    [Name.separator].isPrefixOf (t ++ rest) = false := by
  cases t with
  | nil => cases h
  | cons c t =>
    have hc : Name.separator ≠ c := fun e =>
      Name.separator_notMem_of_isLabel h (by rw [e]; exact List.mem_cons_self)
    simpa [List.isPrefixOf] using hc

/-- A label and what comes after it are read with the first import of the label,
and below the namespace if there is none. -/
theorem resolve_append (h : Header) {label rest : Text} (hlabel : Name.isLabel label)
    (hrest : rest = [] ∨ ∃ below, rest = Name.separator :: below) : h.resolve (label ++ rest) =
      ((h.imports.find? fun i => Text.sameFolded (Name.short i) label).map (· ++ rest)).getD
        (Name.qualify h.scope (label ++ rest)) := by
  have hall : ∀ c ∈ label, decide (c ≠ Name.separator) = true := by
    intro c hc
    rw [decide_eq_true_iff]
    rintro rfl
    exact Name.separator_notMem_of_isLabel hlabel hc
  have htake : (label ++ rest).takeWhile (· ≠ Name.separator) = label := by
    rw [List.takeWhile_append_of_pos hall]
    rcases hrest with rfl | ⟨below, rfl⟩ <;> simp
  have hdrop : (label ++ rest).dropWhile (· ≠ Name.separator) = rest := by
    rw [List.dropWhile_append_of_pos hall]
    rcases hrest with rfl | ⟨below, rfl⟩ <;> simp
  unfold resolve
  rw [isPrefixOf_separator hlabel, htake, hdrop]
  cases h.imports.find? fun i => Text.sameFolded (Name.short i) label <;> rfl

/-- A label and what comes after it are read with the import of the label. -/
theorem resolve_label_append {scope i label rest : Text} (hlabel : Name.isLabel label)
    (hi : Text.fold (Name.short i) = Text.fold label) (hrest : rest = [] ∨ ∃ below, rest = Name.separator :: below) :
    resolve ⟨scope, [i]⟩ (label ++ rest) = i ++ rest := by
  have hsame : Text.sameFolded (Name.short i) label = true := Text.sameFolded_iff.2 hi
  rw [resolve_append _ hlabel hrest]
  simp [hsame]

theorem isPrefixOf_separator_of_isPath {t : Text} (h : Name.isPath t) :
    [Name.separator].isPrefixOf t = false := by
  cases t with
  | nil => rfl
  | cons c t =>
    have hc : Name.separator ≠ c := by
      rintro rfl
      rw [Name.not_isPath_cons_separator] at h
      cases h
    simpa [List.isPrefixOf] using hc

/-- In the global namespace a text without a separator in front is read as it is. -/
theorem resolve_of_start {name : Text} (hstart : [Name.separator].isPrefixOf name = false) :
    resolve ⟨[], []⟩ name = name := by
  unfold resolve
  rw [hstart]
  simp [Name.qualify]

/-- A name in the global namespace is read as it is. -/
theorem resolve_global {name : Text} (h : Name.isPath name) : resolve ⟨[], []⟩ name = name :=
  resolve_of_start (isPrefixOf_separator_of_isPath h)

/-- In a namespace that imports itself and nothing else, a short form is read as
what it is the short form of, whether that is well-formed or not. -/
theorem fold_resolve_shorten {scope : Text} (hscope : scope = [] ∨ Name.isPath scope)
    {classes : List Class} {name short : Text} (hne : name ≠ [])
    (hstart : [Name.separator].isPrefixOf (Name.stripSeparator name) = false)
    (hkeyword : Name.isTypeKeyword name = false)
    (h : Namespace.shorten ⟨scope, if scope = [] then [] else [⟨Name.short scope, scope⟩], classes⟩
      name = some short) :
    Text.fold (resolve ⟨scope, if scope = [] then [] else [scope]⟩ short) =
      Text.fold (Name.stripSeparator name) := by
  obtain ⟨hself | hself, -⟩ | ⟨-, hshort⟩ := shortening_of_shorten h
  · exact absurd hself hne
  · rw [hkeyword] at hself
    cases hself
  -- the four ways in which a short name can arise
  generalize Name.stripSeparator name = n at hstart hshort ⊢
  cases hshort with
  | imported hi hhead hrest =>
    rename_i i head rest
    dsimp only at hi
    split at hi
    · cases hi
    · rename_i hne
      cases List.mem_singleton.1 hi
      have hpath := hscope.resolve_left hne
      have hlabel : Name.isLabel (Name.short scope) := by
        apply Name.isLabel_short
        rwa [Name.stripSeparator_of_isPath hpath]
      rw [if_neg hne]
      calc Text.fold (resolve ⟨scope, [scope]⟩ (Name.short scope ++ rest))
          = Text.fold (scope ++ rest) := by rw [resolve_label_append hlabel rfl hrest]
        _ = Text.fold (head ++ rest) := by rw [Text.fold_append, Text.fold_append, hhead]
  | bare hns _ =>
    dsimp only at hns
    rw [hns, if_pos rfl, resolve_of_start hstart]
  | relative hns hu hhead =>
    -- the namespace covers the name, and so does its import
    rename_i head
    dsimp only at hns hhead
    have hcovers : covers scope (head ++ Name.separator :: short) = true :=
      covers_iff.2 ⟨head, Name.separator :: short, rfl, hhead, .inr ⟨short, rfl⟩⟩
    have huncovered := hu ⟨Name.short scope, scope⟩ (by
      dsimp only
      rw [if_neg hns]
      exact List.mem_singleton_self _)
    dsimp only at huncovered
    rw [hcovers] at huncovered
    cases huncovered
  | full _ _ _ => rw [resolve_separator]

/-! ## Statements on a page -/

theorem operand?_append (word t : Text) : operand? word (word ++ t ++ [';']) = some t := by
  have hstart : word.isPrefixOf? (word ++ t ++ [';']) = some (t ++ [';']) :=
    List.isPrefixOf?_eq_some_iff_append_eq.2 (by rw [List.append_assoc])
  rw [operand?, hstart, Option.bind_some, List.isSuffixOf?_eq_some_iff_append_eq]

theorem operand?_eq_none {c d : Char} (h : c ≠ d) (word t : Text) :
    operand? (c :: word) (d :: t) = none := by
  simp [operand?, List.isPrefixOf?, h]

/-- Whether a line begins neither with a namespace nor with an import. -/
def IsSilent (line : Text) : Prop :=
  operand? "namespace ".toList line = none ∧ operand? "use ".toList line = none

theorem isSilent_nil : IsSilent [] := ⟨rfl, rfl⟩

theorem isSilent_cons {c : Char} (h : c ≠ 'n' ∧ c ≠ 'u') (t : Text) : IsSilent (c :: t) :=
  ⟨operand?_eq_none h.1.symm _ t, operand?_eq_none h.2.symm _ t⟩

/-- Rows below the margin state nothing. -/
theorem isSilent_of_depth {c : Char} {unit : Text} (hc : c ≠ 'n' ∧ c ≠ 'u') {r : Row}
    (hr : r.text = [] ∨ 1 ≤ r.depth) : IsSilent (r.line (c :: unit)) := by
  obtain ⟨depth, text⟩ := r
  cases depth with
  | zero =>
    have htext : text = [] := hr.resolve_right (by simp)
    rw [htext]
    exact isSilent_nil
  | succ depth =>
    rw [Row.line, List.replicate_succ, List.flatten_cons, List.cons_append, List.cons_append]
    exact isSilent_cons hc _

/-- The header of lines that state a namespace and imports and nothing after them. -/
theorem header_of_lines {scope : Text} {imports lines : List Text} (h : ∀ l ∈ lines, IsSilent l)
    {page : Text} (hpage : Text.pieces '\n' page = ["<?php".toList, []] ++
      (if scope = [] then [] else ["namespace ".toList ++ scope ++ [';'], []]) ++
      imports.map (fun i => "use ".toList ++ i ++ [';']) ++ lines) :
    ofPage page = ⟨scope, imports⟩ := by
  have hlines : lines.findSome? (operand? "namespace ".toList) = none ∧
      lines.filterMap (operand? "use ".toList) = [] :=
    ⟨List.findSome?_eq_none_iff.2 fun l hl => (h l hl).1,
      List.filterMap_eq_nil_iff.2 fun l hl => (h l hl).2⟩
  have huse (i : Text) : operand? "namespace ".toList ("use ".toList ++ i ++ [';']) = none :=
    operand?_eq_none (by decide) _ _
  have hscope : ["namespace ".toList ++ scope ++ [';'], []].findSome?
      (operand? "namespace ".toList) = some scope := by
    rw [List.findSome?_cons, operand?_append]
  have hnone : ["namespace ".toList ++ scope ++ [';'], []].filterMap (operand? "use ".toList) = [] := by
    have h : operand? "use ".toList ("namespace ".toList ++ scope ++ [';']) = none :=
      operand?_eq_none (by decide) _ _
    rw [List.filterMap_cons_none h]
    rfl
  have huses : (imports.map fun i => "use ".toList ++ i ++ [';']).findSome?
      (operand? "namespace ".toList) = none := by
    rw [List.findSome?_eq_none_iff]
    intro l hl
    obtain ⟨i, -, rfl⟩ := List.mem_map.1 hl
    exact huse i
  have hoperands : (imports.map fun i => "use ".toList ++ i ++ [';']).filterMap
      (operand? "use ".toList) = imports := by
    rw [List.filterMap_map]
    simp only [Function.comp_def, operand?_append, List.filterMap_some]
  have hopening : ["<?php".toList, []].findSome? (operand? "namespace ".toList) = none ∧
      ["<?php".toList, []].filterMap (operand? "use ".toList) = [] := ⟨by decide, by decide⟩
  rw [ofPage, hpage]
  simp only [List.findSome?_append, List.filterMap_append, hlines, huses, hoperands, hopening]
  split
  · rename_i hempty
    rw [hempty]
    simp
  · rw [hscope, hnone]
    simp

end Header

theorem forall₂_of_mapM {α β : Type} {f : α → Option β} {R : α → β → Prop} {l : List α}
    {bs : List β} (h : l.mapM f = some bs) (hR : ∀ a ∈ l, ∀ b, f a = some b → R a b) :
    List.Forall₂ R l bs := by
  have hsome : List.Forall₂ (fun a b => f a = some b) l bs := by
    rw [← List.forall₂_map_left_iff (f := f) (R := fun x b => x = some b), mapM_eq_some_iff.1 h,
      List.forall₂_map_left_iff]
    exact List.forall₂_same.2 fun _ _ => rfl
  have hmem := (List.forall₂_and_left l bs).2 ⟨fun a (ha : a ∈ l) => ha, hsome⟩
  exact hmem.imp fun a b ⟨ha, hb⟩ => hR a ha b hb

end BuilderForge.Php

namespace BuilderForge

open Php (Header)

namespace Builder

/-- The header of a builder's page: the namespace of the entity, which imports
itself. -/
def header (b : Builder) : Header :=
  ⟨b.entity.scope, if b.entity.scope = [] then [] else [b.entity.scope]⟩

variable {b : Builder} (hb : b.IsWellFormed)
include hb

theorem IsWellFormed.fold_resolve_of_start {name short : Text} (hne : name ≠ [])
    (hstart : [Name.separator].isPrefixOf (Name.stripSeparator name) = false)
    (hkeyword : Name.isTypeKeyword name = false) (h : b.toNamespace.shorten name = some short) :
    Text.fold (b.header.resolve short) = Text.fold (Name.stripSeparator name) := by
  rw [hb.toNamespace_eq] at h
  exact Header.fold_resolve_shorten hb.isPath_scope hne hstart hkeyword h

theorem IsWellFormed.fold_resolve {name short : Text} (hname : Name.isPath (Name.stripSeparator name))
    (hkeyword : Name.isTypeKeyword name = false) (h : b.toNamespace.shorten name = some short) :
    Text.fold (b.header.resolve short) = Text.fold (Name.stripSeparator name) := by
  refine hb.fold_resolve_of_start ?_ (Header.isPrefixOf_separator_of_isPath hname) hkeyword h
  rintro rfl
  exact absurd rfl (Name.ne_nil_of_isPath hname)

/-- A parameter type of the class is printed with alternatives that mean the
declared ones. -/
theorem IsWellFormed.declares {m : Php.Method} (hm : m ∈ b.toClass.methods) {p : Php.Parameter}
    (hp : p ∈ m.params) {t : Text} (h : b.toNamespace.parameterText p = some t) :
    b.header.Declares p t := by
  obtain ⟨type, htype, rfl⟩ := Php.Namespace.parameterText_eq_some h
  refine ⟨type, rfl, ?_⟩
  rcases htype with ⟨hnone, rfl⟩ | ⟨ty, printed, hty, hprinted, rfl⟩
  · rw [hnone]
  · rw [hty]
    obtain ⟨parts, hparts, mark, ending, hmark, hending, rfl⟩ :=
      Php.Namespace.typeText_eq_some hprinted
    refine ⟨mark, parts, ending, hmark, hending, rfl, Php.forall₂_of_mapM hparts fun part hpart short hshort => ?_⟩
    have hlist := List.all_eq_true.1 (hb.isTypeList_of_mem_params hm hp hty)
    unfold Header.Refers
    split
    · rename_i hkeyword
      rw [Php.Namespace.shorten, if_pos (.inr hkeyword)] at hshort
      cases hshort
      rfl
    · rename_i hkeyword
      rw [Text.sameFolded_iff]
      exact hb.fold_resolve (hlist part hpart) (by simpa using hkeyword) hshort

/-- The lines before the class. -/
theorem IsWellFormed.lines_preamble (unit : Text) :
    (Code.Fragment.rowsAll 0 b.toNamespace.preamble).map (Code.Row.line unit) =
      ["<?php".toList, []] ++
      (if b.entity.scope = [] then [] else ["namespace ".toList ++ b.entity.scope ++ [';'], []]) ++
      b.header.imports.map (fun i => "use ".toList ++ i ++ [';']) ++
      (if b.entity.scope = [] then [] else [[]]) := by
  rw [Php.Namespace.rowsAll_preamble, hb.toNamespace_eq, header]
  dsimp only
  split
  · rfl
  · simp [Php.Namespace.importedNames, Code.Row.line]

omit hb in
/-- The lines of the class state nothing. Those at the margin begin with `class`
or a brace, and all others with the indentation. -/
theorem isSilent_classRows {start : Char} {unit : Text} (hstart : start ≠ 'n' ∧ start ≠ 'u')
    {c : Php.Class} {interfaces : List Text} {members : List Code.Fragment} :
    ∀ r ∈ (⟨0, Php.Namespace.headText c interfaces⟩ :: ⟨0, ['\x7b']⟩ ::
      (Code.Fragment.rowsAll 1 members ++ [⟨0, ['\x7d']⟩]) : List Code.Row),
      Header.IsSilent (r.line (start :: unit)) := by
  intro r hr
  rcases List.mem_cons.1 hr with rfl | hr
  · show Header.IsSilent ('c' :: _)
    exact Header.isSilent_cons (by decide) _
  rcases List.mem_cons.1 hr with rfl | hr
  · exact Header.isSilent_cons (by decide) _
  rcases List.mem_append.1 hr with hr | hr
  · exact Header.isSilent_of_depth hstart (Code.Fragment.depth_le_of_mem_rowsAll _ hr)
  · rw [List.mem_singleton.1 hr]
    exact Header.isSilent_cons (by decide) _

/-- The statements at the top of a builder's page. -/
theorem IsWellFormed.header_page (style : Style) :
    Header.ofPage (b.page style.layout) = b.header := by
  obtain ⟨interfaces, methods, -, -, -, -, hlines⟩ := hb.rows_page style
  obtain ⟨start, unit, hunit, hstart⟩ : ∃ start unit, style.layout.indentation.unit = start :: unit ∧
      start ≠ 'n' ∧ start ≠ 'u' := by
    cases style
    · exact ⟨' ', _, rfl, by decide⟩
    · exact ⟨'\t', _, rfl, by decide⟩
  rw [Php.Namespace.pageRows, List.map_append, hb.lines_preamble, hunit, List.append_assoc,
    List.append_assoc] at hlines
  refine Header.header_of_lines (fun l hl => ?_) hlines
  rcases List.mem_append.1 hl with hl | hl
  · split at hl
    · cases hl
    · rw [List.mem_singleton.1 hl]
      exact Header.isSilent_nil
  rcases List.mem_append.1 hl with hl | hl
  · obtain ⟨r, hr, rfl⟩ := List.mem_map.1 hl
    exact isSilent_classRows hstart r hr
  · rw [List.mem_singleton.1 hl]
    exact Header.isSilent_nil

/-- The lines of a method stand together on the page. -/
theorem IsWellFormed.infix_methodRows (style : Style) {m : Php.Method} (hm : m ∈ b.toClass.methods) :
    ∃ code, b.toNamespace.methodCode m = some code ∧
      (Code.Fragment.rowsAll 1 code).map (Code.Row.line style.layout.indentation.unit) <:+:
        Text.pieces '\n' (b.page style.layout) := by
  obtain ⟨interfaces, methods, -, hmethods, -, -, hlines⟩ := hb.rows_page style
  obtain ⟨code, hcode, hrows⟩ := Php.Namespace.infix_rowsAll_methodsCode hmethods 1 m hm
  refine ⟨code, hcode, ?_⟩
  have hpage : Code.Fragment.rowsAll 1 methods <:+:
      b.toNamespace.pageRows b.toClass interfaces methods := by
    rw [Php.Namespace.pageRows, Code.Fragment.rowsAll_append]
    refine ⟨Code.Fragment.rowsAll 0 b.toNamespace.preamble ++
      ⟨0, Php.Namespace.headText b.toClass interfaces⟩ :: ⟨0, ['\x7b']⟩ ::
        Code.Fragment.rowsAll 1 (b.toClass.properties.map Php.Namespace.propertyCode),
      [⟨0, ['\x7d']⟩], ?_⟩
    simp
  rw [hlines]
  exact ((hrows.trans hpage).map _).trans (List.prefix_append _ _).isInfix

/-- The lines of a method's head stand together on the page. -/
theorem IsWellFormed.infix_headRows (style : Style) {m : Php.Method} (hm : m ∈ b.toClass.methods) :
    ∃ params returns, m.params.mapM b.toNamespace.parameterText = some params ∧
      (Php.Namespace.headRows 1 (Php.Namespace.methodHead m) params returns).map
        (Code.Row.line style.layout.indentation.unit) <:+: Text.pieces '\n' (b.page style.layout) := by
  obtain ⟨code, hcode, hinfix⟩ := hb.infix_methodRows style hm
  obtain ⟨params, returns, body, hparams, -, -, hrows⟩ := Php.Namespace.rowsAll_methodCode hcode 1
  refine ⟨params, returns, hparams, List.IsInfix.trans ?_ hinfix⟩
  rw [hrows, List.map_append]
  exact (List.prefix_append _ _).isInfix

/-- The line of the class names the marker. -/
theorem IsWellFormed.mem_headLine (style : Style) : ∃ printed,
    "class ".toList ++ b.shortName ++ " implements ".toList ++ printed ∈
      Text.pieces '\n' (b.page style.layout) ∧
    Text.fold (b.header.resolve printed) = Text.fold (Name.stripSeparator b.marker) := by
  obtain ⟨interfaces, methods, hinterfaces, -, -, -, hlines⟩ := hb.rows_page style
  obtain ⟨hname, himplements, -⟩ := b.fields_toClass
  obtain ⟨printed, hprinted, rfl⟩ : ∃ printed, b.toNamespace.shorten b.marker = some printed ∧
      interfaces = [printed] := by
    rw [List.mapM_cons, List.mapM_nil] at hinterfaces
    obtain ⟨printed, hprinted, h⟩ := Option.bind_eq_some_iff.1 hinterfaces
    cases h
    exact ⟨printed, hprinted, rfl⟩
  -- a keyword would not be shortened, but it is reserved
  have hkeyword : Name.isTypeKeyword b.marker = false := by
    cases hk : Name.isTypeKeyword b.marker with
    | false => rfl
    | true =>
      have hfree := hb.markerFree
      rw [Name.isReserved_short_of_isTypeKeyword hk] at hfree
      cases hfree
  refine ⟨printed, ?_, hb.fold_resolve hb.marker hkeyword hprinted⟩
  have htext : Php.Namespace.headText b.toClass [printed] =
      "class ".toList ++ b.shortName ++ " implements ".toList ++ printed := by
    unfold Php.Namespace.headText
    rw [hname, himplements, if_neg (by simp), List.append_assoc]
    simp [Text.join, List.intercalate]
  -- the head of the class is the row after the preamble
  rw [hlines, Php.Namespace.pageRows, ← htext]
  refine List.mem_append_left _ (List.mem_map.2 ⟨⟨0, _⟩, List.mem_append_right _ List.mem_cons_self, ?_⟩)
  rfl

end Builder

/-- Whether the names on the page of a builder mean what was declared, read with
the statements at its top: in the line of the class the marker, and in the
heads of the methods every alternative of a parameter's type. -/
structure IsResolved (b : Builder) (style : Style) (page : Text) : Prop where
  marker : ∃ printed, "class ".toList ++ b.shortName ++ " implements ".toList ++ printed ∈
      Text.pieces '\n' page ∧
    Text.sameFolded ((Header.ofPage page).resolve printed) (Name.stripSeparator b.marker)
  parameters : ∀ m ∈ b.toClass.methods, ∃ params returns,
    (Php.Namespace.headRows 1 (Php.Namespace.methodHead m) params returns).map
      (Code.Row.line style.layout.indentation.unit) <:+: Text.pieces '\n' page ∧
    List.Forall₂ (Header.ofPage page).Declares m.params params

/-- Every page of a valid manifest names the marker and the declared types, up
to the case of A to Z and a separator in front. -/
theorem isResolved_page {m : Manifest} (hm : m.isValid) {e : Entity} (he : e ∈ m.entities)
    (hwanted : (m.builder e).isWanted) (style : Style) :
    ∃ page, (m.builder e).page? style.layout = some page ∧
      IsResolved (m.builder e) style page := by
  have hb := Manifest.isWellFormed_builder hm he
  refine ⟨(m.builder e).page style.layout, by rw [Builder.page?, if_pos hwanted], ?_, ?_⟩
  · rw [hb.header_page style]
    obtain ⟨printed, hmem, hfold⟩ := hb.mem_headLine style
    exact ⟨printed, hmem, Text.sameFolded_iff.2 hfold⟩
  · rw [hb.header_page style]
    intro method hmethod
    obtain ⟨params, returns, hparams, hinfix⟩ := hb.infix_headRows style hmethod
    exact ⟨params, returns, hinfix,
      Php.forall₂_of_mapM hparams fun p hp t ht => hb.declares hmethod hp ht⟩

/-- An entity whose types lie at, below, beside and outside of its namespace. -/
def cart : Entity :=
  ⟨"App\\Shop\\Cart".toList, [],
   [⟨"setOwner".toList, .publicAccess, false,
     [⟨"owner".toList, some ⟨"app\\shop|App\\SHOP\\User| \\App\\Shops |int".toList, true⟩,
       false, none⟩]⟩]⟩

theorem isResolved_page_cart : (Manifest.mk Settings.default [cart]).isValid ∧
    cart ∈ (Manifest.mk Settings.default [cart]).entities ∧
    ((Manifest.mk Settings.default [cart]).builder cart).isWanted ∧ ∃ page,
      ((Manifest.mk Settings.default [cart]).builder cart).page? Style.psr.layout = some page ∧
      IsResolved ((Manifest.mk Settings.default [cart]).builder cart) .psr page := by
  have hvalid : (Manifest.mk Settings.default [cart]).isValid := by decide
  have hmem : cart ∈ (Manifest.mk Settings.default [cart]).entities := List.mem_singleton_self _
  have hwanted : ((Manifest.mk Settings.default [cart]).builder cart).isWanted := by decide
  exact ⟨hvalid, hmem, hwanted, isResolved_page hvalid hmem hwanted .psr⟩

end BuilderForge
