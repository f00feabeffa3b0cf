import BuilderForge.Proofs.PageRows
import BuilderForge.Proofs.Scan
/-
  Pages of harmless parts.

  If the names of a namespace and of a class are plain, and so are the types
  and the bodies of its methods, and if every default is harmless, then the page
  has the braces of its layout and no others: one pair for the class and one
  for each method in it. The proof goes the way the page is made. Shortening
  puts in nothing but separators and labels of imports, so every text on a row
  is harmless (`harmless_headRows`, `plain_shortenLine`); a method is a block of
  such rows, and the class is a block of methods (`IsNested.block`).
-/

namespace BuilderForge

open Code (Row Fragment)
open Php (Balanced Flat Harmless Plain)

/-- The alternatives of a type are plain, blanks around them apart. -/
def TypeHint.IsPlain (ty : TypeHint) : Prop :=
  ∀ part ∈ Text.pieces '|' ty.name, Plain (Text.trim part)

namespace Php

/-- A parameter that can be printed without harm. -/
structure Parameter.IsHarmless (p : Parameter) : Prop where
  name : Plain p.name
  type : ∀ ty, p.type = some ty → ty.IsPlain
  default : ∀ code, p.default = some code → Harmless code

/-- A method that can be printed without harm. -/
structure Method.IsHarmless (m : Method) : Prop where
  name : Plain m.name
  params : ∀ p ∈ m.params, p.IsHarmless
  returns : ∀ ty, m.returns = some ty → ty.IsPlain
  body : ∀ line ∈ m.body, Plain line

/-- A class that can be printed without harm. -/
structure Class.IsHarmless (c : Class) : Prop where
  name : Plain c.name
  implements : ∀ n ∈ c.implements, Plain n
  properties : ∀ p ∈ c.properties, Plain p.name
  methods : ∀ m ∈ c.methods, m.IsHarmless

/-- A namespace whose name and imports are plain. -/
structure Namespace.IsPlain (ns : Namespace) : Prop where
  name : Plain ns.name
  imports : ∀ i ∈ ns.imports, Plain i.label ∧ Plain i.name

/-! ## Blocks -/

theorem flat_lineEnd : Flat ['\n'] := flat_singleton (by decide) (by decide)

theorem flat_margin {unit : Text} (hunit : Flat unit) (depth : Nat) :
    Flat (List.replicate depth unit).flatten := by
  induction depth with
  | zero => exact flat_nil
  | succ depth ih =>
    rw [List.replicate_succ, List.flatten_cons]
    exact hunit.append ih

theorem flat_line {unit : Text} (hunit : Flat unit) {r : Row} (hr : Flat r.text) :
    Flat (r.line unit) := (flat_margin hunit r.depth).append hr

theorem flat_printRows {unit : Text} (hunit : Flat unit) {rows : List Row}
    (h : ∀ r ∈ rows, Harmless r.text) : Flat (Code.printRows unit rows) := by
  induction rows with
  | nil => exact flat_nil
  | cons r rows ih =>
    have hline := flat_line hunit (h r List.mem_cons_self).flat
    have hrest := ih fun s hs => h s (List.mem_cons_of_mem _ hs)
    rw [Code.printRows_cons]
    exact hline.append (flat_lineEnd.append hrest)

/-- Rows without control characters, whose lines have `n` pairs of braces
outside literals, at most `height` deep. -/
structure IsNested (unit : Text) (n height : Nat) (rows : List Row) : Prop where
  balanced : Balanced n height (Code.printRows unit rows)
  clean : ∀ r ∈ rows, ∀ c ∈ r.text, isControl c = false

namespace IsNested

variable {unit : Text} {n k height : Nat} {rows rows' : List Row}

theorem append (h : IsNested unit n height rows) (h' : IsNested unit k height rows') :
    IsNested unit (n + k) height (rows ++ rows') := by
  constructor
  · rw [Code.printRows_append]
    exact h.balanced.append h'.balanced
  · intro r hr
    rcases List.mem_append.1 hr with hr | hr
    · exact h.clean r hr
    · exact h'.clean r hr

theorem of_harmless (hunit : Flat unit) (h : ∀ r ∈ rows, Harmless r.text) :
    IsNested unit 0 height rows where
  balanced := (flat_printRows hunit h).mono (Nat.zero_le height)
  clean r hr := (h r hr).clean

theorem harmless_append (hunit : Flat unit) (h : ∀ r ∈ rows, Harmless r.text)
    (h' : IsNested unit n height rows') : IsNested unit n height (rows ++ rows') := by
  have hall := (of_harmless hunit h).append h'
  rwa [Nat.zero_add] at hall

/-- A block: a row that ends in a brace, the rows of the body, and a row with
the other brace. -/
theorem block (hunit : Flat unit) (depth : Nat) {before : Text} (hbefore : Plain before)
    (h : IsNested unit n height rows) :
    IsNested unit (n + 1) (height + 1)
      (⟨depth, before ++ ['\x7b']⟩ :: (rows ++ [⟨depth, ['\x7d']⟩])) := by
  have hbrace (c : Char) (hc : isControl c = false) : ∀ d ∈ [c], isControl d = false := by
    intro d hd
    rwa [List.mem_singleton.1 hd]
  constructor
  · -- the margin of the last row stands between the braces
    have hmargin := flat_margin hunit depth
    have hbetween : Balanced n height
        ('\n' :: (Code.printRows unit rows ++ (List.replicate depth unit).flatten)) :=
      Balanced.flat_append flat_lineEnd (h.balanced.append_flat hmargin)
    have hall := ((hmargin.append (flat_of_plain hbefore)).flat_append hbetween.braces).append_flat
      flat_lineEnd
    have heq : Code.printRows unit (⟨depth, before ++ ['\x7b']⟩ :: (rows ++ [⟨depth, ['\x7d']⟩])) =
        (List.replicate depth unit).flatten ++ before ++
          '\x7b' :: ('\n' :: (Code.printRows unit rows ++ (List.replicate depth unit).flatten) ++
            ['\x7d']) ++ ['\n'] := by
      simp [Row.line]
    rw [heq]
    exact hall
  · intro r hr
    rcases List.mem_cons.1 hr with rfl | hr
    · intro c hc
      rcases List.mem_append.1 hc with hc | hc
      · exact (Harmless.of_plain hbefore).clean c hc
      · exact hbrace _ (by decide) c hc
    rcases List.mem_append.1 hr with hr | hr
    · exact h.clean r hr
    · rw [List.mem_singleton.1 hr]
      exact hbrace _ (by decide)

end IsNested

namespace Namespace

variable {ns : Namespace} (hns : ns.IsPlain)
include hns

/-! ## Texts on rows -/

theorem plain_of_shortened {name short : Text} (hname : Plain name)
    (h : ∀ c ∈ short, c ∈ name ∨ c = Name.separator ∨ ∃ i ∈ ns.imports, c ∈ i.label) :
    Plain short := by
  intro c hc
  rcases h c hc with hc | rfl | ⟨i, hi, hc⟩
  · exact hname c hc
  · decide
  · exact (hns.imports i hi).1 c hc

theorem plain_shorten {name short : Text} (hname : Plain name) (h : ns.shorten name = some short) :
    Plain short := plain_of_shortened hns hname fun _ hc => mem_of_shorten h hc

theorem plain_shortenLine {line short : Text} (hline : Plain line)
    (h : ns.shortenLine line = some short) : Plain short :=
  plain_of_shortened hns hline fun _ hc => mem_of_shortenLine h hc

theorem plain_typeText {ty : TypeHint} {t : Text} (hty : ty.IsPlain) (h : ns.typeText ty = some t) :
    Plain t := by
  obtain ⟨parts, hparts, mark, ending, hmark, hending, rfl⟩ := typeText_eq_some h
  have hjoined : Plain (Text.join ['|'] parts) := by
    refine Plain.join (by decide) fun p hp => ?_
    obtain ⟨part, hpart, hshort⟩ := exists_of_mem_mapM hparts hp
    exact plain_shorten hns (hty part hpart) hshort
  have hmark : Plain mark := by rcases hmark with rfl | rfl <;> decide
  have hending : Plain ending := by rcases hending with rfl | rfl <;> decide
  exact (hmark.append hjoined).append hending

theorem harmless_parameterText {p : Parameter} {t : Text} (hp : p.IsHarmless)
    (h : ns.parameterText p = some t) : Harmless t := by
  obtain ⟨type, htype, rfl⟩ := parameterText_eq_some h
  have hplain : Plain type := by
    rcases htype with ⟨-, rfl⟩ | ⟨ty, printed, hty, hprinted, rfl⟩
    · decide
    · exact (plain_typeText hns (hp.type ty hty) hprinted).append (by decide)
  have hdefault : Harmless ((p.default.map fun code => " = ".toList ++ code).getD []) := by
    cases hd : p.default with
    | none => exact Harmless.nil
    | some code => exact (Harmless.of_plain (by decide)).append (hp.default code hd)
  have hname : Harmless ('$' :: p.name) := .cons (by decide) (.of_plain hp.name)
  exact ((Harmless.of_plain hplain).append hname).append hdefault

theorem plain_returnText {m : Method} {t : Text} (hm : m.IsHarmless) (h : ns.returnText m = some t) :
    Plain t := by
  rw [returnText] at h
  split at h
  · rename_i ty hty
    obtain ⟨printed, hprinted, rfl⟩ := Option.map_eq_some_iff.1 h
    have hcolon : Plain [':', ' '] := by decide
    exact hcolon.append (plain_typeText hns (hm.returns ty hty) hprinted)
  · cases h
    decide

theorem plain_bodyRows {body : List Text} {code : List Fragment} (hbody : ∀ line ∈ body, Plain line)
    (h : body.mapM ns.bodyLine = some code) {depth : Nat} :
    ∀ r ∈ Fragment.rowsAll depth code, Plain r.text := by
  induction body generalizing code with
  | nil =>
    rw [List.mapM_nil] at h
    cases h
    intro r hr
    cases hr
  | cons line body ih =>
    rw [List.mapM_cons] at h
    obtain ⟨f, hf, h⟩ := Option.bind_eq_some_iff.1 h
    obtain ⟨rest, hrest, h⟩ := Option.bind_eq_some_iff.1 h
    cases h
    intro r hr
    rw [Fragment.rowsAll, List.mem_append] at hr
    rcases hr with hr | hr
    · rw [bodyLine] at hf
      split at hf
      · cases hf
        rw [List.mem_singleton.1 hr]
        decide
      · obtain ⟨short, hshort, rfl⟩ := Option.map_eq_some_iff.1 hf
        rw [List.mem_singleton.1 hr]
        exact plain_shortenLine hns (hbody line List.mem_cons_self) hshort
    · exact ih (fun l hl => hbody l (List.mem_cons_of_mem _ hl)) hrest r hr

omit hns in
theorem harmless_headRows {depth : Nat} {head returns : Text} {params : List Text}
    (hhead : Plain head) (hparams : ∀ p ∈ params, Harmless p) (hreturns : Plain returns) :
    ∀ r ∈ headRows depth head params returns, Harmless r.text := by
  have hparen : Plain ['('] := by decide
  have hclose : Plain [')'] := by decide
  have hcomma : Harmless [','] := .of_plain (by decide)
  unfold headRows
  split
  · intro r hr
    rcases List.mem_cons.1 hr with rfl | hr
    · exact .of_plain (hhead.append hparen)
    · obtain ⟨-, p, hp, h | h⟩ := mem_rowsAll_parameterLines hr
      · rw [h]
        exact hparams p hp
      · rw [h]
        exact (hparams p hp).append hcomma
  · intro r hr
    rw [List.mem_singleton.1 hr]
    have hlist : Harmless (Text.join [',', ' '] params) := .join (.of_plain (by decide)) hparams
    exact ((Harmless.of_plain hhead).append (.cons (by decide) hlist)).append
      (.of_plain (hclose.append hreturns))

omit hns in
theorem plain_methodHead {m : Method} (hm : m.IsHarmless) : Plain (methodHead m) := by
  have hfinal : Plain (if m.isFinal then "final ".toList else []) := by split <;> decide
  have hkeyword : Plain (keyword m.visibility) := by cases m.visibility <;> decide
  exact ((hfinal.append hkeyword).append (by decide)).append hm.name

/-! ## Methods and pages -/

/-- A method is one block of harmless rows. -/
theorem isNested_methodCode {m : Method} {code : List Fragment} (hm : m.IsHarmless)
    (h : ns.methodCode m = some code) {unit : Text} (hunit : Flat unit) (depth : Nat) :
    IsNested unit 1 1 (Fragment.rowsAll depth code) := by
  obtain ⟨params, returns, body, hparams, hreturns, hbody, hrows⟩ := rowsAll_methodCode h depth
  have hheads : ∀ r ∈ headRows depth (methodHead m) params returns, Harmless r.text := by
    refine harmless_headRows (plain_methodHead hm) (fun t ht => ?_) (plain_returnText hns hm hreturns)
    obtain ⟨p, hp, hpt⟩ := exists_of_mem_mapM hparams ht
    exact harmless_parameterText hns (hm.params p hp) hpt
  have hbefore : Plain (beforeBody params returns) := by
    have hclose : Plain [')'] := by decide
    unfold beforeBody
    split
    · exact (hclose.append (plain_returnText hns hm hreturns)).append (by decide)
    · decide
  have hlines : ∀ r ∈ Fragment.rowsAll (depth + 1) body, Harmless r.text := fun r hr =>
    .of_plain (plain_bodyRows hns hm.body hbody r hr)
  rw [hrows]
  exact .harmless_append hunit hheads (.block hunit depth hbefore (.of_harmless hunit hlines))

omit hns in
theorem text_of_mem_blankRows {depth n : Nat} {r : Row}
    (hr : r ∈ Fragment.rowsAll depth (List.replicate n .blank)) : r.text = [] := by
  induction n with
  | zero => cases hr
  | succ n ih =>
    rw [List.replicate_succ, Fragment.rowsAll, List.mem_append] at hr
    rcases hr with hr | hr
    · rw [List.mem_singleton.1 hr]
    · exact ih hr

/-- Methods are as many blocks as they are. -/
theorem isNested_methodsCode {spacing : Nat} {isFirst : Bool} {ms : List Method}
    {code : List Fragment} (hms : ∀ m ∈ ms, m.IsHarmless)
    (h : ns.methodsCode spacing isFirst ms = some code) {unit : Text} (hunit : Flat unit)
    (depth : Nat) : IsNested unit ms.length 1 (Fragment.rowsAll depth code) := by
  induction ms generalizing isFirst code with
  | nil =>
    cases h
    exact .of_harmless hunit fun r hr => by cases hr
  | cons m ms ih =>
    obtain ⟨first, rest, hfirst, hrest, rfl⟩ := methodsCode_cons_eq_some h
    have hmethod := isNested_methodCode hns (hms m List.mem_cons_self) hfirst hunit depth
    have hmethods := ih (fun x hx => hms x (List.mem_cons_of_mem _ hx)) hrest
    have hblank (n : Nat) : ∀ r ∈ Fragment.rowsAll depth (List.replicate n .blank),
        Harmless r.text := by
      intro r hr
      rw [text_of_mem_blankRows hr]
      exact .nil
    rw [Fragment.rowsAll_append, Fragment.rowsAll_append, List.length_cons, Nat.add_comm]
    exact (IsNested.harmless_append hunit (hblank _) hmethod).append hmethods

theorem plain_preamble : ∀ r ∈ Fragment.rowsAll 0 ns.preamble, Plain r.text := by
  have hsemicolon : Plain [';'] := by decide
  have hname : Plain ("namespace ".toList ++ ns.name ++ [';']) :=
    (Plain.append (by decide) hns.name).append hsemicolon
  have huse : ∀ n ∈ ns.importedNames, Plain ("use ".toList ++ n ++ [';']) := by
    intro n hn
    obtain ⟨i, hi, rfl⟩ := List.mem_map.1 (List.mem_mergeSort.1 hn)
    exact (Plain.append (by decide) (hns.imports i hi).2).append hsemicolon
  have hopening : ∀ r ∈ [Row.mk 0 "<?php".toList, ⟨0, []⟩], Plain r.text := by decide
  have hblank : ∀ r ∈ [Row.mk 0 []], Plain r.text := by decide
  intro r hr
  rw [rowsAll_preamble, List.mem_append, List.mem_append] at hr
  rcases hr with (hr | hr) | hr
  · exact hopening r hr
  · split at hr
    · cases hr
    · rcases List.mem_cons.1 hr with rfl | hr
      · exact hname
      · exact hblank r hr
  · split at hr
    · cases hr
    · rcases List.mem_append.1 hr with hr | hr
      · obtain ⟨n, hn, rfl⟩ := List.mem_map.1 hr
        exact huse n hn
      · exact hblank r hr

theorem plain_headText {c : Class} (hc : c.IsHarmless) {interfaces : List Text}
    (h : c.implements.mapM ns.shorten = some interfaces) : Plain (headText c interfaces) := by
  have hname : Plain ("class ".toList ++ c.name) := Plain.append (by decide) hc.name
  have hlist : Plain (Text.join [',', ' '] interfaces) := by
    refine Plain.join (by decide) fun t ht => ?_
    obtain ⟨n, hn, hshort⟩ := exists_of_mem_mapM h ht
    exact plain_shorten hns (hc.implements n hn) hshort
  refine hname.append ?_
  split
  · decide
  · exact Plain.append (by decide) hlist

omit hns in
theorem plain_propertyRows {ps : List Property} (h : ∀ p ∈ ps, Plain p.name) {depth : Nat} :
    ∀ r ∈ Fragment.rowsAll depth (ps.map propertyCode), Plain r.text := by
  have heq : ps.map propertyCode =
      (ps.map fun p => keyword p.visibility ++ " $".toList ++ p.name ++ [';']).map .line := by
    rw [List.map_map]
    rfl
  rw [heq, Fragment.rowsAll_map_line]
  intro r hr
  obtain ⟨t, ht, rfl⟩ := List.mem_map.1 hr
  obtain ⟨p, hp, rfl⟩ := List.mem_map.1 ht
  have hkeyword : Plain (keyword p.visibility) := by cases p.visibility <;> decide
  exact ((hkeyword.append (by decide)).append (h p hp)).append (by decide)

/-- The page of a class is one block around the blocks of the methods. -/
theorem isNested_pageRows {c : Class} (hc : c.IsHarmless) {interfaces : List Text}
    {methods : List Fragment} (hinterfaces : c.implements.mapM ns.shorten = some interfaces)
    {spacing : Nat} (hmethods : ns.methodsCode spacing (c.properties = []) c.methods = some methods)
    {unit : Text} (hunit : Flat unit) :
    IsNested unit (c.methods.length + 1) 2 (ns.pageRows c interfaces methods) := by
  have hproperties : ∀ r ∈ Fragment.rowsAll 1 (c.properties.map propertyCode), Harmless r.text :=
    fun r hr => .of_plain (plain_propertyRows hc.properties r hr)
  have hmembers : IsNested unit c.methods.length 1
      (Fragment.rowsAll 1 (c.properties.map propertyCode ++ methods)) := by
    rw [Fragment.rowsAll_append]
    exact .harmless_append hunit hproperties (isNested_methodsCode hns hc.methods hmethods hunit 1)
  have hheads : ∀ r ∈ Fragment.rowsAll 0 ns.preamble ++ [⟨0, headText c interfaces⟩],
      Harmless r.text := by
    intro r hr
    rcases List.mem_append.1 hr with hr | hr
    · exact .of_plain (plain_preamble hns r hr)
    · rw [List.mem_singleton.1 hr]
      exact .of_plain (plain_headText hns hc hinterfaces)
  have hrows : ns.pageRows c interfaces methods =
      Fragment.rowsAll 0 ns.preamble ++ [⟨0, headText c interfaces⟩] ++ ⟨0, [] ++ ['\x7b']⟩ ::
        (Fragment.rowsAll 1 (c.properties.map propertyCode ++ methods) ++ [⟨0, ['\x7d']⟩]) := by
    rw [List.append_assoc]
    rfl
  rw [hrows]
  exact .harmless_append hunit hheads (.block hunit 0 (by decide) hmembers)

end Namespace

end Php

end BuilderForge
