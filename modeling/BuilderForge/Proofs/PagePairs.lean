import Mathlib.Data.List.Forall2
import BuilderForge.Proofs.Alternatives
import BuilderForge.Proofs.ConstantDefaults
import BuilderForge.Proofs.Dependence
/-
  Pages that differ in the types of parameters only.

  Two classes whose methods match up to whether the types of their parameters
  accept `null` are printed as one page if every parameter is, and only then:
  `page_eq_iff`. The lines of both pages are compared from the top. A method
  takes the same lines on both as long as its parameters are printed alike, so
  the first line that differs is in the head of a method, and there the first
  dollar sign that stands differently tells the parameters apart.
-/

namespace BuilderForge

namespace Php

open Code (Row Fragment)

/-- Whether two parameters are the same but for the `null` that their types accept. -/
structure Parameter.Matches (p q : Parameter) : Prop where
  name : p.name = q.name
  type : p.type.map TypeHint.name = q.type.map TypeHint.name
  default : p.default = q.default

/-- Whether two methods are the same but for the `null` that the types of their
parameters accept. -/
structure Method.Matches (m n : Method) : Prop where
  name : m.name = n.name
  visibility : m.visibility = n.visibility
  isFinal : m.isFinal = n.isFinal
  params : List.Forall₂ Parameter.Matches m.params n.params
  returns : m.returns = n.returns
  body : m.body = n.body

theorem Parameter.Matches.refl (p : Parameter) : p.Matches p := ⟨rfl, rfl, rfl⟩

theorem Method.Matches.refl (m : Method) : m.Matches m :=
  ⟨rfl, rfl, rfl, List.forall₂_same.2 fun p _ => .refl p, rfl, rfl⟩

theorem Method.Matches.eq_of_params {m n : Method} (h : m.Matches n) (hparams : m.params = n.params) :
    m = n := by
  obtain ⟨hname, hvisibility, hfinal, -, hreturns, hbody⟩ := h
  cases m
  cases n
  simp_all

/-! ## Parameter lists -/

/-- Whether two texts are the same from the first dollar sign on. -/
def SameBehind (t u : Text) : Prop :=
  ∃ before before' rest, t = before ++ '$' :: rest ∧ u = before' ++ '$' :: rest ∧
    '$' ∉ before ∧ '$' ∉ before'

theorem SameBehind.eq_of_append {t u x y : Text} (h : SameBehind t u) (heq : t ++ x = u ++ y) :
    t = u ∧ x = y := by
  obtain ⟨before, before', rest, rfl, rfl, hbefore, hbefore'⟩ := h
  rw [List.append_assoc, List.append_assoc, List.cons_append, List.cons_append] at heq
  obtain ⟨rfl, hrest⟩ := Text.eq_of_append_cons hbefore hbefore' heq
  exact ⟨rfl, List.append_cancel_left hrest⟩

/-- Lists of such texts are told apart when they are written one behind the other. -/
theorem eq_of_join_append {sep : Text} {ts us : List Text} (h : List.Forall₂ SameBehind ts us)
    {x y : Text} (heq : Text.join sep ts ++ x = Text.join sep us ++ y) : ts = us ∧ x = y := by
  induction h with
  | nil => exact ⟨rfl, heq⟩
  | @cons t u ts us hhead htail ih =>
    cases htail with
    | nil =>
      rw [Text.join_singleton, Text.join_singleton] at heq
      obtain ⟨rfl, rfl⟩ := hhead.eq_of_append heq
      exact ⟨rfl, rfl⟩
    | cons hsecond hrest =>
      rw [Text.join_cons_cons, Text.join_cons_cons] at heq
      simp only [List.append_assoc] at heq
      obtain ⟨rfl, hrest⟩ := hhead.eq_of_append heq
      obtain ⟨hts, rfl⟩ := ih (List.append_cancel_left hrest)
      exact ⟨by rw [hts], rfl⟩

namespace Namespace

/-- The lines of parameters tell their texts. -/
theorem eq_of_parameterLines {depth : Nat} {unit : Text} : ∀ {ts us : List Text} {x y : List Text},
    ts.length = us.length →
    (Fragment.rowsAll depth (parameterLines ts)).map (Row.line unit) ++ x =
      (Fragment.rowsAll depth (parameterLines us)).map (Row.line unit) ++ y → ts = us ∧ x = y
  | [], [], _, _, _, h => ⟨rfl, h⟩
  | [t], [u], _, _, _, h => by
    obtain ⟨hline, hrest⟩ := List.cons.inj h
    have ht : t = u := List.append_cancel_left hline
    rw [ht]
    exact ⟨rfl, hrest⟩
  | t :: t' :: ts, u :: u' :: us, _, _, hlength, h => by
    obtain ⟨hline, h⟩ := List.cons.inj h
    obtain ⟨hts, rfl⟩ := eq_of_parameterLines (Nat.succ.inj hlength) h
    rw [List.append_cancel_right (List.append_cancel_left hline), hts]
    exact ⟨rfl, rfl⟩

/-- The lines of a head tell the texts of its parameters. -/
theorem eq_of_headRows {depth : Nat} {unit head returns : Text} {ts us : List Text}
    (h : List.Forall₂ SameBehind ts us) {x y : List Text}
    (heq : (headRows depth head ts returns).map (Row.line unit) ++ x =
      (headRows depth head us returns).map (Row.line unit) ++ y) : ts = us ∧ x = y := by
  unfold headRows at heq
  split at heq <;> split at heq
  · obtain ⟨-, heq⟩ := List.cons.inj heq
    exact eq_of_parameterLines h.length_eq heq
  · -- the head of a wrapped list ends at the bracket
    obtain ⟨hline, -⟩ := List.cons.inj heq
    have hlength := congrArg List.length (List.append_cancel_left hline)
    simp at hlength
  · obtain ⟨hline, -⟩ := List.cons.inj heq
    have hlength := congrArg List.length (List.append_cancel_left hline)
    simp at hlength
  · obtain ⟨hline, rfl⟩ := List.cons.inj heq
    have hline := List.append_cancel_left hline
    simp only [List.append_assoc] at hline
    obtain ⟨-, hline⟩ := List.cons.inj (List.append_cancel_left hline)
    exact ⟨(eq_of_join_append h hline).1, rfl⟩

/-! ## Methods -/

variable {ns : Namespace}

/-- Whether the parameters of two methods are printed alike. -/
structure PrintsAlike (ns : Namespace) (m n : Method) : Prop where
  isMatch : m.Matches n
  params : m.params.map ns.parameterText = n.params.map ns.parameterText

theorem PrintsAlike.refl (ns : Namespace) (m : Method) : ns.PrintsAlike m m := ⟨.refl m, rfl⟩

theorem PrintsAlike.methodCode {m n : Method} (h : ns.PrintsAlike m n) :
    ns.methodCode m = ns.methodCode n := by
  have hhead : methodHead m = methodHead n := by
    rw [methodHead, methodHead, h.isMatch.isFinal, h.isMatch.visibility, h.isMatch.name]
  have hparams : m.params.mapM ns.parameterText = n.params.mapM ns.parameterText := by
    ext ts
    rw [mapM_eq_some_iff, mapM_eq_some_iff, h.params]
  have hreturns : ns.returnText m = ns.returnText n := by
    rw [returnText, returnText, h.isMatch.returns]
  rw [Namespace.methodCode, Namespace.methodCode, hparams, hreturns, h.isMatch.body, hhead]

theorem methodsCode_congr {spacing : Nat} {ms ms' : List Method}
    (h : List.Forall₂ ns.PrintsAlike ms ms') (isFirst : Bool) :
    ns.methodsCode spacing isFirst ms = ns.methodsCode spacing isFirst ms' := by
  induction h generalizing isFirst with
  | nil => rfl
  | cons hhead _ ih => rw [methodsCode, methodsCode, hhead.methodCode, ih]

/-- No dollar sign is printed in a type. -/
theorem IsMade.dollar_notMem_typeText (h : ns.IsMade) {ty : TypeHint}
    (hlist : Name.isTypeList ty.name) {printed : Text} (hprinted : ns.typeText ty = some printed) :
    '$' ∉ printed := by
  obtain ⟨parts, hparts, mark, ending, hmark, hending, rfl⟩ := typeText_eq_some hprinted
  have hname {part : Text} (hpart : part ∈ parts) : '$' ∉ part := by
    obtain ⟨piece, hpiece, hshort⟩ := exists_of_mem_mapM hparts hpart
    have hpath := h.isPath_shorten (List.all_eq_true.1 hlist piece hpiece) hshort
    intro hc
    cases Name.isNameChar_of_mem_name hpath hc
  simp only [List.mem_append, not_or]
  refine ⟨⟨?_, fun hjoin => ?_⟩, ?_⟩
  · rcases hmark with rfl | rfl <;> decide
  · obtain hc | ⟨part, hpart, hc⟩ := Text.mem_join hjoin
    · exact absurd hc (by decide)
    · exact hname hpart hc
  · rcases hending with rfl | rfl <;> decide

/-- Parameters that match are printed alike from the dollar sign on. -/
theorem IsMade.sameBehind (h : ns.IsMade) {p q : Parameter} (hmatches : p.Matches q)
    (hlist : ∀ ty, p.type = some ty → Name.isTypeList ty.name) {t u : Text}
    (ht : ns.parameterText p = some t) (hu : ns.parameterText q = some u) : SameBehind t u := by
  have hfree {p : Parameter} {type : Text} (hlist : ∀ ty, p.type = some ty → Name.isTypeList ty.name)
      (htype : p.type = none ∧ type = [] ∨ ∃ ty printed, p.type = some ty ∧
        ns.typeText ty = some printed ∧ type = printed ++ [' ']) : '$' ∉ type := by
    obtain ⟨-, rfl⟩ | ⟨ty, printed, hty, hprinted, rfl⟩ := htype
    · exact List.not_mem_nil
    · have hprinted := h.dollar_notMem_typeText (hlist ty hty) hprinted
      simpa using hprinted
  have hlist' : ∀ ty, q.type = some ty → Name.isTypeList ty.name := by
    intro ty hty
    have hname := hmatches.type
    rw [hty] at hname
    obtain ⟨ty', hty', hname⟩ := Option.map_eq_some_iff.1 hname
    rw [← hname]
    exact hlist ty' hty'
  obtain ⟨type, htype, rfl⟩ := parameterText_eq_some ht
  obtain ⟨type', htype', rfl⟩ := parameterText_eq_some hu
  refine ⟨type, type', p.name ++ (p.default.map fun code => " = ".toList ++ code).getD [], ?_, ?_,
    hfree hlist htype, hfree hlist' htype'⟩
  · rw [List.append_assoc, List.cons_append]
  · rw [List.append_assoc, List.cons_append, hmatches.name, hmatches.default]

theorem IsMade.forall₂_sameBehind (h : ns.IsMade) {ps qs : List Parameter}
    (hmatches : List.Forall₂ Parameter.Matches ps qs)
    (hlist : ∀ p ∈ ps, ∀ ty, p.type = some ty → Name.isTypeList ty.name) {ts us : List Text}
    (ht : ps.mapM ns.parameterText = some ts) (hu : qs.mapM ns.parameterText = some us) :
    List.Forall₂ SameBehind ts us := by
  rw [mapM_eq_some_iff] at ht hu
  induction hmatches generalizing ts us with
  | nil =>
    cases List.map_eq_nil_iff.1 ht.symm
    cases List.map_eq_nil_iff.1 hu.symm
    exact .nil
  | cons hhead _ ih =>
    obtain ⟨t, ts, rfl, hthead, httail⟩ := List.map_eq_cons_iff.1 ht.symm
    obtain ⟨u, us, rfl, huhead, hutail⟩ := List.map_eq_cons_iff.1 hu.symm
    exact .cons (h.sameBehind hhead (hlist _ List.mem_cons_self) hthead.symm huhead.symm)
      (ih (fun p hp => hlist p (List.mem_cons_of_mem _ hp)) httail.symm hutail.symm)

/-- The lines of a method tell how its parameters are printed. -/
theorem IsMade.eq_of_methodCode (h : ns.IsMade) {m n : Method} (hmatches : m.Matches n)
    (hlist : ∀ p ∈ m.params, ∀ ty, p.type = some ty → Name.isTypeList ty.name)
    {code code' : List Fragment} (hcode : ns.methodCode m = some code)
    (hcode' : ns.methodCode n = some code') {depth : Nat} {unit : Text} {x y : List Text}
    (heq : (Fragment.rowsAll depth code).map (Row.line unit) ++ x =
      (Fragment.rowsAll depth code').map (Row.line unit) ++ y) : ns.PrintsAlike m n ∧ x = y := by
  obtain ⟨ts, returns, body, hts, hreturns, hbody, hrows⟩ := rowsAll_methodCode hcode depth
  obtain ⟨us, returns', body', hus, hreturns', hbody', hrows'⟩ := rowsAll_methodCode hcode' depth
  have hhead : methodHead n = methodHead m := by
    rw [methodHead, methodHead, hmatches.isFinal, hmatches.visibility, hmatches.name]
  have hsame : returns' = returns := by
    rw [returnText, ← hmatches.returns] at hreturns'
    exact Option.some_inj.1 (hreturns'.symm.trans hreturns)
  cases (hmatches.body ▸ hbody).symm.trans hbody'
  rw [hrows, hrows', hhead, hsame, List.map_append, List.map_append, List.append_assoc,
    List.append_assoc] at heq
  obtain ⟨rfl, heq⟩ := eq_of_headRows (h.forall₂_sameBehind hmatches.params hlist hts hus) heq
  rw [mapM_eq_some_iff] at hts hus
  exact ⟨⟨hmatches, hts.trans hus.symm⟩, List.append_cancel_left heq⟩

/-- The lines of methods tell how their parameters are printed. -/
theorem IsMade.printsAlike_of_methodsCode (h : ns.IsMade) {spacing depth : Nat} {unit : Text}
    {ms ms' : List Method} (hmatches : List.Forall₂ Method.Matches ms ms')
    (hlist : ∀ m ∈ ms, ∀ p ∈ m.params, ∀ ty, p.type = some ty → Name.isTypeList ty.name)
    {isFirst : Bool} {code code' : List Fragment}
    (hcode : ns.methodsCode spacing isFirst ms = some code)
    (hcode' : ns.methodsCode spacing isFirst ms' = some code') {x y : List Text}
    (heq : (Fragment.rowsAll depth code).map (Row.line unit) ++ x =
      (Fragment.rowsAll depth code').map (Row.line unit) ++ y) :
    List.Forall₂ ns.PrintsAlike ms ms' := by
  induction hmatches generalizing isFirst code code' with
  | nil => exact .nil
  | cons hhead _ ih =>
    obtain ⟨first, rest, hfirst, hrest, rfl⟩ := methodsCode_cons_eq_some hcode
    obtain ⟨first', rest', hfirst', hrest', rfl⟩ := methodsCode_cons_eq_some hcode'
    rw [Fragment.rowsAll_append, Fragment.rowsAll_append, Fragment.rowsAll_append,
      Fragment.rowsAll_append, List.map_append, List.map_append, List.map_append, List.map_append,
      List.append_assoc, List.append_assoc, List.append_assoc, List.append_assoc] at heq
    obtain ⟨halike, heq⟩ := h.eq_of_methodCode hhead (hlist _ List.mem_cons_self) hfirst hfirst'
      (List.append_cancel_left heq)
    exact .cons halike (ih (fun m hm => hlist m (List.mem_cons_of_mem _ hm)) hrest hrest' heq)

/-! ## Pages -/

/-- How a method is printed does not depend on the classes of the namespace. -/
theorem methodsCode_addClass (ns : Namespace) (c : Class) (spacing : Nat) (isFirst : Bool)
    (ms : List Method) :
    (ns.addClass c).methodsCode spacing isFirst ms = ns.methodsCode spacing isFirst ms := by
  have hmethod (m : Method) : (ns.addClass c).methodCode m = ns.methodCode m := rfl
  induction ms generalizing isFirst with
  | nil => rfl
  | cons m ms ih => rw [methodsCode, methodsCode, hmethod, ih]

/-- Classes whose methods are printed alike are printed alike. -/
theorem page_congr (hns : ns.classes = []) {c d : Class} (hname : c.name = d.name)
    (himplements : c.implements = d.implements) (hproperties : c.properties = d.properties)
    (h : List.Forall₂ ns.PrintsAlike c.methods d.methods) (layout : Layout) :
    (ns.addClass c).page layout = (ns.addClass d).page layout := by
  have hhead : (ns.addClass c).classHead c = (ns.addClass d).classHead d := by
    rw [classHead, classHead, hname, himplements]
    rfl
  have hcode : (ns.addClass c).classCode layout.spacing c =
      (ns.addClass d).classCode layout.spacing d := by
    rw [classCode, classCode, hhead, methodsCode_addClass, methodsCode_addClass, hproperties,
      methodsCode_congr h]
  have hclasses (e : Class) : (ns.addClass e).classes = [e] := by
    rw [addClass, hns, List.nil_append]
  have hpreamble : (ns.addClass c).preamble = (ns.addClass d).preamble := rfl
  rw [page, page, pageCode, pageCode, hclasses, hclasses, classesCode, classesCode, hcode, hpreamble]

end Namespace

end Php

namespace Builder

open Code (Row Fragment)

variable {b b' : Builder}

/-- The namespace of a builder before its class is put in. -/
def opening (b : Builder) : Php.Namespace :=
  (Php.Namespace.named b.entity.scope).addImport b.entity.scope

theorem isMade_opening (b : Builder) : b.opening.IsMade := .addImport (.named _) _

theorem classes_opening (b : Builder) : b.opening.classes = [] := by
  unfold opening Php.Namespace.addImport
  dsimp only
  split <;> rfl

/-- Builders whose methods are printed alike have one page. -/
theorem page_congr (hname : b.entity.name = b'.entity.name) (hmarker : b.marker = b'.marker)
    (h : List.Forall₂ b.opening.PrintsAlike b.toClass.methods b'.toClass.methods)
    (layout : Php.Layout) : b.page layout = b'.page layout := by
  have hopening : b.opening = b'.opening := by rw [opening, opening, scope_congr hname]
  have hpage : (b.opening.addClass b.toClass).page layout =
      (b.opening.addClass b'.toClass).page layout := by
    obtain ⟨hclass, himplements, hproperties⟩ := b.fields_toClass
    obtain ⟨hclass', himplements', hproperties'⟩ := b'.fields_toClass
    apply Php.Namespace.page_congr b.classes_opening _ _ _ h
    · rw [hclass, hclass', shortName_congr hname]
    · rw [himplements, himplements', hmarker]
    · rw [hproperties, hproperties']
  have hpage : b.toNamespace.page layout = b'.toNamespace.page layout := by
    show (b.opening.addClass b.toClass).page layout = (b'.opening.addClass b'.toClass).page layout
    rw [← hopening, hpage]
  unfold page
  simp only [hpage]

/-- Builders whose methods match have one page only if the methods are printed alike. -/
theorem IsWellFormed.printsAlike_of_page (hb : b.IsWellFormed) (hb' : b'.IsWellFormed)
    (hname : b.entity.name = b'.entity.name) (hmarker : b.marker = b'.marker)
    (h : List.Forall₂ Php.Method.Matches b.toClass.methods b'.toClass.methods) (style : Style)
    (heq : b.page style.layout = b'.page style.layout) :
    List.Forall₂ b.opening.PrintsAlike b.toClass.methods b'.toClass.methods := by
  obtain ⟨interfaces, methods, hinterfaces, hmethods, -, -, hlines⟩ := hb.rows_page style
  obtain ⟨interfaces', methods', hinterfaces', hmethods', -, -, hlines'⟩ := hb'.rows_page style
  obtain ⟨hclass, himplements, hproperties⟩ := b.fields_toClass
  obtain ⟨hclass', himplements', hproperties'⟩ := b'.fields_toClass
  have hopening : b'.toNamespace = b.opening.addClass b'.toClass := by
    rw [toNamespace, opening, scope_congr hname]
  have hshorten : b'.toNamespace.shorten = b.toNamespace.shorten := by
    rw [hopening]
    rfl
  have hpreamble : b'.toNamespace.preamble = b.toNamespace.preamble := by
    rw [hopening]
    rfl
  rw [hshorten, ← hmarker] at hinterfaces'
  cases hinterfaces.symm.trans hinterfaces'
  -- what stands before the methods is the same
  have hrows : b'.toNamespace.pageRows b'.toClass interfaces methods' =
      b.toNamespace.pageRows b.toClass interfaces methods' := by
    have hhead : Php.Namespace.headText b'.toClass interfaces =
        Php.Namespace.headText b.toClass interfaces := by
      unfold Php.Namespace.headText
      rw [hclass, hclass', shortName_congr hname, himplements, himplements', hmarker]
    rw [Php.Namespace.pageRows, Php.Namespace.pageRows, hpreamble, hhead, hproperties, hproperties']
  rw [heq, hlines', hrows, Php.Namespace.pageRows, Php.Namespace.pageRows] at hlines
  simp only [Fragment.rowsAll_append, List.map_append, List.map_cons, List.append_assoc,
    List.append_cancel_left_eq, List.cons_append, List.cons.injEq, true_and] at hlines
  have hself : b.toNamespace = b.opening.addClass b.toClass := rfl
  rw [hself, hproperties, Php.Namespace.methodsCode_addClass] at hmethods
  rw [hopening, hproperties', Php.Namespace.methodsCode_addClass] at hmethods'
  exact b.isMade_opening.printsAlike_of_methodsCode h
    (fun m hm p hp ty hty => hb.isTypeList_of_mem_params hm hp hty) hmethods hmethods' hlines.symm

end Builder

end BuilderForge
