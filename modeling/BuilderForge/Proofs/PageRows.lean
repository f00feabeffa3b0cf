import BuilderForge.Php.Page
import BuilderForge.Proofs.Rows
import BuilderForge.Proofs.Shortening
/-
  The rows of a page.

  A page that exists is the text of its rows, and the rows are known: those of
  the preamble, the head of the class, a brace, the members one level deeper,
  and a brace. A method is the rows of its head (`headRows`), an opening brace,
  its body one level deeper, and a closing brace. Texts in which class names
  are shortened stand in these rows as the functions of the namespace give
  them, so what is proved of those texts holds of the page.
-/

namespace BuilderForge.Php

open Code (Row Fragment)

namespace Namespace

/-! ## Heads of methods -/

/-- The rows of a method's head. A wrapped parameter list has a row for each
parameter. -/
def headRows (depth : Nat) (head : Text) (params : List Text) (returns : Text) : List Row :=
  if isWrapped params then
    ⟨depth, head ++ ['(']⟩ :: Fragment.rowsAll (depth + 1) (parameterLines params)
  else [⟨depth, head ++ '(' :: Text.join [',', ' '] params ++ ')' :: returns⟩]

/-- What stands before the brace that opens a method's body. -/
def beforeBody (params : List Text) (returns : Text) : Text :=
  if isWrapped params then ')' :: returns ++ [' '] else []

theorem mem_rowsAll_parameterLines {depth : Nat} {r : Row} : ∀ {params : List Text},
    r ∈ Fragment.rowsAll depth (parameterLines params) →
      r.depth = depth ∧ ∃ p ∈ params, r.text = p ∨ r.text = p ++ [',']
  | [], h => by cases h
  | [p], h => by
    rw [List.mem_singleton.1 h]
    exact ⟨rfl, p, List.mem_cons_self, .inl rfl⟩
  | p :: q :: ps, h => by
    rw [parameterLines, Fragment.rowsAll, List.mem_append] at h
    rcases h with h | h
    · rw [List.mem_singleton.1 h]
      exact ⟨rfl, p, List.mem_cons_self, .inr rfl⟩
    · obtain ⟨hd, q', hq, h⟩ := mem_rowsAll_parameterLines h
      exact ⟨hd, q', List.mem_cons_of_mem _ hq, h⟩

/-! ## Types and parameters -/

variable {ns : Namespace}

/-- A printed type is its alternatives with bars between them, a question mark
before or `null` after them at most. -/
theorem typeText_eq_some {ty : TypeHint} {t : Text} (h : ns.typeText ty = some t) :
    ∃ parts, (Text.pieces '|' ty.name).mapM (fun part => ns.shorten (Text.trim part)) = some parts ∧
      ∃ mark ending, (mark = [] ∨ mark = ['?']) ∧ (ending = [] ∨ ending = "|null".toList) ∧
        t = mark ++ Text.join ['|'] parts ++ ending := by
  obtain ⟨parts, hparts, rfl⟩ := Option.map_eq_some_iff.1 h
  refine ⟨parts, hparts, ?_⟩
  simp only
  split
  · split
    · exact ⟨[], _, .inl rfl, .inr rfl, rfl⟩
    · exact ⟨['?'], [], .inr rfl, .inl rfl, by simp⟩
  · exact ⟨[], [], .inl rfl, .inl rfl, by simp⟩

theorem parameterText_eq_some {p : Parameter} {t : Text} (h : ns.parameterText p = some t) :
    ∃ type, (p.type = none ∧ type = [] ∨
        ∃ ty printed, p.type = some ty ∧ ns.typeText ty = some printed ∧ type = printed ++ [' ']) ∧
      t = type ++ '$' :: p.name ++ (p.default.map fun code => " = ".toList ++ code).getD [] := by
  rw [parameterText] at h
  split at h
  · rename_i ty hty
    obtain ⟨type, htype, h⟩ := Option.bind_eq_some_iff.1 h
    obtain ⟨printed, hprinted, rfl⟩ := Option.map_eq_some_iff.1 htype
    cases h
    exact ⟨_, .inr ⟨ty, printed, hty, hprinted, rfl⟩, by cases p.default <;> rfl⟩
  · rename_i hty
    cases h
    exact ⟨[], .inl ⟨hty, rfl⟩, by cases p.default <;> rfl⟩

/-! ## Methods and pages -/

/-- The rows of a method. -/
theorem rowsAll_methodCode {m : Method} {code : List Fragment} (h : ns.methodCode m = some code)
    (depth : Nat) : ∃ params returns body, m.params.mapM ns.parameterText = some params ∧
      ns.returnText m = some returns ∧ m.body.mapM ns.bodyLine = some body ∧
      Fragment.rowsAll depth code = headRows depth (methodHead m) params returns ++
        ⟨depth, beforeBody params returns ++ ['\x7b']⟩ ::
          (Fragment.rowsAll (depth + 1) body ++ [⟨depth, ['\x7d']⟩]) := by
  rw [methodCode] at h
  obtain ⟨params, hparams, h⟩ := Option.bind_eq_some_iff.1 h
  obtain ⟨returns, hreturns, h⟩ := Option.bind_eq_some_iff.1 h
  obtain ⟨body, hbody, h⟩ := Option.bind_eq_some_iff.1 h
  refine ⟨params, returns, body, hparams, hreturns, hbody, ?_⟩
  -- the head of a wrapped list ends on the line that opens the body
  unfold headRows beforeBody
  split at h
  · rename_i hw
    cases h
    rw [if_pos hw, if_pos hw]
    simp [Fragment.rowsAll, Fragment.rows]
  · rename_i hw
    cases h
    rw [if_neg hw, if_neg hw]
    simp [Fragment.rowsAll, Fragment.rows]

theorem methodsCode_cons_eq_some {spacing : Nat} {isFirst : Bool} {m : Method} {ms : List Method}
    {code : List Fragment} (h : ns.methodsCode spacing isFirst (m :: ms) = some code) :
    ∃ first rest, ns.methodCode m = some first ∧ ns.methodsCode spacing false ms = some rest ∧
      code = List.replicate (if isFirst then 0 else spacing) .blank ++ first ++ rest := by
  rw [methodsCode] at h
  obtain ⟨first, hfirst, h⟩ := Option.bind_eq_some_iff.1 h
  obtain ⟨rest, hrest, h⟩ := Option.bind_eq_some_iff.1 h
  cases h
  refine ⟨first, rest, hfirst, hrest, ?_⟩
  cases isFirst <;> rfl

/-- The rows of each method stand one after the other among the rows of all. -/
theorem infix_rowsAll_methodsCode {spacing : Nat} {isFirst : Bool} {ms : List Method}
    {code : List Fragment} (h : ns.methodsCode spacing isFirst ms = some code) (depth : Nat) :
    ∀ m ∈ ms, ∃ part, ns.methodCode m = some part ∧
      Fragment.rowsAll depth part <:+: Fragment.rowsAll depth code := by
  induction ms generalizing isFirst code with
  | nil => simp
  | cons n ms ih =>
    obtain ⟨first, rest, hfirst, hrest, rfl⟩ := methodsCode_cons_eq_some h
    intro m hm
    rw [Fragment.rowsAll_append, Fragment.rowsAll_append]
    rcases List.mem_cons.1 hm with rfl | hm
    · exact ⟨first, hfirst, List.infix_append _ _ _⟩
    · obtain ⟨part, hpart, hinfix⟩ := ih hrest m hm
      exact ⟨part, hpart, hinfix.trans (List.suffix_append _ _).isInfix⟩

/-- The rows of a page's opening. -/
theorem rowsAll_preamble (ns : Namespace) : Fragment.rowsAll 0 ns.preamble =
    [⟨0, "<?php".toList⟩, ⟨0, []⟩] ++
    (if ns.name = [] then [] else [⟨0, "namespace ".toList ++ ns.name ++ [';']⟩, ⟨0, []⟩]) ++
    (if ns.imports = [] then []
     else ns.importedNames.map (fun n => ⟨0, "use ".toList ++ n ++ [';']⟩) ++ [⟨0, []⟩]) := by
  have huses : Fragment.rowsAll 0 (ns.importedNames.map fun n => .line ("use ".toList ++ n ++ [';'])) =
      ns.importedNames.map fun n => ⟨0, "use ".toList ++ n ++ [';']⟩ := by
    have h := Fragment.rowsAll_map_line 0
      (ns.importedNames.map fun n => "use ".toList ++ n ++ [';'])
    rwa [List.map_map, List.map_map] at h
  have hblank : Fragment.rowsAll 0 [.blank] = [⟨0, []⟩] := rfl
  rw [preamble, Fragment.rowsAll_append, Fragment.rowsAll_append]
  refine congr (congrArg _ (congr (congrArg _ rfl) ?_)) ?_
  · split <;> rfl
  · split
    · rfl
    · rw [Fragment.rowsAll_append, huses, hblank]

/-- The head of a class, given its interfaces as they are written. -/
def headText (c : Class) (interfaces : List Text) : Text :=
  "class ".toList ++ c.name ++
    (if c.implements = [] then [] else " implements ".toList ++ Text.join [',', ' '] interfaces)

/-- The rows of the page of one class, given its interfaces and its methods as
they are written. -/
def pageRows (ns : Namespace) (c : Class) (interfaces : List Text) (methods : List Fragment) :
    List Row :=
  Fragment.rowsAll 0 ns.preamble ++ ⟨0, headText c interfaces⟩ :: ⟨0, ['\x7b']⟩ ::
    (Fragment.rowsAll 1 (c.properties.map propertyCode ++ methods) ++ [⟨0, ['\x7d']⟩])

/-- The page of a namespace with one class. -/
theorem page_eq_some {c : Class} (hc : ns.classes = [c]) {layout : Layout} {page : Text}
    (h : ns.page layout = some page) : ∃ interfaces methods,
      c.implements.mapM ns.shorten = some interfaces ∧
      ns.methodsCode layout.spacing (c.properties = []) c.methods = some methods ∧
      page = Code.printRows layout.indentation.unit (ns.pageRows c interfaces methods) := by
  obtain ⟨code, hcode, rfl⟩ := Option.map_eq_some_iff.1 h
  obtain ⟨classes, hclasses, rfl⟩ := Option.map_eq_some_iff.1 hcode
  rw [hc, classesCode, classCode] at hclasses
  obtain ⟨head, hhead, hclasses⟩ := Option.bind_eq_some_iff.1 hclasses
  obtain ⟨methods, hmethods, hclasses⟩ := Option.bind_eq_some_iff.1 hclasses
  rw [classHead] at hhead
  obtain ⟨interfaces, hinterfaces, hhead⟩ := Option.bind_eq_some_iff.1 hhead
  refine ⟨interfaces, methods, hinterfaces, hmethods, ?_⟩
  rw [Option.pure_def, Option.some.injEq] at hhead hclasses
  subst hhead hclasses
  have hrows : Fragment.rowsAll 0 [.line (headText c interfaces), .block ['\x7b']
      (c.properties.map propertyCode ++ methods) (some ['\x7d'])] =
      ⟨0, headText c interfaces⟩ :: ⟨0, ['\x7b']⟩ ::
        (Fragment.rowsAll 1 (c.properties.map propertyCode ++ methods) ++ [⟨0, ['\x7d']⟩]) := by
    simp [Fragment.rowsAll, Fragment.rows]
  rw [Code.Writer.text_start_emitAll, Fragment.rowsAll_append, pageRows, ← hrows]
  rfl

end Namespace

end BuilderForge.Php
