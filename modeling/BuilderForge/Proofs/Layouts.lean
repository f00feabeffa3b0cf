import BuilderForge.Proofs.PageRows
/-
  Pages in different layouts.

  Read without indentation and without empty lines, a text that was written from
  fragments says what the fragments say (`bareLines_start_emitAll`), and this is
  defined without any indentation. Blank lines say nothing, so the code of a page
  says the same for any spacing (`map_bareAll_pageCode`). Hence pages of one
  namespace differ in blanks at the beginnings of lines and in empty lines only:
  `reads_alike`.
-/

namespace BuilderForge

namespace Text

/-- Whether a character is one that lines are indented with. -/
def isMargin (c : Char) : Bool := c = ' ' || c = '\t'

/-- The lines of a text without the spaces and tabs at their beginnings, but for
those that are empty then. -/
def bareLines (t : Text) : List Text :=
  ((pieces '\n' t).map (List.dropWhile isMargin)).filter fun l => l ≠ []

example : bareLines "  use  A;\n\t\n\n\tb\n".toList = ["use  A;".toList, "b".toList] := by decide

@[simp] theorem bareLines_nil : bareLines [] = [] := rfl

/-- A line end keeps apart what stands before it and after it. -/
theorem bareLines_append_lineEnd (s t : Text) :
    bareLines (s ++ '\n' :: t) = bareLines s ++ bareLines t := by
  rw [bareLines, pieces_append_sep, List.map_append, List.filter_append]
  rfl

theorem bareLines_cons_margin {c : Char} (hc : isMargin c) (t : Text) :
    bareLines (c :: t) = bareLines t := by
  have hne : c ≠ '\n' := by
    intro heq
    rw [heq] at hc
    revert hc
    decide
  obtain ⟨p, ps, hp, hcons⟩ := pieces_cons_of_ne hne t
  rw [bareLines, bareLines, hcons, hp, List.map_cons, List.map_cons, List.dropWhile_cons_of_pos hc]

/-- Indentation says nothing. -/
theorem bareLines_append_margin {u : Text} (hu : ∀ c ∈ u, isMargin c) (t : Text) :
    bareLines (u ++ t) = bareLines t := by
  induction u with
  | nil => rfl
  | cons c u ih =>
    rw [List.cons_append, bareLines_cons_margin (hu c List.mem_cons_self)]
    exact ih fun d hd => hu d (List.mem_cons_of_mem c hd)

end Text

open BuilderForge.Text (isMargin bareLines)

namespace Code

/-! ## Fragments -/

mutual

/-- What a fragment says. -/
def Fragment.bare : Fragment → List Text
  | .line s => bareLines s
  | .blank => []
  | .indent body => bareAll body
  | .block header body close => bareLines header ++ (bareAll body ++ close.toList.flatMap bareLines)

/-- What fragments say one after the other. -/
def Fragment.bareAll : List Fragment → List Text
  | [] => []
  | f :: fs => f.bare ++ bareAll fs

end

namespace Fragment

theorem bareAll_append (fs gs : List Fragment) : bareAll (fs ++ gs) = bareAll fs ++ bareAll gs := by
  induction fs with
  | nil => rfl
  | cons f fs ih => rw [List.cons_append, bareAll, bareAll, ih, List.append_assoc]

theorem bareAll_replicate_blank (n : Nat) : bareAll (List.replicate n .blank) = [] := by
  induction n with
  | zero => rfl
  | succ n ih => rw [List.replicate_succ, bareAll, ih, bare, List.append_nil]

mutual

/-- The rows of a fragment say what the fragment says, at every depth. -/
theorem flatMap_rows (depth : Nat) : (f : Fragment) →
    ((f.rows depth).flatMap fun r => bareLines r.text) = f.bare
  | .line s => by rw [rows, bare, List.flatMap_singleton]
  | .blank => by rw [rows, bare, List.flatMap_singleton, Text.bareLines_nil]
  | .indent body => by rw [rows, bare, flatMap_rowsAll (depth + 1) body]
  | .block header body close => by
    rw [rows, bare, List.flatMap_cons, List.flatMap_append, flatMap_rowsAll (depth + 1) body,
      List.flatMap_map]

theorem flatMap_rowsAll (depth : Nat) : (fs : List Fragment) →
    ((rowsAll depth fs).flatMap fun r => bareLines r.text) = bareAll fs
  | [] => rfl
  | f :: fs => by rw [rowsAll, bareAll, List.flatMap_append, flatMap_rows depth f, flatMap_rowsAll depth fs]

end

end Fragment

theorem Indent.isMargin_of_mem_unit (indentation : Indent) : ∀ c ∈ indentation.unit, isMargin c := by
  intro c hc
  cases indentation with
  | spaces n =>
    rw [List.eq_of_mem_replicate hc]
    rfl
  | tab =>
    rw [List.mem_singleton.1 hc]
    rfl

theorem bareLines_printRows {unit : Text} (hunit : ∀ c ∈ unit, isMargin c) (rows : List Row) :
    bareLines (printRows unit rows) = rows.flatMap fun r => bareLines r.text := by
  induction rows with
  | nil => rfl
  | cons r rows ih =>
    have hmargin : ∀ c ∈ (List.replicate r.depth unit).flatten, isMargin c := by
      intro c hc
      obtain ⟨u, hu, hc⟩ := List.mem_flatten.1 hc
      rw [List.eq_of_mem_replicate hu] at hc
      exact hunit c hc
    rw [printRows_cons, Text.bareLines_append_lineEnd, Row.line, Text.bareLines_append_margin hmargin,
      ih, List.flatMap_cons]

/-- Fragments that are written say what they say, whatever the indentation is. -/
theorem bareLines_start_emitAll (indentation : Indent) (fs : List Fragment) :
    bareLines ((Writer.start indentation).emitAll fs).text = Fragment.bareAll fs := by
  rw [Writer.text_start_emitAll, bareLines_printRows indentation.isMargin_of_mem_unit,
    Fragment.flatMap_rowsAll]

end Code

namespace Php.Namespace

open Code (Row Fragment)
open Code.Fragment (bareAll bareAll_append bareAll_replicate_blank rowsAll)

variable {ns : Namespace}

/-! ## Spacing -/

/-- Codes that say the same, if there are any, say the same after the same has
been put around them. -/
theorem map_bareAll_bind {x y : Option (List Fragment)} (h : x.map bareAll = y.map bareAll)
    {f g : List Fragment → List Fragment}
    (hfg : ∀ a b, bareAll a = bareAll b → bareAll (f a) = bareAll (g b)) :
    (x.bind fun a => some (f a)).map bareAll = (y.bind fun b => some (g b)).map bareAll := by
  cases x with
  | none =>
    cases y with
    | none => rfl
    | some b => cases h
  | some a =>
    cases y with
    | none => cases h
    | some b => exact congrArg some (hfg a b (Option.some_inj.1 h))

theorem map_bareAll_methodsCode (ns : Namespace) (spacing spacing' : Nat) (isFirst : Bool)
    (ms : List Method) : (ns.methodsCode spacing isFirst ms).map bareAll =
      (ns.methodsCode spacing' isFirst ms).map bareAll := by
  induction ms generalizing isFirst with
  | nil => rfl
  | cons m ms ih =>
    have hblank : ∀ n, bareAll (if isFirst then [] else List.replicate n .blank) = [] := by
      intro n
      cases isFirst with
      | true => rfl
      | false => exact bareAll_replicate_blank n
    rw [methodsCode, methodsCode]
    cases ns.methodCode m with
    | none => rfl
    | some code =>
      refine map_bareAll_bind (ih false) fun rest rest' hrest => ?_
      simp only [bareAll_append, hblank, hrest]

theorem map_bareAll_classCode (ns : Namespace) (spacing spacing' : Nat) (c : Class) :
    (ns.classCode spacing c).map bareAll = (ns.classCode spacing' c).map bareAll := by
  rw [classCode, classCode]
  cases ns.classHead c with
  | none => rfl
  | some head =>
    refine map_bareAll_bind (ns.map_bareAll_methodsCode spacing spacing' _ c.methods)
      fun methods methods' hmethods => ?_
    simp only [bareAll, Fragment.bare, bareAll_append, hmethods]

theorem map_bareAll_classesCode (ns : Namespace) (spacing spacing' : Nat) : (cs : List Class) →
    (ns.classesCode spacing cs).map bareAll = (ns.classesCode spacing' cs).map bareAll
  | [] => rfl
  | [c] => ns.map_bareAll_classCode spacing spacing' c
  | c :: d :: cs => by
    have hrest := map_bareAll_classesCode ns spacing spacing' (d :: cs)
    have hcode := ns.map_bareAll_classCode spacing spacing' c
    rw [classesCode, classesCode]
    cases hfirst : ns.classCode spacing c with
    | none =>
      rw [hfirst] at hcode
      rw [Option.map_eq_none_iff.1 hcode.symm]
      rfl
    | some code =>
      rw [hfirst] at hcode
      obtain ⟨code', hfirst', hsame⟩ := Option.map_eq_some_iff.1 hcode.symm
      rw [hfirst']
      refine map_bareAll_bind hrest fun rest rest' hrest => ?_
      rw [bareAll_append, bareAll_append, bareAll, bareAll, hsame, hrest]

/-- The code of a page says the same for any spacing. -/
theorem map_bareAll_pageCode (ns : Namespace) (spacing spacing' : Nat) :
    (ns.pageCode spacing).map bareAll = (ns.pageCode spacing').map bareAll := by
  have hpreamble : bareAll ∘ (ns.preamble ++ ·) = (bareAll ns.preamble ++ ·) ∘ bareAll :=
    funext fun classes => bareAll_append ns.preamble classes
  rw [pageCode, pageCode, Option.map_map, Option.map_map, hpreamble, ← Option.map_map,
    ← Option.map_map, ns.map_bareAll_classesCode spacing spacing']

theorem map_bareLines_page (ns : Namespace) (layout : Layout) :
    (ns.page layout).map bareLines = (ns.pageCode layout.spacing).map bareAll := by
  rw [page, Option.map_map]
  exact congrFun (congrArg Option.map (funext fun code =>
    Code.bareLines_start_emitAll layout.indentation code)) _

/-! ## Heads of methods -/

theorem exists_classCode {spacing : Nat} : {cs : List Class} → {code : List Fragment} →
    ns.classesCode spacing cs = some code → ∀ c ∈ cs, ∃ part, ns.classCode spacing c = some part ∧
      rowsAll 0 part <:+: rowsAll 0 code
  | [], _, _, c, hc => by cases hc
  | [d], code, h, c, hc => by
    rw [List.mem_singleton.1 hc]
    exact ⟨code, h, List.infix_rfl⟩
  | d :: e :: cs, code, h, c, hc => by
    rw [classesCode] at h
    obtain ⟨first, hfirst, h⟩ := Option.bind_eq_some_iff.1 h
    obtain ⟨rest, hrest, h⟩ := Option.bind_eq_some_iff.1 h
    cases h
    rw [Fragment.rowsAll_append]
    obtain rfl | hc := List.mem_cons.1 hc
    · exact ⟨first, hfirst, (List.prefix_append _ _).isInfix⟩
    · obtain ⟨part, hpart, hinfix⟩ := exists_classCode hrest c hc
      refine ⟨part, hpart, hinfix.trans ?_⟩
      exact ((List.suffix_cons _ _).trans (List.suffix_append _ _)).isInfix

/-- The head of a method on a page. -/
theorem infix_headRows_page {layout : Layout} {page : Text} (h : ns.page layout = some page)
    {c : Class} (hc : c ∈ ns.classes) {m : Method} (hm : m ∈ c.methods) :
    ∃ params returns rows, m.params.mapM ns.parameterText = some params ∧
      ns.returnText m = some returns ∧ page = Code.printRows layout.indentation.unit rows ∧
      headRows 1 (methodHead m) params returns <:+: rows := by
  obtain ⟨code, hcode, rfl⟩ := Option.map_eq_some_iff.1 h
  obtain ⟨classes, hclasses, rfl⟩ := Option.map_eq_some_iff.1 hcode
  obtain ⟨part, hpart, hclass⟩ := exists_classCode hclasses c hc
  rw [classCode] at hpart
  obtain ⟨head, -, hpart⟩ := Option.bind_eq_some_iff.1 hpart
  obtain ⟨methods, hmethods, hpart⟩ := Option.bind_eq_some_iff.1 hpart
  cases hpart
  obtain ⟨own, hown, hmethod⟩ := infix_rowsAll_methodsCode hmethods 1 m hm
  obtain ⟨params, returns, body, hparams, hreturns, -, hrows⟩ := rowsAll_methodCode hown 1
  refine ⟨params, returns, _, hparams, hreturns, Code.Writer.text_start_emitAll _ _, ?_⟩
  -- the head begins the method, which stands in the block of the class
  have hhead : headRows 1 (methodHead m) params returns <:+: rowsAll 1 own := by
    rw [hrows]
    exact (List.prefix_append _ _).isInfix
  have hmembers : rowsAll 1 methods <:+: rowsAll 0 [.line head,
      .block ['\x7b'] (c.properties.map propertyCode ++ methods) (some ['\x7d'])] := by
    refine ⟨⟨0, head⟩ :: ⟨0, ['\x7b']⟩ :: rowsAll 1 (c.properties.map propertyCode),
      [⟨0, ['\x7d']⟩], ?_⟩
    simp [rowsAll, Fragment.rows, Fragment.rowsAll_append]
  have hclasses : rowsAll 0 classes <:+: rowsAll 0 (ns.preamble ++ classes) := by
    rw [Fragment.rowsAll_append]
    exact (List.suffix_append _ _).isInfix
  exact hhead.trans (hmethod.trans (hmembers.trans (hclass.trans hclasses)))

/-- Pages of a namespace in different layouts have the same lines, but for
indentation and empty lines, and there is a page in all layouts or in none. What
is written of a method's parameters decides whether they are wrapped, and so the
rows of its head are the same in all layouts. -/
theorem reads_alike (ns : Namespace) :
    (∀ layout layout', (ns.page layout).map bareLines = (ns.page layout').map bareLines) ∧
    ((∀ layout, ns.page layout = none) ∨ ∀ c ∈ ns.classes, ∀ m ∈ c.methods,
      ∃ params returns, m.params.mapM ns.parameterText = some params ∧
        ns.returnText m = some returns ∧ ∀ layout, ∃ rows,
          ns.page layout = some (Code.printRows layout.indentation.unit rows) ∧
          headRows 1 (methodHead m) params returns <:+: rows) := by
  have hsame : ∀ layout layout', (ns.page layout).map bareLines = (ns.page layout').map bareLines := by
    intro layout layout'
    rw [map_bareLines_page, map_bareLines_page, ns.map_bareAll_pageCode layout.spacing layout'.spacing]
  refine ⟨hsame, Classical.or_iff_not_imp_left.2 fun hsome c hc m hm => ?_⟩
  obtain ⟨first, hfirst⟩ := Classical.not_forall.1 hsome
  have hpages : ∀ layout, ∃ page, ns.page layout = some page := by
    intro layout
    rw [← Option.isSome_iff_exists, ← Option.isSome_map, hsame layout first, Option.isSome_map]
    exact Option.isSome_iff_ne_none.2 hfirst
  obtain ⟨page, hpage⟩ := hpages first
  obtain ⟨params, returns, -, hparams, hreturns, -⟩ := infix_headRows_page hpage hc hm
  refine ⟨params, returns, hparams, hreturns, fun layout => ?_⟩
  obtain ⟨page, hpage⟩ := hpages layout
  obtain ⟨params', returns', rows, hparams', hreturns', rfl, hinfix⟩ := infix_headRows_page hpage hc hm
  -- what the head is made of was there before the layout
  cases hparams.symm.trans hparams'
  cases hreturns.symm.trans hreturns'
  exact ⟨rows, hpage, hinfix⟩

end Php.Namespace

end BuilderForge
