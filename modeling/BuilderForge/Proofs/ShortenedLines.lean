import BuilderForge.Proofs.Containment
import BuilderForge.Proofs.EntityReferences
import BuilderForge.Proofs.ShortestForms
/-
  What shortening makes of a line of code.

  A line splits in one way into literals, names and other characters
  (`isSplit_iff`). Shortening writes each name in its short form and leaves the
  rest alone, and doing it again changes nothing. For a short form is a path,
  which is cut into characters that begin no name, or it is the name in full
  and comes out again. Both need that nothing new begins before a short form,
  and that nothing goes on behind a name which did not before. A separator
  before a name is what could spoil this: the path behind it would become a
  name. So it is asked that no two separators stand together outside of
  literals; this holds of all code that the builder writes.
-/

namespace BuilderForge

namespace Php

/-- Whether two separators stand together in a text. -/
def DoublesSeparator (t : Text) : Prop := [Name.separator, Name.separator] <:+: t

/-- What can be seen of a piece if literals are covered up. -/
def Piece.visible : Piece → Text
  | .literal _ => ['"']
  | .name s => s
  | .other c => [c]

/-- What a piece is written as in a namespace. -/
inductive Namespace.Rewrites (ns : Namespace) : Piece → Text → Prop where
  | literal (s : Text) : Rewrites ns (.literal s) s
  | name {s short : Text} (h : ns.shorten s = some short) : Rewrites ns (.name s) short
  | other (c : Char) : Rewrites ns (.other c) [c]

theorem Namespace.rewrites_iff {ns : Namespace} {p : Piece} {t : Text} :
    ns.Rewrites p t ↔ p.shorten ns = some t := by
  constructor
  · rintro (_ | h | _)
    · rfl
    · exact h
    · rfl
  · intro h
    cases p with
    | literal s =>
      cases h
      exact .literal _
    | name s => exact .name h
    | other c =>
      cases h
      exact .other c

/-! ## Looking ahead -/

section Ahead

variable {ns : Namespace} {before t : Text} {p : Piece} {ps : List Piece} {texts : List Text}

theorem not_startsLabel_quote {quote : Char} (h : quote = '\'' ∨ quote = '"') (t : Text) :
    startsLabel (quote :: t) = false ∧ continuesName (quote :: t) = false := by
  rcases h with rfl | rfl <;> exact ⟨rfl, rfl⟩

/-- Where a label begins after the names were rewritten, one began before, or a name. -/
theorem Splits.startsLabel_rewritten (h : Splits before t ps) (htexts : List.Forall₂ ns.Rewrites ps texts)
    (hstart : startsLabel texts.flatten) :
    startsLabel t ∨ ∃ rest, ps.flatMap Piece.visible = Name.separator :: rest := by
  cases h with
  | nil _ =>
    cases htexts
    cases hstart
  | cons ht hstands _ =>
    rw [ht]
    cases htexts with
    | cons htext _ =>
      rw [List.flatten_cons] at hstart
      cases hstands with
      | literal hquote _ =>
        cases htext
        rw [List.cons_append, (not_startsLabel_quote hquote _).1] at hstart
        cases hstart
      | name _ _ _ => exact .inr ⟨_, rfl⟩
      | other _ _ =>
        cases htext
        exact .inl hstart

/-- What goes on with a label after the names were rewritten did so before. -/
theorem Splits.continuesName_rewritten (h : Splits before t ps) (hbefore : endsInLabel before)
    (htexts : List.Forall₂ ns.Rewrites ps texts)
    (hsingle : ¬ DoublesSeparator (ps.flatMap Piece.visible)) (hgoes : continuesName texts.flatten) :
    continuesName t := by
  cases h with
  | nil _ =>
    cases htexts
    cases hgoes
  | cons ht hstands hps =>
    rw [ht]
    cases htexts with
    | cons htext hrest =>
      rw [List.flatten_cons] at hgoes
      cases hstands with
      | literal hquote _ =>
        cases htext
        rw [List.cons_append, (not_startsLabel_quote hquote _).2] at hgoes
        cases hgoes
      | name hgap _ _ =>
        rw [hbefore] at hgap
        cases hgap
      | @other c _ _ _ =>
        cases htext
        rw [List.singleton_append, continuesName, Bool.or_eq_true, Bool.and_eq_true,
          decide_eq_true_iff] at hgoes
        rw [Piece.source, List.singleton_append, continuesName, Bool.or_eq_true, Bool.and_eq_true,
          decide_eq_true_iff]
        refine hgoes.imp_right fun hsep => ⟨hsep.1, ?_⟩
        obtain ⟨rfl, hstart⟩ := hsep
        refine (hps.startsLabel_rewritten hrest hstart).resolve_right fun hname => hsingle ?_
        obtain ⟨rest, hname⟩ := hname
        rw [List.flatMap_cons, hname]
        exact (List.prefix_append _ rest).isInfix

/-- A piece stands before the rewritten rest of the line as it stood before the rest. -/
theorem Stands.rewritten {after : Text} (h : Stands before p after)
    (hps : Splits (before ++ p.source) after ps) (htexts : List.Forall₂ ns.Rewrites ps texts)
    (hsingle : ¬ DoublesSeparator (p.visible ++ ps.flatMap Piece.visible)) :
    Stands before p texts.flatten := by
  have hrest : ¬ DoublesSeparator (ps.flatMap Piece.visible) := fun hdouble =>
    hsingle (hdouble.trans (List.suffix_append _ _).isInfix)
  -- behind a literal that is not closed there is nothing left
  have hnone (hafter : after = []) : texts.flatten = [] := by
    rw [hafter] at hps
    have hnil := hps.eq_cutPieces
    rw [cutPieces_nil] at hnil
    rw [hnil] at htexts
    cases htexts
    rfl
  cases h with
  | literal hquote hend =>
    cases hend with
    | closed hbody _ => exact .literal hquote (.closed hbody _)
    | unclosed hbody =>
      rw [hnone rfl]
      exact .literal hquote (.unclosed hbody)
    | cutShort hbody =>
      rw [hnone rfl]
      exact .literal hquote (.cutShort hbody)
  | @name path _ hbefore hpath hafter =>
    refine .name hbefore hpath ?_
    have hlast := endsInLabel_name hpath before
    rw [← Bool.not_eq_true] at hafter ⊢
    exact fun hgoes => hafter (hps.continuesName_rewritten hlast htexts hrest hgoes)
  | other hquote hname =>
    refine .other hquote fun hc => (hname hc).imp_right fun hafter => ?_
    rw [← Bool.not_eq_true] at hafter ⊢
    refine fun hstart => hafter ((hps.startsLabel_rewritten htexts hstart).resolve_right fun hdouble => ?_)
    obtain ⟨rest, hdouble⟩ := hdouble
    rw [hdouble, hc] at hsingle
    exact hsingle (List.prefix_append _ rest).isInfix

end Ahead

/-! ## Shortening again -/

/-- A path is cut into its characters, whatever stands before it and after it. -/
theorem cutPieces_path {path : Text} (h : Name.isPath path) (afterLabel : Bool) (t : Text) :
    cutPieces afterLabel (path ++ t) = path.map .other ++ cutPieces true t := by
  have hlabel {label : Text} (hlabel : Name.isLabel label) (afterLabel : Bool) (t : Text) :
      cutPieces afterLabel (label ++ t) = label.map .other ++ cutPieces true t := by
    have hinert : label.all isInert := by
      rw [List.all_eq_true]
      intro c hc
      have hchar := Name.isLabelChar_of_mem hlabel hc
      have hne {d : Char} (hd : Name.isLabelChar d = false) : c ≠ d := by
        rintro rfl
        rw [hchar] at hd
        cases hd
      simp [isInert, hne (d := '\'') rfl, hne (d := '"') rfl, hne Name.not_isLabelChar_separator]
    have hlast := endsInLabel_of_isPath (Name.isPath_of_isLabel hlabel)
    rw [endsInLabel] at hlast
    rw [cutPieces_inert hinert]
    cases hgetLast : label.getLast? with
    | none =>
      rw [hgetLast] at hlast
      cases hlast
    | some c =>
      rw [hgetLast, Option.map_some, Option.getD_some] at hlast
      rw [Option.map_some, Option.getD_some, hlast]
  obtain ⟨last, hform⟩ := Name.exists_pathForm h
  clear h
  induction hform generalizing afterLabel t with
  | label h => exact hlabel (Name.isLabel_iff.2 h) afterLabel t
  | @within label path _ h _ ih =>
    -- the separator stands behind a label and begins no name
    have hquote : ¬ ('\\' = '\'' ∨ '\\' = '"') := by decide
    rw [List.append_assoc, hlabel (Name.isLabel_iff.2 h), List.cons_append, cutPieces, if_neg hquote,
      if_neg (by simp), ih, List.map_append, List.map_cons, List.append_assoc]
    rfl

/-- The short form of a name in a line is a path, or the name as it is. -/
theorem Namespace.IsMade.isPath_or_eq_of_shorten {ns : Namespace} (hns : ns.IsMade) {path short : Text}
    (hpath : Name.isPath path) (h : ns.shorten (Name.separator :: path) = some short) :
    Name.isPath short ∨ short = Name.separator :: path := by
  obtain ⟨hself | hself, -⟩ | ⟨-, hform⟩ := shortening_of_shorten h
  · cases hself
  · rw [Builder.isTypeKeyword_cons_separator] at hself
    cases hself
  rw [Name.stripSeparator, if_pos rfl] at hform
  exact hns.isPath_or_eq hpath hform

namespace Namespace

variable {ns : Namespace}

/-- Whether every piece that a text is cut into stays as it is. -/
def Keeps (ns : Namespace) (afterLabel : Bool) (t : Text) : Prop :=
  ∀ p ∈ cutPieces afterLabel t, ns.Rewrites p p.source

theorem Keeps.shortenLine_eq {line : Text} (h : ns.Keeps false line) :
    ns.shortenLine line = some line := by
  have hparts : (cutPieces false line).mapM (Piece.shorten ns) =
      some ((cutPieces false line).map Piece.source) := by
    rw [mapM_eq_some_iff, List.map_map]
    exact List.map_congr_left fun p hp => rewrites_iff.1 (h p hp)
  rw [shortenLine, hparts, Option.map_some, ← List.flatMap_def, flatMap_source_cutPieces]

/-- Once its names were rewritten, the rest of a line stays as it is. -/
theorem IsMade.keeps_rewritten (hns : ns.IsMade) {before t : Text} {ps : List Piece}
    (h : Splits before t ps) : ∀ {texts : List Text}, List.Forall₂ ns.Rewrites ps texts →
      ¬ DoublesSeparator (ps.flatMap Piece.visible) → ns.Keeps (endsInLabel before) texts.flatten := by
  induction h with
  | nil before =>
    intro texts htexts _ p hp
    cases htexts
    rw [List.flatten_nil, cutPieces_nil] at hp
    cases hp
  | @cons before t after p ps ht hstands hps ih =>
    intro texts htexts hsingle
    cases htexts with
    | @cons _ text _ texts htext hrest =>
      rw [List.flatMap_cons] at hsingle
      have hkeeps := ih hrest fun hdouble => hsingle (hdouble.trans (List.suffix_append _ _).isInfix)
      -- a piece that is written as it is stands where it stood
      have hsame : ns.Rewrites p p.source → ns.Keeps (endsInLabel before) (p.source ++ texts.flatten) := by
        intro hself q hq
        rw [(hstands.rewritten hps hrest hsingle).cutPieces_eq] at hq
        rcases List.mem_cons.1 hq with rfl | hq
        · exact hself
        · exact hkeeps q hq
      rw [List.flatten_cons]
      cases htext with
      | literal _ => exact hsame (.literal _)
      | other _ => exact hsame (.other _)
      | name hshort =>
        cases hstands with
        | @name path _ hgap hpath hend =>
          rcases hns.isPath_or_eq_of_shorten hpath hshort with hshortPath | rfl
          · intro q hq
            rw [cutPieces_path hshortPath, List.mem_append] at hq
            rcases hq with hq | hq
            · obtain ⟨c, -, rfl⟩ := List.mem_map.1 hq
              exact .other c
            · rw [Piece.source, endsInLabel_name hpath] at hkeeps
              exact hkeeps q hq
          · exact hsame (.name hshort)

end Namespace

/-! ## Separators in code -/

theorem doublesSeparator_cons_iff {c : Char} (hc : c ≠ Name.separator) (t : Text) :
    DoublesSeparator (c :: t) ↔ DoublesSeparator t := by
  rw [DoublesSeparator, List.infix_cons_iff]
  refine or_iff_right fun hprefix => ?_
  exact hc (List.cons_prefix_cons.1 hprefix).1.symm

theorem doublesSeparator_append_iff {s : Text} (hs : Name.separator ∉ s) (t : Text) :
    DoublesSeparator (s ++ t) ↔ DoublesSeparator t := by
  induction s with
  | nil => rfl
  | cons c s ih =>
    rw [List.mem_cons, not_or] at hs
    rw [List.cons_append, doublesSeparator_cons_iff (Ne.symm hs.1), ih hs.2]

theorem not_doublesSeparator_of_notMem {t : Text} (h : Name.separator ∉ t) : ¬ DoublesSeparator t :=
  fun hdouble => h (hdouble.subset List.mem_cons_self)

theorem doublesSeparator_concat_iff {c : Char} (hc : c ≠ Name.separator) (t : Text) :
    DoublesSeparator (t ++ [c]) ↔ DoublesSeparator t := by
  rw [DoublesSeparator, List.infix_concat_iff]
  refine or_iff_right fun hsuffix => ?_
  obtain ⟨before, heq⟩ := hsuffix
  rw [List.append_cons] at heq
  have hlast := (List.append_inj' heq rfl).2
  exact hc (List.cons.inj hlast).1.symm

theorem not_doublesSeparator_of_isPath {path : Text} (h : Name.isPath path) :
    ¬ DoublesSeparator path := by
  intro hdouble
  obtain ⟨before, after, rfl⟩ := hdouble
  rw [List.append_assoc, List.cons_append, Name.isPath_append, List.singleton_append,
    Name.not_isPath_cons_separator, Bool.and_false] at h
  cases h

/-- In a name that is written in full the separators stand apart. -/
theorem not_doublesSeparator_name {path : Text} (h : Name.isPath path) :
    ¬ DoublesSeparator (Name.separator :: path) := by
  rw [DoublesSeparator, List.infix_cons_iff, not_or]
  refine ⟨fun hprefix => ?_, not_doublesSeparator_of_isPath h⟩
  have hstart := Header.isPrefixOf_separator_of_isPath h
  rw [List.isPrefixOf_iff_prefix.2 (List.cons_prefix_cons.1 hprefix).2] at hstart
  cases hstart

/-- In a line without quotes everything can be seen. -/
theorem Splits.flatMap_visible {before t : Text} {ps : List Piece} (h : Splits before t ps)
    (hsingle : '\'' ∉ t) (hdouble : '"' ∉ t) : ps.flatMap Piece.visible = t := by
  induction h with
  | nil _ => rfl
  | cons ht hstands _ ih =>
    rw [ht, List.mem_append, not_or] at hsingle hdouble
    rw [List.flatMap_cons, ih hsingle.2 hdouble.2, ht]
    cases hstands with
    | literal hquote _ =>
      rcases hquote with rfl | rfl
      · exact absurd List.mem_cons_self hsingle.1
      · exact absurd List.mem_cons_self hdouble.1
    | name _ _ _ => rfl
    | other _ _ => rfl

end Php

open Php (DoublesSeparator)

namespace Builder

/-- In the body of a method that is made of an accessor there is no separator. -/
theorem separator_notMem_fluentBody {statement : Text} (h : Name.separator ∉ statement) :
    ∀ line ∈ fluentBody statement, Name.separator ∉ line := by
  intro line hline hc
  rcases List.mem_append.1 (Text.mem_of_mem_lines line hline _ hc).1 with hc | hc
  · exact h hc
  · exact absurd hc (by decide)

/-- In the code that a well-formed builder writes the separators stand apart. -/
theorem IsWellFormed.not_doublesSeparator_body {b : Builder} (hb : b.IsWellFormed) {m : Php.Method}
    (hm : m ∈ b.toClass.methods) : ∀ line ∈ m.body, ¬ DoublesSeparator line := by
  rcases forwards_of_mem hm with rfl | rfl | ⟨a, ha, -, -, -, -, hforwards⟩
  · intro line hline
    rw [hb.body_constructor, List.mem_singleton] at hline
    rw [hline, Php.doublesSeparator_append_iff (by decide), ← List.cons_append,
      Php.doublesSeparator_concat_iff (by decide)]
    exact Php.not_doublesSeparator_name hb.entity
  · intro line hline
    refine Php.not_doublesSeparator_of_notMem fun hc => ?_
    exact absurd (Text.mem_of_mem_lines line hline _ hc).1 (by decide)
  · suffices hbody : ∀ line ∈ m.body, Name.separator ∉ line from
      fun line hline => Php.not_doublesSeparator_of_notMem (hbody line hline)
    have hlabel {t : Text} (h : Name.isLabel t) := Name.separator_notMem_of_isLabel h
    cases a with
    | field p =>
      have hp := hlabel (hb.property p (Entity.mem_accessorsByKind_field.1 ha).1)
      rw [hforwards.2]
      apply separator_notMem_fluentBody
      simp only [List.mem_append, not_or]
      exact ⟨⟨by decide, hp⟩, by decide⟩
    | setter d =>
      have hd := hlabel (hb.method d (Entity.mem_accessorsByKind_setter.1 ha).1)
      rw [hforwards.2]
      apply separator_notMem_fluentBody
      simp only [List.mem_append, not_or]
      exact ⟨⟨by decide, hd⟩, by decide⟩
    | mutator d =>
      have hmem := (Entity.mem_accessorsByKind_mutator.1 ha).1
      have hd := hlabel (hb.method d hmem)
      obtain ⟨hparams, hbody⟩ := hforwards
      have harguments : Name.separator ∉ Text.join [',', ' '] (m.params.map fun q => '$' :: q.name) := by
        intro hc
        rcases Text.mem_join hc with hc | ⟨t, ht, hc⟩
        · exact absurd hc (by decide)
        obtain ⟨q, hq, rfl⟩ := List.mem_map.1 ht
        obtain ⟨p, hp, htakes⟩ := (exists_mem_of_forall₂ hparams).2 q hq
        rcases List.mem_cons.1 hc with hc | hc
        · exact absurd hc (by decide)
        · rw [htakes.name] at hc
          exact hlabel (hb.parameter d hmem p hp).name hc
      rw [hbody]
      apply separator_notMem_fluentBody
      simp only [List.mem_append, not_or]
      exact ⟨⟨⟨⟨by decide, hd⟩, by decide⟩, harguments⟩, by decide⟩

end Builder

/-- Every line splits in one way into literals, names and other characters. If
the names in it have short forms in a namespace with imports, the line is
written with these, and with everything else as it is; and written again it
stays as it is, unless two separators stand together outside of literals. They
do so in no line of the bodies that the builders of a valid manifest have. -/
theorem shortens_lines (scope : Text) (added : List Text) :
    (∀ line, ∃ ps, (∀ qs, Php.IsSplit line qs ↔ qs = ps) ∧
      ((∀ s, Php.Piece.name s ∈ ps → ((Php.Namespace.withImports scope added).shorten s).isSome) →
        ∃ texts, List.Forall₂ (Php.Namespace.withImports scope added).Rewrites ps texts ∧
          (Php.Namespace.withImports scope added).shortenLine line = some texts.flatten ∧
          (¬ DoublesSeparator (ps.flatMap Php.Piece.visible) →
            (Php.Namespace.withImports scope added).shortenLine texts.flatten = some texts.flatten))) ∧
    ∀ m : Manifest, m.isValid → ∀ e ∈ m.entities, ∀ method ∈ (m.builder e).toClass.methods,
      ∀ line ∈ method.body, ∀ ps, Php.IsSplit line ps →
        ¬ DoublesSeparator (ps.flatMap Php.Piece.visible) := by
  constructor
  · intro line
    refine ⟨Php.cutPieces false line, fun qs => Php.isSplit_iff, fun hnames => ?_⟩
    obtain ⟨texts, htexts⟩ := Option.isSome_iff_exists.1
      (Php.isSome_mapM (f := Php.Piece.shorten (Php.Namespace.withImports scope added))
        (l := Php.cutPieces false line) fun p hp => by
          cases p with
          | literal s => rfl
          | name s => exact hnames s hp
          | other c => rfl)
    have hwritten : List.Forall₂ (Php.Namespace.withImports scope added).Rewrites
        (Php.cutPieces false line) texts :=
      Php.forall₂_of_mapM htexts fun p _ t ht => Php.Namespace.rewrites_iff.2 ht
    refine ⟨texts, hwritten, by rw [Php.Namespace.shortenLine, htexts, Option.map_some], fun hsingle => ?_⟩
    have hsplit : Php.IsSplit line (Php.cutPieces false line) := Php.isSplit_iff.2 rfl
    exact Php.Namespace.Keeps.shortenLine_eq
      ((Php.Namespace.isMade_withImports scope added).keeps_rewritten hsplit hwritten hsingle)
  · intro m hm e he method hmethod line hline ps hsplit
    have hb := Manifest.isWellFormed_builder hm he
    have hplain := ((Builder.harmless_toClass hb).methods method hmethod).body line hline
    have hquotes : '\'' ∉ line ∧ '"' ∉ line :=
      ⟨fun hc => absurd (hplain _ hc) (by decide), fun hc => absurd (hplain _ hc) (by decide)⟩
    rw [hsplit.flatMap_visible hquotes.1 hquotes.2]
    exact hb.not_doublesSeparator_body hmethod line hline

end BuilderForge
