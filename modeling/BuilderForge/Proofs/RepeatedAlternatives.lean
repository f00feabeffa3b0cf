import Mathlib.Data.List.Nodup
import BuilderForge.Proofs.SelfReferences
/-
  Alternatives that come twice in a printed type.

  A printed type has the short forms of the alternatives that the type lists,
  and `null` besides where the type is nullable and its name is not just a
  keyword that accepts `null` (`TypeHint.gainsNull`). Two things repeat an
  alternative. Two different alternatives may have one short form: they name one
  class with and without a separator in front, or a class is written like a
  keyword (`Merges`). And `null` is put beside the alternatives without a look at
  them, so a type that lists it in the middle, or with blanks around it, gets it
  twice. `prints_distinct_iff` says that there is no third thing, and when a
  question mark comes to stand before `mixed` or `null`.
-/

namespace BuilderForge

/-- Whether texts are pairwise different, also up to the case of A to Z. -/
def Text.IsDistinct (ts : List Text) : Prop := (ts.map fold).Nodup

instance (ts : List Text) : Decidable (Text.IsDistinct ts) :=
  inferInstanceAs (Decidable (List.Nodup _))

/-- The keywords that accept `null`. -/
def nullKeywords : List Text := ["mixed".toList, nullWord]

theorem Php.acceptsNull_iff {name : Text} : acceptsNull name ↔ Text.fold name ∈ nullKeywords := by
  simp [acceptsNull, nullKeywords, nullWord]

/-- Whether two alternatives name one class. -/
def Name.IsOneClass (a a' : Text) : Prop :=
  isTypeKeyword a = false ∧ isTypeKeyword a' = false ∧
    Text.fold (stripSeparator a) = Text.fold (stripSeparator a')

instance (a a' : Text) : Decidable (Name.IsOneClass a a') :=
  inferInstanceAs (Decidable (_ ∧ _))

/-- Whether a printed type has a question mark before a keyword that accepts `null`. -/
def TypeHint.MarksKeyword (printed : Text) : Prop :=
  ∃ name, printed = '?' :: name ∧ Php.acceptsNull name

/-! ## Alternatives with one short form -/

theorem Name.fold_stripSeparator (t : Text) :
    Text.fold (stripSeparator t) = stripSeparator (Text.fold t) := by
  cases t with
  | nil => rfl
  | cons c t =>
    have hlower := Php.toLower_eq_separator (c := c)
    by_cases hc : c = separator <;> simp_all [stripSeparator, Text.fold]

namespace Builder

variable {b : Builder}

/-- Whether the class that an alternative names is written like the keyword `k`:
in the global namespace it has this name, elsewhere it is the namespace itself
and `k` the last label of it. -/
def Masks (b : Builder) (a k : Text) : Prop :=
  Name.isTypeKeyword a = false ∧ Name.isTypeKeyword k ∧
    if b.entity.scope = [] then Text.fold (Name.stripSeparator a) = Text.fold k
    else Text.fold (Name.stripSeparator a) = Text.fold b.entity.scope ∧
      Text.fold (Name.short b.entity.scope) = Text.fold k

instance (a k : Text) : Decidable (b.Masks a k) := inferInstanceAs (Decidable (_ ∧ _))

/-- Whether the page writes two alternatives in one way that are written in two. -/
def Merges (b : Builder) (a a' : Text) : Prop :=
  Name.IsOneClass a a' ∨ b.Masks a a' ∨ b.Masks a' a

instance (a a' : Text) : Decidable (b.Merges a a') := inferInstanceAs (Decidable (_ ∨ _))

/-- The short form of a class name, up to case: the label of the namespace
stands for the namespace, and any other name is written in full. -/
theorem IsWellFormed.fold_short_cases (hb : b.IsWellFormed) {a short : Text}
    (ha : Name.isPath (Name.stripSeparator a)) (hkeyword : Name.isTypeKeyword a = false)
    (h : b.toNamespace.shorten a = some short) :
    b.entity.scope = [] ∧ Text.fold short = Text.fold (Name.stripSeparator a) ∨
    b.entity.scope ≠ [] ∧ (Php.covers b.entity.scope (Name.stripSeparator a) = true ∧
        (∃ rest, Text.fold (Name.stripSeparator a) = Text.fold b.entity.scope ++ rest ∧
          (rest = [] ∨ ∃ below, rest = Name.separator :: below) ∧
          Text.fold short = Text.fold (Name.short b.entity.scope) ++ rest) ∨
      Php.covers b.entity.scope (Name.stripSeparator a) = false ∧
        Text.fold short = Name.separator :: Text.fold (Name.stripSeparator a)) := by
  obtain ⟨hself | hself, -⟩ | ⟨-, hshort⟩ := Php.shortening_of_shorten h
  · rw [hself] at ha
    exact absurd rfl (Name.ne_nil_of_isPath ha)
  · rw [hkeyword] at hself
    cases hself
  rw [hb.toNamespace_eq] at hshort
  generalize Name.stripSeparator a = n at hshort ⊢
  cases hshort with
  | imported hi hhead hrest =>
    rename_i i head rest
    dsimp only at hi
    split at hi
    · cases hi
    · rename_i hne
      cases List.mem_singleton.1 hi
      refine .inr ⟨hne, .inl ⟨Php.covers_iff.2 ⟨head, rest, rfl, hhead, hrest⟩, Text.fold rest, ?_, ?_, ?_⟩⟩
      · rw [Text.fold_append, hhead]
      · obtain rfl | ⟨below, rfl⟩ := hrest
        · exact .inl rfl
        · exact .inr ⟨Text.fold below, rfl⟩
      · exact Text.fold_append _ _
  | bare hns _ => exact .inl ⟨hns, rfl⟩
  | relative hns hu hhead =>
    -- what lies below the namespace is covered by its import
    rename_i head
    dsimp only at hns hhead
    have huncovered := hu ⟨Name.short b.entity.scope, b.entity.scope⟩ (by
      dsimp only
      rw [if_neg hns]
      exact List.mem_singleton_self _)
    have hcovers : Php.covers b.entity.scope (head ++ Name.separator :: short) = true :=
      Php.covers_iff.2 ⟨head, _, rfl, hhead, .inr ⟨short, rfl⟩⟩
    cases hcovers.symm.trans huncovered
  | full hns _ hc => exact .inr ⟨hns, .inr ⟨hc, rfl⟩⟩

/-- The label of a namespace is a label. -/
theorem IsWellFormed.isLabel_short_scope (hb : b.IsWellFormed) (hne : b.entity.scope ≠ []) :
    Name.isLabel (Text.fold (Name.short b.entity.scope)) := by
  have hpath := hb.isPath_scope.resolve_left hne
  rw [Name.isLabel_fold]
  apply Name.isLabel_short
  rwa [Name.stripSeparator_of_isPath hpath]

/-- Class names have one short form exactly if they are one name. -/
theorem IsWellFormed.fold_short_iff_class (hb : b.IsWellFormed) {a a' s s' : Text}
    (ha : Name.isPath (Name.stripSeparator a)) (ha' : Name.isPath (Name.stripSeparator a'))
    (hkeyword : Name.isTypeKeyword a = false) (hkeyword' : Name.isTypeKeyword a' = false)
    (h : b.toNamespace.shorten a = some s) (h' : b.toNamespace.shorten a' = some s') :
    Text.fold s = Text.fold s' ↔
      Text.fold (Name.stripSeparator a) = Text.fold (Name.stripSeparator a') := by
  -- a label does not begin with the separator that a name in full begins with
  have hstart (hne : b.entity.scope ≠ []) (rest t : Text) :
      Text.fold (Name.short b.entity.scope) ++ rest ≠ Name.separator :: t := by
    intro heq
    have hprefix := Php.Header.isPrefixOf_separator (hb.isLabel_short_scope hne) rest
    rw [heq] at hprefix
    simp [List.isPrefixOf] at hprefix
  have hcovers (heq : Text.fold (Name.stripSeparator a) = Text.fold (Name.stripSeparator a')) :
      Php.covers b.entity.scope (Name.stripSeparator a) =
        Php.covers b.entity.scope (Name.stripSeparator a') := by
    rw [Php.covers, Php.covers, heq]
  obtain ⟨hnil, hs⟩ | ⟨hne, ⟨hc, rest, hn, -, hs⟩ | ⟨hc, hs⟩⟩ :=
      hb.fold_short_cases ha hkeyword h <;>
    obtain ⟨hnil', hs'⟩ | ⟨hne', ⟨hc', rest', hn', -, hs'⟩ | ⟨hc', hs'⟩⟩ :=
      hb.fold_short_cases ha' hkeyword' h'
  · rw [hs, hs']
  · exact absurd hnil hne'
  · exact absurd hnil hne'
  · exact absurd hnil' hne
  · rw [hs, hs', hn, hn', List.append_cancel_left_eq, List.append_cancel_left_eq]
  · rw [hs, hs']
    refine iff_of_false (hstart hne _ _) fun heq => ?_
    cases (hc.symm.trans (hcovers heq)).trans hc'
  · exact absurd hnil' hne
  · rw [hs, hs']
    refine iff_of_false (fun heq => hstart hne _ _ heq.symm) fun heq => ?_
    cases (hc.symm.trans (hcovers heq)).trans hc'
  · rw [hs, hs', List.cons.injEq, and_iff_right rfl]

/-- A class is written like a keyword exactly if it is masked by it. -/
theorem IsWellFormed.fold_short_iff_masks (hb : b.IsWellFormed) {a k s : Text}
    (ha : Name.isPath (Name.stripSeparator a)) (hkeyword : Name.isTypeKeyword a = false)
    (hk : Name.isTypeKeyword k) (h : b.toNamespace.shorten a = some s) :
    Text.fold s = Text.fold k ↔ b.Masks a k := by
  have hseparator : Name.separator ∉ Text.fold k := by
    apply Name.separator_notMem_of_isLabel
    rw [Name.isLabel_fold]
    exact Name.isLabel_of_isTypeKeyword hk
  rw [Masks, and_iff_right hkeyword, and_iff_right hk]
  obtain ⟨hnil, hs⟩ | ⟨hne, ⟨hc, rest, hn, hrest, hs⟩ | ⟨hc, hs⟩⟩ := hb.fold_short_cases ha hkeyword h
  · rw [if_pos hnil, hs]
  · rw [if_neg hne, hs, hn]
    obtain rfl | ⟨below, rfl⟩ := hrest
    · rw [List.append_nil, List.append_nil, and_iff_right rfl]
    · refine iff_of_false (fun heq => hseparator ?_) fun ⟨heq, _⟩ => ?_
      · rw [← heq]
        exact List.mem_append_right _ List.mem_cons_self
      · simp at heq
  · rw [if_neg hne, hs]
    refine iff_of_false (fun heq => hseparator ?_) fun ⟨heq, _⟩ => ?_
    · rw [← heq]
      exact List.mem_cons_self
    · rw [Php.covers_of_fold_eq heq] at hc
      cases hc

/-- Two alternatives have one short form exactly if they are one text or merge. -/
theorem IsWellFormed.fold_short_iff (hb : b.IsWellFormed) {a a' s s' : Text}
    (ha : Name.isPath (Name.stripSeparator a)) (ha' : Name.isPath (Name.stripSeparator a'))
    (h : b.toNamespace.shorten a = some s) (h' : b.toNamespace.shorten a' = some s') :
    Text.fold s = Text.fold s' ↔ Text.fold a = Text.fold a' ∨ b.Merges a a' := by
  have hkeyword_eq (heq : Text.fold a = Text.fold a') :
      Name.isTypeKeyword a = Name.isTypeKeyword a' := by
    rw [Name.isTypeKeyword, Name.isTypeKeyword, heq]
  have hself {t u : Text} (hkeyword : Name.isTypeKeyword t) (h : b.toNamespace.shorten t = some u) :
      u = t := by
    rw [b.toNamespace.shorten_of_isTypeKeyword hkeyword] at h
    exact (Option.some_inj.1 h).symm
  unfold Merges Name.IsOneClass
  cases hkeyword : Name.isTypeKeyword a <;> cases hkeyword' : Name.isTypeKeyword a'
  · -- two class names
    have hclass (heq : Text.fold a = Text.fold a') :
        Text.fold (Name.stripSeparator a) = Text.fold (Name.stripSeparator a') := by
      rw [Name.fold_stripSeparator, Name.fold_stripSeparator, heq]
    rw [hb.fold_short_iff_class ha ha' hkeyword hkeyword' h h']
    simp only [Masks, hkeyword, hkeyword']
    tauto
  · -- a class name and a keyword
    rw [hself hkeyword' h', hb.fold_short_iff_masks ha hkeyword hkeyword' h]
    have hne : Text.fold a ≠ Text.fold a' := by
      intro heq
      cases (hkeyword.symm.trans (hkeyword_eq heq)).trans hkeyword'
    simp only [Masks, hkeyword, hkeyword', hne]
    tauto
  · rw [hself hkeyword h, eq_comm, hb.fold_short_iff_masks ha' hkeyword' hkeyword h']
    have hne : Text.fold a ≠ Text.fold a' := by
      intro heq
      cases (hkeyword.symm.trans (hkeyword_eq heq)).trans hkeyword'
    simp only [Masks, hkeyword, hkeyword', hne]
    tauto
  · -- two keywords
    rw [hself hkeyword h, hself hkeyword' h']
    simp only [Masks, hkeyword, hkeyword']
    tauto

/-- The short forms of alternatives are different exactly if the alternatives are
and no two of them merge. -/
theorem IsWellFormed.isDistinct_short_iff (hb : b.IsWellFormed) {declared shorts : List Text}
    (hpath : ∀ a ∈ declared, Name.isPath (Name.stripSeparator a))
    (h : declared.mapM b.toNamespace.shorten = some shorts) :
    Text.IsDistinct shorts ↔
      Text.IsDistinct declared ∧ declared.Pairwise fun a a' => ¬ b.Merges a a' := by
  have hshort := Php.exists_of_mapM h
  calc Text.IsDistinct shorts
      ↔ (shorts.map some).Pairwise fun s s' => s.map Text.fold ≠ s'.map Text.fold := by
        rw [Text.IsDistinct, List.Nodup, List.pairwise_map, List.pairwise_map]
        simp only [Option.map_some, ne_eq, Option.some_inj]
    _ ↔ declared.Pairwise fun a a' =>
          (b.toNamespace.shorten a).map Text.fold ≠ (b.toNamespace.shorten a').map Text.fold := by
        rw [← Php.mapM_eq_some_iff.1 h, List.pairwise_map]
    _ ↔ declared.Pairwise fun a a' => Text.fold a ≠ Text.fold a' ∧ ¬ b.Merges a a' := by
        refine List.Pairwise.iff_of_mem fun {a a'} ha ha' => ?_
        obtain ⟨s, hs⟩ := hshort a ha
        obtain ⟨s', hs'⟩ := hshort a' ha'
        rw [hs, hs', Option.map_some, Option.map_some, ne_eq, Option.some_inj,
          hb.fold_short_iff (hpath a ha) (hpath a' ha') hs hs', not_or]
    _ ↔ _ := by rw [List.pairwise_and_iff, Text.IsDistinct, List.Nodup, List.pairwise_map]

/-- An alternative is written like a keyword if it is that keyword or masked by it. -/
theorem IsWellFormed.fold_short_iff_keyword (hb : b.IsWellFormed) {a k s : Text}
    (ha : Name.isPath (Name.stripSeparator a)) (hk : Name.isTypeKeyword k)
    (h : b.toNamespace.shorten a = some s) :
    Text.fold s = Text.fold k ↔ Text.fold a = Text.fold k ∨ b.Masks a k := by
  have hpath : Name.isPath (Name.stripSeparator k) := by
    rw [Name.stripSeparator_of_isPath (Name.isPath_of_isTypeKeyword hk)]
    exact Name.isPath_of_isTypeKeyword hk
  rw [hb.fold_short_iff ha hpath h (b.toNamespace.shorten_of_isTypeKeyword hk), Merges,
    Name.IsOneClass, Masks, Masks, hk]
  simp

end Builder

/-! ## Printed types -/

theorem TypeHint.listed_eq_singleton_iff {ty : TypeHint} :
    (∃ a, ty.listed = [a]) ↔ ty.isUnion = false := by
  rw [← Bool.not_eq_true, isUnion, decide_eq_true_iff, listed]
  constructor
  · rintro ⟨a, ha⟩ hbar
    obtain ⟨piece, hpiece, -⟩ := List.map_eq_singleton_iff.1 ha
    have hname := Text.join_pieces '|' ty.name
    rw [hpiece, Text.join_singleton] at hname
    have hfree := Text.mem_of_mem_pieces piece (by rw [hpiece]; exact List.mem_singleton_self _) '|'
    exact (hfree (hname ▸ hbar)).2 rfl
  · intro hbar
    exact ⟨_, by rw [Text.pieces_of_not_mem hbar, List.map_singleton]⟩

namespace Builder

variable {b : Builder}

/-- No alternative of a type is written `null` exactly if none is the keyword or
masked by it. -/
theorem IsWellFormed.null_notMem_iff (hb : b.IsWellFormed) {declared shorts : List Text}
    (hpath : ∀ a ∈ declared, Name.isPath (Name.stripSeparator a))
    (h : declared.mapM b.toNamespace.shorten = some shorts) :
    nullWord ∉ shorts.map Text.fold ↔
      ∀ a ∈ declared, Text.fold a ≠ nullWord ∧ ¬ b.Masks a nullWord := by
  have hfold : Text.fold nullWord = nullWord := by decide
  have hkeyword {a s : Text} (ha : a ∈ declared) (hs : b.toNamespace.shorten a = some s) :
      Text.fold s = nullWord ↔ Text.fold a = nullWord ∨ b.Masks a nullWord := by
    have hiff := hb.fold_short_iff_keyword (hpath a ha) (k := nullWord) (by decide) hs
    rwa [hfold] at hiff
  have hshort := Php.exists_of_mapM h
  simp only [List.mem_map, not_exists, not_and, Php.mem_mapM_iff h, forall_exists_index, and_imp]
  constructor
  · intro hfree a ha
    obtain ⟨s, hs⟩ := hshort a ha
    exact not_or.1 fun hnull => hfree s a ha hs ((hkeyword ha hs).2 hnull)
  · intro hfree s a ha hs hnull
    exact not_or.2 (hfree a ha) ((hkeyword ha hs).1 hnull)

/-- The alternatives that a type lists have short forms if the type has one. -/
theorem exists_shorts {ty : TypeHint} {printed : Text} (h : b.toNamespace.typeText ty = some printed) :
    ∃ shorts, ty.listed.mapM b.toNamespace.shorten = some shorts := by
  obtain ⟨parts, hparts, -⟩ := Php.Namespace.typeText_eq_some h
  refine ⟨parts, ?_⟩
  rw [Php.mapM_eq_some_iff] at hparts ⊢
  rw [← hparts, TypeHint.listed, List.map_map]
  rfl

theorem isPath_of_mem_listed {ty : TypeHint} (hlist : Name.isTypeList ty.name) :
    ∀ a ∈ ty.listed, Name.isPath (Name.stripSeparator a) := by
  intro a ha
  obtain ⟨piece, hpiece, rfl⟩ := List.mem_map.1 ha
  exact List.all_eq_true.1 hlist piece hpiece

/-- The alternatives of a printed type are different if those listed are, no two of
them have one short form, and a `null` that is put beside them is not among them. -/
theorem IsWellFormed.isDistinct_printed_iff (hb : b.IsWellFormed) {ty : TypeHint}
    (hlist : Name.isTypeList ty.name) {printed : Text}
    (h : b.toNamespace.typeText ty = some printed) :
    Text.IsDistinct (TypeHint.alternatives printed) ↔
      Text.IsDistinct ty.listed ∧ (ty.listed.Pairwise fun a a' => ¬ b.Merges a a') ∧
      (ty.gainsNull → ∀ a ∈ ty.listed, Text.fold a ≠ nullWord ∧ ¬ b.Masks a nullWord) := by
  have hmade : b.toNamespace.IsMade := .addClass (.addImport (.named _) _) _
  have hpath := isPath_of_mem_listed hlist
  obtain ⟨shorts, hshorts⟩ := exists_shorts h
  have hfold : Text.fold nullWord = nullWord := by decide
  rw [Text.IsDistinct, ((hmade.perm_alternatives hlist hshorts h).map Text.fold).nodup_iff,
    ← and_assoc, ← hb.isDistinct_short_iff hpath hshorts, Text.IsDistinct]
  split
  · rename_i hgains
    rw [List.map_cons, List.nodup_cons, hfold, hb.null_notMem_iff hpath hshorts, and_comm,
      forall_prop_of_true hgains]
  · rename_i hgains
    rw [forall_prop_of_false hgains, and_true]

/-- A question mark stands before `mixed` or `null` where a type gains a `null` beside
a single alternative that is written like one of them. -/
theorem IsWellFormed.marksKeyword_iff (hb : b.IsWellFormed) {ty : TypeHint}
    (hlist : Name.isTypeList ty.name) {printed : Text}
    (h : b.toNamespace.typeText ty = some printed) :
    TypeHint.MarksKeyword printed ↔ ty.gainsNull ∧ ∃ a, ty.listed = [a] ∧
      ∃ k ∈ nullKeywords, Text.fold a = k ∨ b.Masks a k := by
  have hmade : b.toNamespace.IsMade := .addClass (.addImport (.named _) _) _
  have hpath := isPath_of_mem_listed hlist
  obtain ⟨shorts, hshorts⟩ := exists_shorts h
  obtain ⟨-, hmark, htext⟩ := hmade.typeText_eq hlist hshorts
  -- a text without a question mark marks nothing
  have hunmarked {t : Text} (ht : '?' ∉ t) : ¬ TypeHint.MarksKeyword t := by
    rintro ⟨name, rfl, -⟩
    exact ht List.mem_cons_self
  cases htext.symm.trans h
  cases hgains : ty.gainsNull with
  | false => simpa using hunmarked hmark
  | true =>
    rw [if_pos rfl, and_iff_right rfl]
    cases hunion : ty.isUnion with
    | true =>
      rw [if_pos rfl]
      refine iff_of_false (hunmarked (by simpa using hmark)) ?_
      rintro ⟨a, ha, -⟩
      cases hunion.symm.trans (TypeHint.listed_eq_singleton_iff.1 ⟨a, ha⟩)
    | false =>
      obtain ⟨a, ha⟩ := TypeHint.listed_eq_singleton_iff.2 hunion
      rw [ha, Php.mapM_eq_some_iff, List.map_singleton] at hshorts
      obtain ⟨s, rfl, hs⟩ := List.map_eq_singleton_iff.1 hshorts.symm
      have hmarks : TypeHint.MarksKeyword ('?' :: Text.join ['|'] [s]) ↔ Php.acceptsNull s := by
        rw [Text.join_singleton]
        refine ⟨?_, fun hs => ⟨s, rfl, hs⟩⟩
        rintro ⟨name, heq, hname⟩
        cases heq
        exact hname
      have hkeyword (k : Text) (hk : k ∈ nullKeywords) : Text.fold s = k ↔
          Text.fold a = k ∨ b.Masks a k := by
        have hall : ∀ k ∈ nullKeywords, Text.fold k = k ∧ Name.isTypeKeyword k := by decide
        obtain ⟨hfold, hk⟩ := hall k hk
        have hiff := hb.fold_short_iff_keyword (hpath a (by rw [ha]; exact List.mem_cons_self)) hk hs.symm
        rwa [hfold] at hiff
      rw [if_neg (by simp), hmarks, ha, Php.acceptsNull_iff]
      constructor
      · intro hs
        exact ⟨a, rfl, _, hs, (hkeyword _ hs).1 rfl⟩
      · rintro ⟨_, ⟨rfl⟩, k, hk, h⟩
        rw [(hkeyword k hk).2 h]
        exact hk

end Builder

/-- Whether the page prints a type for the parameter in place `i` of a method:
the lines of the method's head stand on the page, and the type stands before the
name of the parameter. -/
def PrintsBefore (style : Style) (page : Text) (m : Php.Method) (i : Nat)
    (printed : Text) : Prop :=
  ∃ params returns p,
    (Php.Namespace.headRows 1 (Php.Namespace.methodHead m) params returns).map
      (Code.Row.line style.layout.indentation.unit) <:+: Text.pieces '\n' page ∧
    m.params[i]? = some p ∧
    params[i]? = some (printed ++ [' '] ++ '$' :: p.name ++
      (p.default.map fun code => " = ".toList ++ code).getD [])

theorem Builder.IsWellFormed.exists_printsBefore {b : Builder} (hb : b.IsWellFormed) (style : Style)
    {m : Php.Method} (hm : m ∈ b.toClass.methods) {i : Nat} {p : Php.Parameter}
    (hp : m.params[i]? = some p) {ty : TypeHint} (hty : p.type = some ty) :
    ∃ printed, b.toNamespace.typeText ty = some printed ∧
      PrintsBefore style (b.page style.layout) m i printed := by
  obtain ⟨params, returns, hparams, hinfix⟩ := hb.infix_headRows style hm
  obtain ⟨t, ht, hprinted⟩ := Php.getElem?_mapM hparams hp
  obtain ⟨type, ⟨hnone, -⟩ | ⟨ty', printed, hty', htext, rfl⟩, rfl⟩ :=
    Php.Namespace.parameterText_eq_some hprinted
  · cases hty.symm.trans hnone
  · cases hty.symm.trans hty'
    exact ⟨printed, htext, params, returns, p, hinfix, hp, ht⟩

/-- On the page of every entity of a valid manifest that gets one, the printed
type of a parameter repeats no alternative exactly if its type lists none twice,
no two of them merge, and `null` does not come to stand beside an alternative
that is written `null` already. A question mark stands before `mixed` or `null`
exactly if a nullable type is this keyword with blanks around it, or a class
that is written like it. -/
theorem prints_distinct_iff {m : Manifest} (hm : m.isValid) {e : Entity} (he : e ∈ m.entities)
    (hwanted : (m.builder e).isWanted) (style : Style) :
    ∃ page, (m.builder e).page? style.layout = some page ∧
      ∀ method ∈ (m.builder e).toClass.methods, ∀ i p ty, method.params[i]? = some p →
        p.type = some ty →
        ∃ printed, PrintsBefore style page method i printed ∧
          (Text.IsDistinct (TypeHint.alternatives printed) ↔ Text.IsDistinct ty.listed ∧
            (ty.listed.Pairwise fun a a' => ¬ (m.builder e).Merges a a') ∧
            (ty.gainsNull → ∀ a ∈ ty.listed,
              Text.fold a ≠ nullWord ∧ ¬ (m.builder e).Masks a nullWord)) ∧
          (TypeHint.MarksKeyword printed ↔ ty.gainsNull ∧ ∃ a, ty.listed = [a] ∧
            ∃ k ∈ nullKeywords, Text.fold a = k ∨ (m.builder e).Masks a k) := by
  have hb := Manifest.isWellFormed_builder hm he
  refine ⟨(m.builder e).page style.layout, by rw [Builder.page?, if_pos hwanted], ?_⟩
  intro method hmethod i p ty hp hty
  obtain ⟨printed, htext, hprints⟩ := hb.exists_printsBefore style hmethod hp hty
  have hlist := hb.isTypeList_of_mem_params hmethod (List.mem_of_getElem? hp) hty
  exact ⟨printed, hprints, hb.isDistinct_printed_iff hlist htext, hb.marksKeyword_iff hlist htext⟩

/-- A nullable parameter of the type `raw`. -/
def barParameter (raw : Text) : ParameterDeclaration :=
  ⟨"bar".toList, some (TypeHint.parse raw), true, none⟩

/-- A setter of this parameter. -/
def barSetter (raw : Text) : MethodDeclaration :=
  ⟨"setBar".toList, .publicAccess, false, [barParameter raw]⟩

/-- An entity with this setter. -/
def barEntity (raw : Text) : Entity := ⟨"App\\Bar".toList, [], [barSetter raw]⟩

/-- The manifest of this entity. -/
def barManifest (raw : Text) : Manifest := ⟨Settings.default, [barEntity raw]⟩

/-- The builder of this entity. -/
def barBuilder (raw : Text) : Builder := (barManifest raw).builder (barEntity raw)

theorem mem_methods_bar (raw : Text) :
    (barBuilder raw).method (.setter (barSetter raw)) ∈ (barBuilder raw).toClass.methods :=
  (barBuilder raw).method_mem_methods ⟨[], [], rfl, fun _ h => absurd h List.not_mem_nil⟩

theorem printsBefore_bar {raw printed : Text} (hvalid : (barManifest raw).isValid)
    (hwanted : (barBuilder raw).isWanted)
    (h : (barParameter raw).builderType.bind (barBuilder raw).toNamespace.typeText = some printed) :
    ∃ page, (barBuilder raw).page? Style.psr.layout = some page ∧
      PrintsBefore .psr page ((barBuilder raw).method (.setter (barSetter raw))) 0 printed := by
  have hb : (barBuilder raw).IsWellFormed :=
    Manifest.isWellFormed_builder hvalid (List.mem_singleton_self (barEntity raw))
  obtain ⟨ty, hty, htext⟩ := Option.bind_eq_some_iff.1 h
  obtain ⟨printed', htext', hbefore⟩ :=
    hb.exists_printsBefore .psr (mem_methods_bar raw) (i := 0) rfl hty
  cases htext.symm.trans htext'
  exact ⟨_, by rw [Builder.page?, if_pos hwanted], hbefore⟩

theorem prints_distinct_iff_bar : (barManifest "\\App\\Bar|string".toList).isValid ∧
    (barBuilder "\\App\\Bar|string".toList).isWanted ∧
    ∃ page printed, (barBuilder "\\App\\Bar|string".toList).page? Style.psr.layout = some page ∧
      PrintsBefore .psr page ((barBuilder "\\App\\Bar|string".toList).method
        (.setter (barSetter "\\App\\Bar|string".toList))) 0 printed ∧
      Text.IsDistinct (TypeHint.alternatives printed) := by
  have hvalid : (barManifest "\\App\\Bar|string".toList).isValid := by decide
  have hwanted : (barBuilder "\\App\\Bar|string".toList).isWanted := by decide
  obtain ⟨page, hpage, hprints⟩ :=
    prints_distinct_iff hvalid (List.mem_singleton_self _) hwanted .psr
  obtain ⟨printed, hbefore, hdistinct, -⟩ := hprints _ (mem_methods_bar _) 0 _ _ rfl rfl
  refine ⟨hvalid, hwanted, page, printed, hpage, hbefore, hdistinct.2 ⟨?_, ?_, ?_⟩⟩
  · decide
  · decide
  · decide

/-- A nullable parameter whose type lists `null` between two other alternatives
is printed with `null` twice, and `null` with a blank before it is printed with a
question mark. -/
theorem not_prints_distinct_bar :
    ((barManifest "int|null|string".toList).isValid ∧
      (barBuilder "int|null|string".toList).isWanted ∧
      Text.IsDistinct (TypeHint.parse "int|null|string".toList).listed ∧
      ∃ page, (barBuilder "int|null|string".toList).page? Style.psr.layout = some page ∧
        PrintsBefore .psr page ((barBuilder "int|null|string".toList).method
          (.setter (barSetter "int|null|string".toList))) 0 "int|null|string|null".toList ∧
        ¬ Text.IsDistinct (TypeHint.alternatives "int|null|string|null".toList)) ∧
    (barManifest "? null".toList).isValid ∧ (barBuilder "? null".toList).isWanted ∧
      ∃ page, (barBuilder "? null".toList).page? Style.psr.layout = some page ∧
        PrintsBefore .psr page ((barBuilder "? null".toList).method
          (.setter (barSetter "? null".toList))) 0 "?null".toList ∧
        TypeHint.MarksKeyword "?null".toList := by
  constructor
  · have hvalid : (barManifest "int|null|string".toList).isValid := by decide
    have hwanted : (barBuilder "int|null|string".toList).isWanted := by decide
    have htext : (barParameter "int|null|string".toList).builderType.bind
        (barBuilder "int|null|string".toList).toNamespace.typeText =
          some "int|null|string|null".toList := by decide
    obtain ⟨page, hpage, hbefore⟩ := printsBefore_bar hvalid hwanted htext
    exact ⟨hvalid, hwanted, by decide, page, hpage, hbefore, by decide⟩
  · have hvalid : (barManifest "? null".toList).isValid := by decide
    have hwanted : (barBuilder "? null".toList).isWanted := by decide
    have htext : (barParameter "? null".toList).builderType.bind
        (barBuilder "? null".toList).toNamespace.typeText = some "?null".toList := by decide
    obtain ⟨page, hpage, hbefore⟩ := printsBefore_bar hvalid hwanted htext
    exact ⟨hvalid, hwanted, page, hpage, hbefore, nullWord, rfl, by decide⟩

end BuilderForge
