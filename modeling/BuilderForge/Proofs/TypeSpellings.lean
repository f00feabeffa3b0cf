import BuilderForge.Proofs.Alternatives
/-
  Types that are written and read again.

  A nullable type is written with a question mark, or as a union with `null` at
  its end; reading undoes either, and may undo more: it drops the blanks around
  the text, and a `null` at the front even if the one at the end was put there by
  writing. A canonical type gives it nothing else to drop. Its name is a list of
  alternatives without blanks around them, so the whole text has none
  (`trim_of_pieces`), none of them begins with a question mark, and none is
  `null` (`IsCanonical.dropNull?_eq_none`, `dropNull?_append`). So canonical types are
  read as they were written, and reading any text keeps its alternatives:
  `reads_back`.
-/

namespace BuilderForge

/-! ## Blanks around a text -/

/-- Pieces without blanks around them make a text without blanks around it. -/
theorem Text.trim_of_pieces {sep : Char} (hsep : isBlank sep = false) {t : Text}
    (h : ∀ p ∈ pieces sep t, trim p = p) : trim t = t := by
  apply trim_eq_self_iff.2
  refine ⟨?_, ?_⟩
  · cases t with
    | nil => simp
    | cons c t =>
      by_cases hc : c = sep
      · simp [hc, hsep]
      · obtain ⟨p, ps, _, hpieces⟩ := pieces_cons_of_ne hc t
        have htrim := trim_eq_self_iff.1 (h (c :: p) (by simp [hpieces]))
        simpa using htrim.1
  · cases hcut : cutLast sep t with
    | none =>
      have hsingle := pieces_of_not_mem (Name.cutLast_eq_none_iff.1 hcut)
      exact (trim_eq_self_iff.1 (h t (by simp [hsingle]))).2
    | some cut =>
      obtain ⟨before, after⟩ := cut
      obtain ⟨rfl, hafter⟩ := Name.cutLast_eq_some hcut
      have hpieces : pieces sep (before ++ sep :: after) = pieces sep before ++ [after] := by
        rw [pieces_append_sep, pieces_of_not_mem hafter]
      have htrim := (trim_eq_self_iff.1 (h after (by simp [hpieces]))).2
      -- the text ends with its last piece, or with the separator before it
      cases after with
      | nil => simp [hsep]
      | cons c after =>
        rw [List.getLast?_append_of_ne_nil _ (List.cons_ne_nil _ _), List.getLast?_cons_cons]
        exact htrim

namespace TypeHint

/-! ## Canonical types -/

/-- Whether a type lists alternatives without blanks around them, none of which is `null`. -/
structure IsCanonical (ty : TypeHint) : Prop where
  isTypeList : Name.isTypeList ty.name
  trimmed : ∀ a ∈ Text.pieces '|' ty.name, Text.trim a = a
  ne_null : ∀ a ∈ Text.pieces '|' ty.name, a ≠ nullWord

theorem IsCanonical.mark_notMem {ty : TypeHint} (h : ty.IsCanonical) : '?' ∉ ty.name := by
  have hnames : ∀ p ∈ Text.pieces '|' ty.name, Name.isPath (Name.stripSeparator p) := by
    intro p hp
    have halternative : Name.isAlternative p := List.all_eq_true.1 h.isTypeList p hp
    rwa [Name.isAlternative, h.trimmed p hp] at halternative
  have hmark := (Php.Namespace.pieces_join_names (Text.pieces_ne_nil '|' ty.name) hnames).2
  rwa [Text.join_pieces] at hmark

/-- There is no `null` to be dropped from a canonical type. -/
theorem IsCanonical.dropNull?_eq_none {ty : TypeHint} (h : ty.IsCanonical) :
    dropNull? ty.name = none := by
  apply Option.eq_none_iff_forall_ne_some.2
  intro rest hrest
  exact h.ne_null nullWord ((mem_pieces_of_dropNull? hrest).2 (.inr rfl)) rfl

/-- The `null` at the end is dropped if there is none at the front. -/
theorem dropNull?_append {name : Text} (h : ∀ a ∈ Text.pieces '|' name, a ≠ nullWord) :
    dropNull? (name ++ "|null".toList) = some name := by
  have hfront : "null|".toList.isPrefixOf? (name ++ "|null".toList) = none := by
    apply Option.eq_none_iff_forall_ne_some.2
    intro rest hrest
    have hpieces := congrArg (Text.pieces '|') (List.isPrefixOf?_eq_some_iff_append_eq.1 hrest)
    rw [show "null|".toList ++ rest = nullWord ++ '|' :: rest from rfl,
      show "|null".toList = '|' :: nullWord from rfl, Text.pieces_append_sep, Text.pieces_append_sep,
      Text.pieces_of_not_mem (by decide : '|' ∉ nullWord)] at hpieces
    -- the first alternative would be `null`
    obtain ⟨p, ps, hp⟩ := List.exists_cons_of_ne_nil (Text.pieces_ne_nil '|' name)
    rw [hp] at hpieces h
    exact h p List.mem_cons_self (List.cons.inj hpieces).1.symm
  have hend : "|null".toList.isSuffixOf? (name ++ "|null".toList) = some name :=
    List.isSuffixOf?_eq_some_iff_append_eq.2 rfl
  rw [dropNull?, hfront]
  exact hend

/-! ## Reading what was written -/

theorem parse_marked {name : Text} (htrim : Text.trim name = name) (h : dropNull? name = none) :
    parse ('?' :: name) = ⟨name, true⟩ := by
  have hend := (Text.trim_eq_self_iff.1 htrim).2
  have hmarked : Text.trim ('?' :: name) = '?' :: name := by
    rw [Text.trim_cons (by decide), Text.trimEnd_eq_self_iff.2 hend]
  simp [parse, hmarked, dropMark?, h]

theorem parse_unmarked {t : Text} (htrim : Text.trim t = t) (hmark : '?' ∉ t) :
    parse t = ⟨(dropNull? t).getD t, (dropNull? t).isSome⟩ := by
  simp only [parse, htrim, dropMark?_eq_none hmark, Option.getD_none]
  cases dropNull? t <;> rfl

/-- A canonical type is read as it was written, nullable or not. -/
theorem IsCanonical.parse_display {ty : TypeHint} (h : ty.IsCanonical) : parse ty.display = ty := by
  have htrim : Text.trim ty.name = ty.name := Text.trim_of_pieces (by decide) h.trimmed
  cases hnullable : ty.nullable with
  | false =>
    have hdisplay : ty.display = ty.name := by simp [display, hnullable]
    rw [hdisplay, parse_unmarked htrim h.mark_notMem, h.dropNull?_eq_none]
    exact congrArg (TypeHint.mk ty.name) hnullable.symm
  | true =>
    have hdisplay : ty.display =
        if ty.isUnion then ty.name ++ "|null".toList else '?' :: ty.name := by
      simp [display, hnullable]
    rw [hdisplay]
    split
    · have htrim : Text.trim (ty.name ++ "|null".toList) = ty.name ++ "|null".toList := by
        have hpieces : Text.pieces '|' (ty.name ++ "|null".toList) =
            Text.pieces '|' ty.name ++ [nullWord] := Text.pieces_append_sep _ _ _
        apply Text.trim_of_pieces (by decide : Text.isBlank '|' = false)
        intro p hp
        rw [hpieces, List.mem_append, List.mem_singleton] at hp
        rcases hp with hp | rfl
        · exact h.trimmed p hp
        · exact trim_nullWord
      have hmark : '?' ∉ ty.name ++ "|null".toList := by simp [h.mark_notMem]
      rw [parse_unmarked htrim hmark, dropNull?_append h.ne_null]
      exact congrArg (TypeHint.mk ty.name) hnullable.symm
    · rw [parse_marked htrim h.dropNull?_eq_none]
      exact congrArg (TypeHint.mk ty.name) hnullable.symm

/-- A type that is not canonical is read as another one: of two `null` the first is dropped. -/
example : parse (display ⟨"null|int".toList, true⟩) = ⟨"int|null".toList, true⟩ := by decide

/-- A canonical type is read as it was written. And whatever text a type is read from, its
alternatives, and `null` if it is nullable, are the alternatives of the text, where a question mark
in front of it stands for `null`. -/
theorem reads_back : (∀ ty : TypeHint, ty.IsCanonical → parse ty.display = ty) ∧
    ∀ raw a, a ∈ Text.pieces '|' (parse raw).name ∨ (parse raw).nullable ∧ a = nullWord ↔
      a ∈ alternatives (Text.trim raw) :=
  ⟨fun _ h => h.parse_display, fun _ _ => mem_alternatives_iff.symm⟩

/-- Alternatives that look like `null`, or begin or end like it. -/
def nullLookalikes : Text := "NULL|\\null|nullable|isnull|Ünull".toList

theorem reads_back_nullLookalikes : ∃ ty : TypeHint, ty = ⟨nullLookalikes, true⟩ ∧ ty.IsCanonical ∧
    ty.display = "NULL|\\null|nullable|isnull|Ünull|null".toList ∧ parse ty.display = ty := by
  have hcanonical : (⟨nullLookalikes, true⟩ : TypeHint).IsCanonical :=
    ⟨by decide, by decide, by decide⟩
  exact ⟨_, rfl, hcanonical, rfl, reads_back.1 _ hcanonical⟩

end TypeHint

end BuilderForge
