import BuilderForge.Proofs.Names
/-
  Short names, by the ways in which they arise.

  `Shortening` lists what a short name can be: the label of an import in place
  of the part of the name that the import stands for, or, where no import
  covers the name, the name itself in the global namespace, what lies below
  the namespace, or the name with a separator in front. `shortening_of_shorten`
  says that there is no other way; what is proved of short names is proved by
  cases of it.
-/

namespace BuilderForge.Php

/-- The first text of fewest bytes: those before it have more, and those after
it no fewer. -/
theorem split_of_fewestBytes {ts : List Text} {t : Text} (h : fewestBytes ts = some t) :
    ∃ before after, ts = before ++ t :: after ∧
      (∀ u ∈ before, Text.byteSize t < Text.byteSize u) ∧
      ∀ u ∈ after, Text.byteSize t ≤ Text.byteSize u := by
  induction ts generalizing t with
  | nil => cases h
  | cons s ts ih =>
    rw [fewestBytes] at h
    split at h
    · rename_i hnone
      cases h
      exact ⟨[], ts, rfl, by simp, by simp [fewestBytes_eq_none_iff.1 hnone]⟩
    · rename_i u hu
      obtain ⟨before, after, rfl, hbefore, hafter⟩ := ih hu
      split at h
      · rename_i hlt
        cases h
        exact ⟨s :: before, after, rfl, by simpa using ⟨hlt, hbefore⟩, hafter⟩
      · rename_i hle
        cases h
        refine ⟨[], before ++ u :: after, rfl, by simp, fun v hv => ?_⟩
        have hmin : Text.byteSize u ≤ Text.byteSize v := by
          rcases List.mem_append.1 hv with hv | hv
          · exact Nat.le_of_lt (hbefore v hv)
          rcases List.mem_cons.1 hv with rfl | hv
          · exact Nat.le_refl _
          · exact hafter v hv
        omega

theorem mem_of_fewestBytes {ts : List Text} {t : Text} (h : fewestBytes ts = some t) : t ∈ ts := by
  obtain ⟨before, after, rfl, -⟩ := split_of_fewestBytes h
  exact List.mem_append_right before List.mem_cons_self

/-- Whether no import covers the name. -/
def Namespace.Uncovered (ns : Namespace) (name : Text) : Prop :=
  ∀ i ∈ ns.imports, covers i.name name = false

/-- What a name without a separator in front is written as, and why. -/
inductive Shortening (ns : Namespace) : Text → Text → Prop where
  /-- The label of an import stands for the start of the name. -/
  | imported {i : Import} {head rest : Text} (hi : i ∈ ns.imports)
      (hhead : Text.fold head = Text.fold i.name)
      (hrest : rest = [] ∨ ∃ below, rest = Name.separator :: below) :
      Shortening ns (head ++ rest) (i.label ++ rest)
  /-- In the global namespace a name is written as it is. -/
  | bare {name : Text} (hns : ns.name = []) (hu : ns.Uncovered name) : Shortening ns name name
  /-- The name lies below the namespace. -/
  | relative {head below : Text} (hns : ns.name ≠ [])
      (hu : ns.Uncovered (head ++ Name.separator :: below))
      (hhead : Text.fold head = Text.fold ns.name) :
      Shortening ns (head ++ Name.separator :: below) below
  /-- The name lies elsewhere. -/
  | full {name : Text} (hns : ns.name ≠ []) (hu : ns.Uncovered name)
      (hc : covers ns.name name = false) : Shortening ns name (Name.separator :: name)

theorem shortening_of_shortenWithoutImport {ns : Namespace} {name short : Text}
    (hu : ns.Uncovered name) (h : ns.shortenWithoutImport name = some short) :
    Shortening ns name short := by
  unfold Namespace.shortenWithoutImport at h
  split at h
  · rename_i hns
    cases h
    exact .bare hns hu
  · rename_i hns
    split at h
    · rename_i hc
      obtain ⟨head, rest, rfl, hhead, hrest⟩ := covers_iff.1 hc
      rw [← byteSize_eq_of_fold_eq hhead, Text.dropBytes?_append_add] at h
      rcases hrest with rfl | ⟨below, rfl⟩
      · -- nothing stands below the namespace's own name
        cases h
      · rw [dropBytes?_separator] at h
        cases h
        exact .relative hns hu hhead
    · rename_i hc
      cases h
      exact .full hns hu (by simpa using hc)

/-- A short name is the name itself, where that is empty or a type keyword, or
arises in one of the ways of `Shortening`. -/
theorem shortening_of_shorten {ns : Namespace} {name short : Text}
    (h : ns.shorten name = some short) :
    (name = [] ∨ Name.isTypeKeyword name = true) ∧ short = name ∨
      ¬ (name = [] ∨ Name.isTypeKeyword name = true) ∧
        Shortening ns (Name.stripSeparator name) short := by
  unfold Namespace.shorten at h
  split at h
  · rename_i hk
    cases h
    exact .inl ⟨hk, rfl⟩
  · rename_i hk
    refine .inr ⟨hk, ?_⟩
    obtain ⟨shorts, hs, h⟩ := Option.bind_eq_some_iff.1 h
    split at h
    · -- the shortest form is one of those that covering imports give
      rename_i best hbest
      cases h
      obtain ⟨i, hi, hshort⟩ := exists_of_mem_mapM hs (mem_of_fewestBytes hbest)
      obtain ⟨hmem, hc⟩ := List.mem_filter.1 hi
      obtain ⟨head, rest, hname, hhead, hrest⟩ := covers_iff.1 hc
      rw [hname] at hshort ⊢
      rw [Import.shortened?_eq hhead] at hshort
      cases hshort
      exact .imported hmem hhead hrest
    · -- there is no such form, so no import covers the name
      rename_i hnone
      have hnil := length_of_mapM hs
      rw [fewestBytes_eq_none_iff.1 hnone, eq_comm, List.length_nil, List.length_eq_zero_iff,
        List.filter_eq_nil_iff] at hnil
      exact shortening_of_shortenWithoutImport (fun i hi => by simpa using hnil i hi) h

/-- A short name is made of characters of the name, separators, and labels of
imports. -/
theorem mem_of_shorten {ns : Namespace} {name short : Text} {c : Char}
    (h : ns.shorten name = some short) (hc : c ∈ short) :
    c ∈ name ∨ c = Name.separator ∨ ∃ i ∈ ns.imports, c ∈ i.label := by
  have hstrip {d : Char} (hd : d ∈ Name.stripSeparator name) : d ∈ name := by
    rcases Name.stripSeparator_cases name with hname | hname
    · rwa [hname] at hd
    · rw [hname]
      exact List.mem_cons_of_mem _ hd
  obtain ⟨-, rfl⟩ | ⟨-, hs⟩ := shortening_of_shorten h
  · exact .inl hc
  · generalize hn : Name.stripSeparator name = n at hs
    rw [hn] at hstrip
    cases hs with
    | imported hi _ _ =>
      rcases List.mem_append.1 hc with hc | hc
      · exact .inr (.inr ⟨_, hi, hc⟩)
      · exact .inl (hstrip (List.mem_append_right _ hc))
    | bare _ _ => exact .inl (hstrip hc)
    | relative _ _ _ =>
      exact .inl (hstrip (List.mem_append_right _ (List.mem_cons_of_mem _ hc)))
    | full _ _ _ =>
      rcases List.mem_cons.1 hc with rfl | hc
      · exact .inr (.inl rfl)
      · exact .inl (hstrip hc)

/-! ## Lines -/

theorem append_cutLiteral (quote : Char) (t : Text) :
    (cutLiteral quote t).1 ++ (cutLiteral quote t).2 = t := by
  fun_induction cutLiteral quote t <;> simp_all

theorem append_cutName (t : Text) : (cutName t).1 ++ (cutName t).2 = t := by
  fun_induction cutName t <;> simp_all

/-- The source text of a piece. -/
def Piece.source : Piece → Text
  | .literal s => s
  | .name s => s
  | .other c => [c]

/-- The pieces of a text are what it is made of. -/
theorem flatMap_source_cutPieces (afterLabel : Bool) (t : Text) :
    (cutPieces afterLabel t).flatMap Piece.source = t := by
  fun_induction cutPieces afterLabel t with
  | case1 => rfl
  | case2 afterLabel c t _ ih =>
    rw [List.flatMap_cons, ih, Piece.source, List.cons_append, append_cutLiteral]
  | case3 afterLabel c t _ _ ih =>
    rw [List.flatMap_cons, ih, Piece.source, List.cons_append, append_cutName]
  | case4 afterLabel c t _ _ ih => rw [List.flatMap_cons, ih]; rfl

/-- A shortened line is made of characters of the line, separators, and labels
of imports. -/
theorem mem_of_shortenLine {ns : Namespace} {line short : Text} {c : Char}
    (h : ns.shortenLine line = some short) (hc : c ∈ short) :
    c ∈ line ∨ c = Name.separator ∨ ∃ i ∈ ns.imports, c ∈ i.label := by
  obtain ⟨parts, hparts, rfl⟩ := Option.map_eq_some_iff.1 h
  obtain ⟨part, hpart, hc⟩ := List.mem_flatten.1 hc
  obtain ⟨p, hp, hshort⟩ := exists_of_mem_mapM hparts hpart
  have hline {d : Char} (hd : d ∈ p.source) : d ∈ line := by
    rw [← flatMap_source_cutPieces false line]
    exact List.mem_flatMap.2 ⟨p, hp, hd⟩
  cases p with
  | literal s =>
    cases hshort
    exact .inl (hline hc)
  | other d =>
    cases hshort
    exact .inl (hline hc)
  | name s => exact (mem_of_shorten hshort hc).imp_left hline

end BuilderForge.Php
