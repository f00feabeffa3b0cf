import BuilderForge.Proofs.Alternatives
import BuilderForge.Proofs.KeyedLists
/-
  The shortest form that imports give to a name.

  Imports are kept by their labels: one that comes again takes the place of the
  old one (`isKeyed_imports`), and this order decides between forms of one
  length. A name is cut where an imported name or the namespace ends in it.
  Folding changes letters of ASCII only and keeps the bytes of every one, so a
  cut goes through no character (`not_splitsCharacterAt_of_cuts`); it can only
  lie behind the end of the name, which is where the name is the namespace's
  own. Apart from that case every name has a short form, and a name that
  imports cover has the shortest one of these: `prefers_shorten`. The type
  keywords are no class names and are left alone before imports are looked at.
-/

namespace BuilderForge

/-- Whether a place, counted in bytes, lies inside a character of the text. -/
def Text.SplitsCharacterAt (t : Text) (n : Nat) : Prop :=
  ∃ before c after, t = before ++ c :: after ∧ byteSize before < n ∧ n < byteSize before + c.utf8Size

/-- A cut inside a character is not made. -/
theorem Text.dropBytes?_of_splitsCharacterAt {t : Text} {n : Nat} (h : t.SplitsCharacterAt n) :
    dropBytes? n t = none := by
  obtain ⟨before, c, after, rfl, hlow, hhigh⟩ := h
  obtain ⟨k, rfl⟩ : ∃ k, n = byteSize before + (k + 1) := ⟨n - byteSize before - 1, by omega⟩
  have hlarge : ¬ c.utf8Size ≤ k + 1 := by omega
  rw [dropBytes?_append_add, dropBytes?, if_neg hlarge]

theorem Text.not_splitsCharacterAt_of_dropBytes? {t rest : Text} {n : Nat}
    (h : dropBytes? n t = some rest) : ¬ t.SplitsCharacterAt n := by
  intro hsplit
  rw [dropBytes?_of_splitsCharacterAt hsplit] at h
  cases h

theorem Text.not_splitsCharacterAt_of_lt {t : Text} {n : Nat} (h : byteSize t < n) :
    ¬ t.SplitsCharacterAt n := by
  intro hsplit
  obtain ⟨before, c, after, rfl, -, hhigh⟩ := hsplit
  rw [byteSize_append, byteSize] at h
  omega

namespace Php

/-! ## Imports one after the other -/

/-- The import of a name; there is none of the empty name. -/
def Import.ofName (name : Text) : List Import :=
  let n := Name.stripSeparator name
  if n = [] then [] else [⟨Name.short n, n⟩]

/-- A namespace with imports that were added one after the other. -/
def Namespace.withImports (scope : Text) (added : List Text) : Namespace :=
  added.foldl Namespace.addImport (Namespace.named scope)

theorem putImport_eq (i : Import) (is : List Import) : putImport i is = putKeyed Import.label i is := by
  induction is with
  | nil => rfl
  | cons j is ih => rw [putImport, putKeyed, ih]

namespace Namespace

theorem imports_addImport (ns : Namespace) (name : Text) : (ns.addImport name).imports =
    (Import.ofName name).foldl (fun t i => putKeyed Import.label i t) ns.imports := by
  unfold addImport Import.ofName
  dsimp only
  split
  · rfl
  · rw [List.foldl_cons, List.foldl_nil, putImport_eq]

theorem name_addImport (ns : Namespace) (name : Text) : (ns.addImport name).name = ns.name := by
  unfold addImport
  dsimp only
  split <;> rfl

theorem fields_foldl_addImport (added : List Text) (ns : Namespace) :
    (added.foldl addImport ns).name = ns.name ∧ (added.foldl addImport ns).imports =
      (added.flatMap Import.ofName).foldl (fun t i => putKeyed Import.label i t) ns.imports := by
  induction added generalizing ns with
  | nil => exact ⟨rfl, rfl⟩
  | cons name added ih =>
    rw [List.foldl_cons, List.flatMap_cons, List.foldl_append, ← imports_addImport,
      ← name_addImport ns name]
    exact ih (ns.addImport name)

theorem name_withImports (scope : Text) (added : List Text) :
    (withImports scope added).name = Name.stripSeparator scope :=
  (fields_foldl_addImport added (named scope)).1

/-- There is one import for each label, in the order in which the labels first
came, and it is the last one of its label. -/
theorem isKeyed_imports (scope : Text) (added : List Text) :
    IsKeyed Import.label (added.flatMap Import.ofName) (withImports scope added).imports := by
  rw [withImports, (fields_foldl_addImport added (named scope)).2]
  exact isKeyed_foldl _ isKeyed_nil

theorem name_ne_nil_of_mem_imports {scope : Text} {added : List Text} {i : Import}
    (hi : i ∈ (withImports scope added).imports) : i.name ≠ [] := by
  obtain ⟨name, -, hmem⟩ := List.mem_flatMap.1 ((isKeyed_imports scope added).last i hi).mem
  unfold Import.ofName at hmem
  dsimp only at hmem
  split at hmem
  · cases hmem
  · rename_i hne
    cases List.mem_singleton.1 hmem
    exact hne

theorem isMade_withImports (scope : Text) (added : List Text) : (withImports scope added).IsMade := by
  have hfold : ∀ {ns : Namespace}, ns.IsMade → (added.foldl addImport ns).IsMade := by
    induction added with
    | nil => exact id
    | cons name added ih => exact fun h => ih (h.addImport name)
  exact hfold (.named scope)

end Namespace

/-! ## Forms -/

/-- The form that an import gives to a name: its label in place of the start of
the name that is the imported name. -/
def Import.Writes (i : Import) (name short : Text) : Prop :=
  ∃ head rest, name = head ++ rest ∧ Text.fold head = Text.fold i.name ∧
    (rest = [] ∨ ∃ below, rest = Name.separator :: below) ∧ short = i.label ++ rest

theorem Import.covers_of_writes {i : Import} {name short : Text} (h : i.Writes name short) :
    covers i.name name := by
  obtain ⟨head, rest, hname, hhead, hrest, -⟩ := h
  exact covers_iff.2 ⟨head, rest, hname, hhead, hrest⟩

/-- An import gives a form to the names that it covers, and to no others. -/
theorem Import.exists_writes_iff {i : Import} {name : Text} :
    (∃ short, i.Writes name short) ↔ covers i.name name := by
  constructor
  · intro h
    obtain ⟨short, h⟩ := h
    exact covers_of_writes h
  · intro h
    obtain ⟨head, rest, hname, hhead, hrest⟩ := covers_iff.1 h
    exact ⟨i.label ++ rest, head, rest, hname, hhead, hrest, rfl⟩

theorem Import.Writes.shortened?_eq {i : Import} {name short : Text} (h : i.Writes name short) :
    i.shortened? name = some short := by
  obtain ⟨head, rest, rfl, hhead, -, rfl⟩ := h
  exact Import.shortened?_eq hhead

/-- The label of an import that gives a form to a path is one. -/
theorem Namespace.IsMade.isLabel_of_writes {ns : Namespace} (hns : ns.IsMade) {i : Import}
    (hi : i ∈ ns.imports) {name short : Text} (hname : Name.isPath name) (h : i.Writes name short) :
    Name.isLabel i.label := by
  obtain ⟨head, rest, rfl, hhead, hrest, -⟩ := h
  exact hns.isLabel_label hi hname hhead hrest

namespace Namespace

/-- Whether `short` is the shortest form that imports give to a name, and of
several as short the one of the import that stands first. -/
def Prefers (ns : Namespace) (name short : Text) : Prop :=
  ∃ before i after, ns.imports = before ++ i :: after ∧ i.Writes name short ∧
    (∀ j ∈ before, ∀ other, j.Writes name other → Text.byteSize short < Text.byteSize other) ∧
    ∀ j ∈ after, ∀ other, j.Writes name other → Text.byteSize short ≤ Text.byteSize other

/-- The places, counted in bytes, where a name may be cut on the way to its
short form. -/
inductive Cuts (ns : Namespace) (name : Text) : Nat → Prop where
  | imported {i : Import} (hi : i ∈ ns.imports) (hc : covers i.name name) :
    Cuts ns name (Text.byteSize i.name)
  | own (hns : ns.name ≠ []) (hc : covers ns.name name) : Cuts ns name (Text.byteSize ns.name + 1)

/-- No cut goes through a character. -/
theorem not_splitsCharacterAt_of_cuts {ns : Namespace} {name : Text} {n : Nat} (h : ns.Cuts name n) :
    ¬ name.SplitsCharacterAt n := by
  cases h with
  | imported _ hc =>
    obtain ⟨head, rest, rfl, hhead, -⟩ := covers_iff.1 hc
    rw [← byteSize_eq_of_fold_eq hhead]
    exact Text.not_splitsCharacterAt_of_dropBytes? (Text.dropBytes?_append head rest)
  | own _ hc =>
    obtain ⟨head, rest, rfl, hhead, hrest⟩ := covers_iff.1 hc
    rw [← byteSize_eq_of_fold_eq hhead]
    rcases hrest with rfl | ⟨below, rfl⟩
    · rw [List.append_nil]
      exact Text.not_splitsCharacterAt_of_lt (Nat.lt_succ_self _)
    · have hdrop := dropBytes?_separator below
      rw [← Text.dropBytes?_append_add head] at hdrop
      exact Text.not_splitsCharacterAt_of_dropBytes? hdrop

variable {ns : Namespace}

theorem uncovered_iff {name : Text} :
    ns.Uncovered name ↔ ∀ i ∈ ns.imports, ∀ short, ¬ i.Writes name short := by
  refine forall₂_congr fun i _ => ?_
  rw [← Bool.not_eq_true, ← Import.exists_writes_iff, not_exists]

/-- Of the forms that the covering imports give to a name the first shortest one is preferred. -/
theorem prefers_of_fewestBytes {name short : Text} {shorts : List Text}
    (hshorts : ((ns.imports.filter fun i => covers i.name name).mapM fun i => i.shortened? name) =
      some shorts) (h : fewestBytes shorts = some short) : ns.Prefers name short := by
  obtain ⟨before, after, rfl, hbefore, hafter⟩ := split_of_fewestBytes h
  -- the forms stand in the places of the imports that give them
  have hmap := mapM_eq_some_iff.1 hshorts
  rw [List.map_append, List.map_cons] at hmap
  obtain ⟨is, rest, hfilter, hbeforeMap, hrest⟩ := List.map_eq_append_iff.1 hmap
  obtain ⟨i, js, rfl, hi, hafterMap⟩ := List.map_eq_cons_iff.1 hrest
  obtain ⟨early, late, himports, hearly, hlate⟩ := List.filter_eq_append_iff.1 hfilter
  obtain ⟨skipped, tail, rfl, hskipped, hcovers, htail⟩ := List.filter_eq_cons_iff.1 hlate
  have hform {j : Import} {other : Text} {l : List Import} {forms : List Text}
      (hl : (l.filter fun i => covers i.name name).map (fun i => i.shortened? name) = forms.map some)
      (hj : j ∈ l) (hwrites : j.Writes name other) : other ∈ forms := by
    have hmem : j.shortened? name ∈ forms.map some := by
      rw [← hl]
      exact List.mem_map_of_mem (List.mem_filter.2 ⟨hj, Import.covers_of_writes hwrites⟩)
    rw [hwrites.shortened?_eq] at hmem
    simpa using hmem
  have hwrites : i.Writes name short := by
    obtain ⟨form, hform⟩ := Import.exists_writes_iff.2 hcovers
    rw [hform.shortened?_eq] at hi
    cases hi
    exact hform
  refine ⟨early ++ skipped, i, tail, by rw [himports, List.append_assoc], hwrites, ?_, ?_⟩
  · intro j hj other hother
    rcases List.mem_append.1 hj with hj | hj
    · exact hbefore other (hform (by rw [hearly]; exact hbeforeMap) hj hother)
    · exact absurd (Import.covers_of_writes hother) (hskipped j hj)
  · intro j hj other hother
    exact hafter other (hform (by rw [htail]; exact hafterMap) hj hother)

/-- A name that imports cover has the form that is preferred. -/
theorem exists_prefers {name : Text} (hne : name ≠ []) (hkeyword : Name.isTypeKeyword name = false)
    (hcovered : ∃ i ∈ ns.imports, ∃ short, i.Writes (Name.stripSeparator name) short) :
    ∃ short, ns.Prefers (Name.stripSeparator name) short ∧ ns.shorten name = some short := by
  have hself : ¬ (name = [] ∨ Name.isTypeKeyword name = true) := by
    rw [hkeyword]
    simpa using hne
  unfold shorten
  rw [if_neg hself]
  generalize Name.stripSeparator name = n at hcovered ⊢
  obtain ⟨shorts, hshorts⟩ := Option.isSome_iff_exists.1
    (isSome_mapM (f := fun i : Import => i.shortened? n)
      (l := ns.imports.filter fun i => covers i.name n)
      fun i hi => Import.isSome_shortened? (List.mem_filter.1 hi).2)
  simp only [hshorts, Option.bind_eq_bind, Option.bind_some]
  cases hbest : fewestBytes shorts with
  | some short => exact ⟨short, prefers_of_fewestBytes hshorts hbest, rfl⟩
  | none =>
    -- then there is no covering import
    obtain ⟨i, hi, short, hwrites⟩ := hcovered
    have hlength := length_of_mapM hshorts
    rw [fewestBytes_eq_none_iff.1 hbest, eq_comm, List.length_nil, List.length_eq_zero_iff] at hlength
    have hmem : i ∈ ns.imports.filter fun i => covers i.name n :=
      List.mem_filter.2 ⟨hi, Import.covers_of_writes hwrites⟩
    rw [hlength] at hmem
    cases hmem

/-- In every namespace with imports, and for every name: an import is known by
its label, in the place of the first one of this label; there is no short form
exactly of the namespace's own name where no import covers it; no cut goes
through a character; and what an import covers has the shortest form, that of
the first import if there are several. The empty name and the type keywords
stand for themselves. -/
theorem prefers_shorten (scope : Text) (added : List Text) (name : Text) :
    IsKeyed Import.label (added.flatMap Import.ofName) (withImports scope added).imports ∧
    ((withImports scope added).shorten name = none ↔
      name ≠ [] ∧ Name.isTypeKeyword name = false ∧
      (∀ i ∈ (withImports scope added).imports, ∀ short, ¬ i.Writes (Name.stripSeparator name) short) ∧
      Name.stripSeparator scope ≠ [] ∧
      Text.sameFolded (Name.stripSeparator name) (Name.stripSeparator scope)) ∧
    (∀ n, (withImports scope added).Cuts (Name.stripSeparator name) n →
      ¬ (Name.stripSeparator name).SplitsCharacterAt n) ∧
    (name = [] ∨ Name.isTypeKeyword name → (withImports scope added).shorten name = some name) ∧
    (Name.isTypeKeyword name = false →
      (∃ i ∈ (withImports scope added).imports, ∃ short, i.Writes (Name.stripSeparator name) short) →
      ∃ short, (withImports scope added).Prefers (Name.stripSeparator name) short ∧
        (withImports scope added).shorten name = some short) := by
  refine ⟨isKeyed_imports scope added, ?_, fun n => not_splitsCharacterAt_of_cuts, ?_, ?_⟩
  · rw [shorten_eq_none_iff, ← uncovered_iff, name_withImports, Text.sameFolded_iff]
    rfl
  · intro hself
    rw [shorten, if_pos hself]
  · intro hkeyword hcovered
    refine exists_prefers ?_ hkeyword hcovered
    rintro rfl
    -- only the empty name would cover the empty name, and it is not imported
    obtain ⟨i, hi, short, head, rest, hname, hhead, -⟩ := hcovered
    obtain ⟨rfl, -⟩ := List.append_eq_nil_iff.1 hname.symm
    exact name_ne_nil_of_mem_imports hi (List.map_eq_nil_iff.1 hhead.symm)

/-- A type keyword is left alone, although an import covers it and would give
it another form. -/
theorem not_prefers_shorten_keyword :
    (∃ i ∈ (withImports [] ["INT".toList]).imports, ∃ short, i.Writes "int".toList short) ∧
    (withImports [] ["INT".toList]).shorten "int".toList = some "int".toList ∧
    ¬ (withImports [] ["INT".toList]).Prefers "int".toList "int".toList := by
  have himports : (withImports [] ["INT".toList]).imports = [⟨"INT".toList, "INT".toList⟩] := by decide
  refine ⟨?_, by decide, fun h => ?_⟩
  · rw [himports]
    exact ⟨_, List.mem_singleton_self _, "INT".toList, "int".toList, [], rfl, by decide, .inl rfl, rfl⟩
  · obtain ⟨before, i, after, hsplit, hwrites, -⟩ := h
    have hi : i ∈ (withImports [] ["INT".toList]).imports := by
      rw [hsplit]
      exact List.mem_append_right _ List.mem_cons_self
    rw [himports] at hi
    cases List.mem_singleton.1 hi
    -- the form of the import begins with its own letters
    obtain ⟨-, rest, -, -, -, hshort⟩ := hwrites
    exact absurd (List.cons.inj hshort).1 (by decide)

end Namespace

end Php
end BuilderForge
