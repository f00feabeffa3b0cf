import BuilderForge.Proofs.Resolution
import BuilderForge.Proofs.ShortestForms
/-
  Short forms that an import takes away.

  A short form is read by its first label, with the imports of this label and
  else below the namespace (`Header.resolve`). Two things can go wrong. Where a
  form is that of an import, there can be a rival: labels are kept as they are
  spelled, and read in any case of their letters. And where a form is that of
  none, it can begin with the label of one: a name below the namespace is
  written relative to it, and a name in the global namespace as it is, whatever
  stands among the imports. A short form means its name exactly if neither
  happens: `denotes_shorten_iff`.
-/

namespace BuilderForge.Php

namespace Namespace

/-- Whether a short form means a class in a file that states the namespace and
its imports, in whatever order these stand. -/
def Denotes (ns : Namespace) (short name : Text) : Prop :=
  ∀ uses : List Text, uses.Perm (ns.imports.map Import.name) →
    Text.sameFolded (Header.resolve ⟨ns.name, uses⟩ short) name

/-- Whether an import takes the short form of a name away. -/
inductive Captured (ns : Namespace) (name short : Text) : Prop where
  /-- The form is that of an import, and another class is imported under its label. -/
  | rival {i j : Import} (hi : i ∈ ns.imports) (hform : i.Writes name short) (hj : j ∈ ns.imports)
      (hlabel : Text.fold j.label = Text.fold i.label) (hname : Text.fold j.name ≠ Text.fold i.name)
  /-- The form is that of no import, and begins with the label of one. -/
  | hidden {j : Import} {label rest : Text} (hu : ns.Uncovered name) (hj : j ∈ ns.imports)
      (hlabel : Name.isLabel label) (hsame : Text.fold j.label = Text.fold label)
      (hrest : rest = [] ∨ ∃ below, rest = Name.separator :: below) (hshort : short = label ++ rest)

end Namespace

/-- A path begins with a label. -/
theorem exists_first_label {t : Text} (h : Name.isPath t) : ∃ label rest, t = label ++ rest ∧
    Name.isLabel label ∧ (rest = [] ∨ ∃ below, rest = Name.separator :: below) := by
  obtain ⟨last, hform⟩ := Name.exists_pathForm h
  cases hform with
  | label hlabel => exact ⟨t, [], by rw [List.append_nil], Name.isLabel_iff.2 hlabel, .inl rfl⟩
  | within hlabel _ => exact ⟨_, _, rfl, Name.isLabel_iff.2 hlabel, .inr ⟨_, rfl⟩⟩

namespace Namespace

variable {ns : Namespace} {uses : List Text}

/-- What stands for a label among the imports of a file is the name of an import of this label. -/
theorem IsMade.find?_uses (hns : ns.IsMade) (huses : uses.Perm (ns.imports.map Import.name))
    {label used : Text} (h : uses.find? (fun i => Text.sameFolded (Name.short i) label) = some used) :
    ∃ i ∈ ns.imports, i.name = used ∧ Text.fold i.label = Text.fold label := by
  obtain ⟨i, hi, rfl⟩ := List.mem_map.1 (huses.mem_iff.1 (List.mem_of_find?_eq_some h))
  have hsame := List.find?_some h
  refine ⟨i, hi, rfl, ?_⟩
  rw [hns.label_eq i hi]
  exact Text.sameFolded_iff.1 hsame

/-- Where there is an import of a label, one is found. -/
theorem IsMade.exists_find?_uses (hns : ns.IsMade) (huses : uses.Perm (ns.imports.map Import.name))
    {i : Import} (hi : i ∈ ns.imports) {label : Text} (h : Text.fold i.label = Text.fold label) :
    ∃ used, uses.find? (fun i => Text.sameFolded (Name.short i) label) = some used := by
  rw [← Option.isSome_iff_exists, List.find?_isSome]
  refine ⟨i.name, huses.mem_iff.2 (List.mem_map_of_mem hi), ?_⟩
  rw [Text.sameFolded_iff, ← hns.label_eq i hi, h]

/-- The form that an import gives is read with the import, if it has no rival. -/
theorem IsMade.fold_resolve_imported (hns : ns.IsMade) (huses : uses.Perm (ns.imports.map Import.name))
    {i : Import} (hi : i ∈ ns.imports) {name short : Text} (hname : Name.isPath name)
    (hform : i.Writes name short) (hfree : ¬ ns.Captured name short) :
    Text.fold (Header.resolve ⟨ns.name, uses⟩ short) = Text.fold name := by
  have hlabel := hns.isLabel_of_writes hi hname hform
  have hself : Text.fold i.label = Text.fold i.label := rfl
  obtain ⟨used, hused⟩ := hns.exists_find?_uses huses hi hself
  obtain ⟨j, hj, rfl, hsame⟩ := hns.find?_uses huses hused
  have hjname : Text.fold j.name = Text.fold i.name := by
    by_contra hne
    exact hfree (.rival hi hform hj hsame hne)
  obtain ⟨head, rest, rfl, hhead, hrest, rfl⟩ := hform
  rw [Header.resolve_append _ hlabel hrest, hused, Option.map_some, Option.getD_some,
    Text.fold_append, Text.fold_append, hjname, hhead]

/-- A form that no import gives is read below the namespace, if no import has its first label. -/
theorem IsMade.resolve_uncovered (hns : ns.IsMade) (huses : uses.Perm (ns.imports.map Import.name))
    {name short : Text} (hu : ns.Uncovered name) (hshort : Name.isPath short)
    (hfree : ¬ ns.Captured name short) :
    Header.resolve ⟨ns.name, uses⟩ short = Name.qualify ns.name short := by
  obtain ⟨label, rest, heq, hlabel, hrest⟩ := exists_first_label hshort
  rw [heq, Header.resolve_append _ hlabel hrest]
  cases hused : uses.find? fun i => Text.sameFolded (Name.short i) label with
  | none => rfl
  | some used =>
    obtain ⟨j, hj, -, hsame⟩ := hns.find?_uses huses hused
    exact absurd (.hidden hu hj hlabel hsame hrest heq) hfree

/-- A short form that nothing takes away means its name. -/
theorem IsMade.denotes (hns : ns.IsMade) {name short : Text} (hname : Name.isPath name)
    (h : Shortening ns name short) (hfree : ¬ ns.Captured name short) : ns.Denotes short name := by
  intro uses huses
  rw [Text.sameFolded_iff]
  cases h with
  | imported hi hhead hrest =>
    exact hns.fold_resolve_imported huses hi hname ⟨_, _, rfl, hhead, hrest, rfl⟩ hfree
  | bare hscope hu =>
    rw [hns.resolve_uncovered huses hu hname hfree, Name.qualify, if_pos hscope]
  | relative hscope hu hhead =>
    have hbelow : Name.isPath short := by
      rw [Name.isPath_append, Bool.and_eq_true] at hname
      exact hname.2
    rw [hns.resolve_uncovered huses hu hbelow hfree, Name.qualify, if_neg hscope, Text.fold_append,
      Text.fold_append, hhead]
  | full _ _ _ => rw [Header.resolve_separator]

/-- With the rival before it, an import is not found. -/
theorem IsMade.not_denotes_rival (hns : ns.IsMade) {i j : Import} (hi : i ∈ ns.imports)
    {name short : Text} (hname : Name.isPath name) (hform : i.Writes name short) (hj : j ∈ ns.imports)
    (hlabel : Text.fold j.label = Text.fold i.label) (hne : Text.fold j.name ≠ Text.fold i.name) :
    ¬ ns.Denotes short name := by
  intro h
  have huses := (List.perm_cons_erase (List.mem_map_of_mem (f := Import.name) hj)).symm
  have hresolve := Text.sameFolded_iff.1 (h _ huses)
  have hi := hns.isLabel_of_writes hi hname hform
  obtain ⟨head, rest, rfl, hhead, hrest, rfl⟩ := hform
  have hfind (others : List Text) :
      (j.name :: others).find? (fun u => Text.sameFolded (Name.short u) i.label) = some j.name := by
    apply List.find?_cons_of_pos
    rw [Text.sameFolded_iff, ← hns.label_eq j hj, hlabel]
  rw [Header.resolve_append _ hi hrest, hfind, Option.map_some, Option.getD_some, Text.fold_append,
    Text.fold_append, hhead] at hresolve
  exact hne (List.append_cancel_right hresolve)

/-- What is read with an import is a name that the import covers. -/
theorem IsMade.not_denotes_hidden (hns : ns.IsMade) {name label rest : Text} (hu : ns.Uncovered name)
    {j : Import} (hj : j ∈ ns.imports) (hlabel : Name.isLabel label)
    (hsame : Text.fold j.label = Text.fold label)
    (hrest : rest = [] ∨ ∃ below, rest = Name.separator :: below) :
    ¬ ns.Denotes (label ++ rest) name := by
  intro h
  have huses := List.Perm.refl (ns.imports.map Import.name)
  have hresolve := Text.sameFolded_iff.1 (h _ huses)
  obtain ⟨used, hused⟩ := hns.exists_find?_uses huses hj hsame
  obtain ⟨k, hk, rfl, -⟩ := hns.find?_uses huses hused
  rw [Header.resolve_append _ hlabel hrest, hused, Option.map_some, Option.getD_some] at hresolve
  have hcovers : covers k.name name = true := by
    rw [covers, ← hresolve, ← covers]
    exact covers_iff.2 ⟨k.name, rest, rfl, rfl, hrest⟩
  rw [hu k hk] at hcovers
  cases hcovers

/-- In every namespace with imports a class name other than its own has a short
form. Read by the rules of the language this form means the class, up to the
case of A to Z, exactly if no import takes it away. -/
theorem denotes_shorten_iff (scope : Text) (added : List Text) {name : Text}
    (hname : Name.isPath (Name.stripSeparator name)) (hclass : Name.isReserved (Name.short name) = false)
    (hown : ¬ Text.sameFolded (Name.stripSeparator name) (Name.stripSeparator scope)) :
    ∃ short, (withImports scope added).shorten name = some short ∧
      ((withImports scope added).Denotes short (Name.stripSeparator name) ↔
        ¬ (withImports scope added).Captured (Name.stripSeparator name) short) := by
  have hns := isMade_withImports scope added
  have hsome : (withImports scope added).shorten name ≠ none := by
    intro hnone
    obtain ⟨-, -, -, -, hfold⟩ := shorten_eq_none_iff.1 hnone
    rw [name_withImports] at hfold
    exact hown (Text.sameFolded_iff.2 hfold)
  obtain ⟨short, hshort⟩ := Option.ne_none_iff_exists'.1 hsome
  refine ⟨short, hshort, ?_⟩
  obtain ⟨hself | hself, -⟩ | ⟨-, hform⟩ := shortening_of_shorten hshort
  · rw [hself] at hname
    cases hname
  · rw [Name.isReserved_short_of_isTypeKeyword hself] at hclass
    cases hclass
  constructor
  · intro hdenotes hcaptured
    cases hcaptured with
    | rival hi hform hj hlabel hne => exact hns.not_denotes_rival hi hname hform hj hlabel hne hdenotes
    | hidden hu hj hlabel hsame hrest heq =>
      rw [heq] at hdenotes
      exact hns.not_denotes_hidden hu hj hlabel hsame hrest hdenotes
  · exact hns.denotes hname hform

/-- A namespace that imports itself, and a class of another label. -/
def modelNamespace : Namespace :=
  withImports "Acme\\Model".toList ["Acme\\Model".toList, "Vendor\\Kit".toList]

theorem denotes_shorten_iff_user :
    Name.isPath (Name.stripSeparator "\\Acme\\Model\\User".toList) ∧
    Name.isReserved (Name.short "\\Acme\\Model\\User".toList) = false ∧
    ¬ Text.sameFolded (Name.stripSeparator "\\Acme\\Model\\User".toList)
      (Name.stripSeparator "Acme\\Model".toList) ∧
    ∃ short, modelNamespace.shorten "\\Acme\\Model\\User".toList = some short ∧
      modelNamespace.Denotes short (Name.stripSeparator "\\Acme\\Model\\User".toList) := by
  have hname : Name.isPath (Name.stripSeparator "\\Acme\\Model\\User".toList) := by decide
  have hclass : Name.isReserved (Name.short "\\Acme\\Model\\User".toList) = false := by decide
  have hown : ¬ Text.sameFolded (Name.stripSeparator "\\Acme\\Model\\User".toList)
    (Name.stripSeparator "Acme\\Model".toList) := by decide
  obtain ⟨short, hshort, hiff⟩ := denotes_shorten_iff "Acme\\Model".toList
    ["Acme\\Model".toList, "Vendor\\Kit".toList] hname hclass hown
  refine ⟨hname, hclass, hown, short, hshort, hiff.2 fun hcaptured => ?_⟩
  cases hcaptured with
  | rival hi _ hj hlabel hne =>
    have hfree : ∀ i ∈ modelNamespace.imports, ∀ j ∈ modelNamespace.imports,
        Text.fold j.label = Text.fold i.label → Text.fold j.name = Text.fold i.name := by decide
    exact hne (hfree _ hi _ hj hlabel)
  | hidden hu _ _ _ _ _ =>
    -- the namespace's import covers the name
    have hcovers := hu ⟨"Model".toList, "Acme\\Model".toList⟩ (by decide)
    exact absurd hcovers (by decide)

/-- The relative form of a class, in a namespace where another class of its
short name is imported, means the other one. -/
theorem not_denotes_shorten_foo :
    Name.isPath "App".toList ∧ Name.isPath "X\\Foo".toList ∧ Name.isPath "App\\Foo".toList ∧
    Name.isReserved (Name.short "App\\Foo".toList) = false ∧
    ¬ Text.sameFolded "App\\Foo".toList "App".toList ∧
    (withImports "App".toList ["X\\Foo".toList]).shorten "App\\Foo".toList = some "Foo".toList ∧
    ¬ (withImports "App".toList ["X\\Foo".toList]).Denotes "Foo".toList "App\\Foo".toList := by
  refine ⟨by decide, by decide, by decide, by decide, by decide, by decide, fun h => ?_⟩
  exact absurd (h _ (List.Perm.refl _)) (by decide)

end Namespace

end BuilderForge.Php
