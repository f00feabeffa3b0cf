import BuilderForge.Php.Page
/-
  Coverage: which names have a short form, and namespaces in which every name
  has one.

  A scope covers a name that begins with it and then ends or goes on with a
  separator (`covers_iff`). Letters fold within ASCII, so the part of a name
  that the scope stands for has as many bytes as the scope, and a cut there
  goes through no character. What can fail is the relative form of the
  namespace's own name: `shorten_eq_none_iff`. A namespace that is global or
  imports its own name therefore writes every class name, and so has a page:
  `isSome_shorten` and `isSome_page`.
-/

namespace BuilderForge.Php

theorem toLower_eq_separator {c : Char} : c.toLower = Name.separator ↔ c = Name.separator := by
  have hsep : Name.separator.toNat = 92 := rfl
  rw [← Char.toNat_inj, ← Char.toNat_inj, Text.toNat_toLower]
  split <;> omega

/-- A scope covers the names that begin with it, in any case of its letters,
and then end or go on with a separator. -/
theorem covers_iff {scope name : Text} :
    covers scope name ↔ ∃ head rest, name = head ++ rest ∧ Text.fold head = Text.fold scope ∧
      (rest = [] ∨ ∃ below, rest = Name.separator :: below) := by
  rw [covers, List.isPrefixOf_iff_prefix]
  constructor
  · rintro ⟨u, hu⟩
    -- what is left of the name ends in the separator that was put behind it
    rcases List.eq_nil_or_concat u with rfl | ⟨u, c, rfl⟩
    · rw [List.append_nil] at hu
      exact ⟨name, [], by simp, (List.append_cancel_right hu).symm, .inl rfl⟩
    · rw [List.concat_eq_append, ← List.append_assoc] at hu
      have hname := (List.append_inj' hu rfl).1
      rw [List.append_assoc] at hname
      obtain ⟨head, rest, rfl, hhead, hrest⟩ := List.append_eq_map_iff.1 hname
      obtain ⟨d, below, rfl, hd, -⟩ := List.map_eq_cons_iff.1 hrest
      exact ⟨head, d :: below, rfl, hhead, .inr ⟨below, by rw [toLower_eq_separator.1 hd]⟩⟩
  · rintro ⟨head, rest, rfl, hhead, rfl | ⟨below, rfl⟩⟩
    · refine ⟨[], ?_⟩
      rw [List.append_nil, List.append_nil, hhead]
    · refine ⟨Text.fold below ++ [Name.separator], ?_⟩
      rw [Text.fold_append, hhead]
      simp [Text.fold]
      rfl

theorem covers_of_fold_eq {scope name : Text} (h : Text.fold name = Text.fold scope) :
    covers scope name :=
  covers_iff.2 ⟨name, [], by simp, h, .inl rfl⟩

/-- Texts that differ in case at most have the same number of bytes. -/
theorem byteSize_eq_of_fold_eq {s t : Text} (h : Text.fold s = Text.fold t) :
    Text.byteSize s = Text.byteSize t := by
  rw [← Text.byteSize_fold, h, Text.byteSize_fold]

/-- The separator has one byte. -/
theorem dropBytes?_separator (below : Text) :
    Text.dropBytes? 1 (Name.separator :: below) = some below := by
  cases below <;> rfl

/-- An import writes every name that it covers. -/
theorem Import.shortened?_eq {i : Import} {head rest : Text}
    (h : Text.fold head = Text.fold i.name) : i.shortened? (head ++ rest) = some (i.label ++ rest) := by
  rw [shortened?, ← byteSize_eq_of_fold_eq h, Text.dropBytes?_append, Option.map_some]

theorem Import.isSome_shortened? {i : Import} {name : Text} (h : covers i.name name) :
    (i.shortened? name).isSome := by
  obtain ⟨head, rest, rfl, hhead, -⟩ := covers_iff.1 h
  rw [shortened?_eq hhead]
  rfl

theorem isSome_mapM {α β : Type} {f : α → Option β} {l : List α} (h : ∀ a ∈ l, (f a).isSome) :
    (l.mapM f).isSome := by
  induction l with
  | nil => simp
  | cons a l ih =>
    obtain ⟨b, hb⟩ := Option.isSome_iff_exists.1 (h a (by simp))
    obtain ⟨bs, hbs⟩ := Option.isSome_iff_exists.1 (ih fun x hx => h x (by simp [hx]))
    simp [List.mapM_cons, hb, hbs]

/-- A partial function answers on a list if it answers on all of it. -/
theorem mapM_eq_some_iff {α β : Type} {f : α → Option β} {l : List α} {bs : List β} :
    l.mapM f = some bs ↔ l.map f = bs.map some := by
  induction l generalizing bs with
  | nil => cases bs <;> simp
  | cons a l ih =>
    cases bs with
    | nil => simp [List.mapM_cons, Option.bind_eq_some_iff]
    | cons b bs => simp [List.mapM_cons, Option.bind_eq_some_iff, ih]

theorem length_of_mapM {α β : Type} {f : α → Option β} {l : List α} {bs : List β}
    (h : l.mapM f = some bs) : bs.length = l.length := by
  have hlength := congrArg List.length (mapM_eq_some_iff.1 h)
  rw [List.length_map, List.length_map] at hlength
  exact hlength.symm

theorem mem_mapM_iff {α β : Type} {f : α → Option β} {l : List α} {bs : List β}
    (h : l.mapM f = some bs) {b : β} : b ∈ bs ↔ ∃ a ∈ l, f a = some b := by
  have hmem : some b ∈ bs.map some ↔ b ∈ bs := by simp
  rw [← hmem, ← mapM_eq_some_iff.1 h, List.mem_map]

theorem exists_of_mem_mapM {α β : Type} {f : α → Option β} {l : List α} {bs : List β}
    (h : l.mapM f = some bs) {b : β} (hb : b ∈ bs) : ∃ a ∈ l, f a = some b :=
  (mem_mapM_iff h).1 hb

theorem exists_of_mapM {α β : Type} {f : α → Option β} {l : List α} {bs : List β}
    (h : l.mapM f = some bs) : ∀ a ∈ l, ∃ b, f a = some b := by
  intro a ha
  have hmem : f a ∈ bs.map some := by
    rw [← mapM_eq_some_iff.1 h]
    exact List.mem_map_of_mem ha
  obtain ⟨b, -, hb⟩ := List.mem_map.1 hmem
  exact ⟨b, hb.symm⟩

/-- The answers stand in the places of what they answer to. -/
theorem getElem?_mapM {α β : Type} {f : α → Option β} {l : List α} {bs : List β}
    (h : l.mapM f = some bs) {i : Nat} {a : α} (ha : l[i]? = some a) :
    ∃ b, bs[i]? = some b ∧ f a = some b := by
  have hplaces := congrArg (fun l => l[i]?) (mapM_eq_some_iff.1 h)
  simp only [List.getElem?_map, ha, Option.map_some] at hplaces
  obtain ⟨b, hb, hfb⟩ := Option.map_eq_some_iff.1 hplaces.symm
  exact ⟨b, hb, hfb.symm⟩

theorem fewestBytes_eq_none_iff {ts : List Text} : fewestBytes ts = none ↔ ts = [] := by
  cases ts with
  | nil => simp [fewestBytes]
  | cons t ts =>
    simp only [fewestBytes]
    split
    · simp
    · split <;> simp

namespace Namespace

/-- Without an import the namespace has no way to write its own name. -/
theorem shortenWithoutImport_eq_none_iff {ns : Namespace} {name : Text} :
    ns.shortenWithoutImport name = none ↔ ns.name ≠ [] ∧ Text.fold name = Text.fold ns.name := by
  unfold shortenWithoutImport
  split
  · simp [*]
  · rename_i hne
    split
    · rename_i hc
      obtain ⟨head, rest, rfl, hhead, rfl | ⟨below, rfl⟩⟩ := covers_iff.1 hc
      · rw [← byteSize_eq_of_fold_eq hhead, Text.dropBytes?_append_add]
        simp [Text.dropBytes?, hne, hhead]
      · rw [← byteSize_eq_of_fold_eq hhead, Text.dropBytes?_append_add, Text.fold_append, hhead]
        simp [dropBytes?_separator, Text.fold]
    · rename_i hc
      simp only [reduceCtorEq, false_iff, not_and]
      intro _ h
      exact hc (covers_of_fold_eq h)

/-- A name has no short form exactly if it is the namespace's own and no import
covers it. -/
theorem shorten_eq_none_iff {ns : Namespace} {name : Text} :
    ns.shorten name = none ↔ name ≠ [] ∧ Name.isTypeKeyword name = false ∧
      (∀ i ∈ ns.imports, covers i.name (Name.stripSeparator name) = false) ∧
      ns.name ≠ [] ∧ Text.fold (Name.stripSeparator name) = Text.fold ns.name := by
  unfold shorten
  split
  · rename_i h
    rcases h with h | h <;> simp [h]
  · rename_i h
    obtain ⟨hne, hk⟩ := not_or.1 h
    obtain ⟨shorts, hs⟩ := Option.isSome_iff_exists.1
      (isSome_mapM (f := fun i : Import => i.shortened? (Name.stripSeparator name))
        (l := ns.imports.filter fun i => covers i.name (Name.stripSeparator name))
        fun i hi => Import.isSome_shortened? (List.mem_filter.1 hi).2)
    have hl : shorts = [] ↔ ∀ i ∈ ns.imports, covers i.name (Name.stripSeparator name) = false := by
      rw [← List.length_eq_zero_iff, length_of_mapM hs, List.length_eq_zero_iff, List.filter_eq_nil_iff]
      simp only [Bool.not_eq_true]
    simp only [hs, Option.bind_eq_bind, Option.bind_some]
    split
    · rename_i short hshort
      have : shorts ≠ [] := fun e => by simp [e, fewestBytes] at hshort
      simp only [Option.pure_def, reduceCtorEq, false_iff]
      exact fun ⟨_, _, hcov, _⟩ => this (hl.2 hcov)
    · rename_i hnone
      rw [shortenWithoutImport_eq_none_iff]
      have hcov := hl.1 (fewestBytes_eq_none_iff.1 hnone)
      exact ⟨fun h => ⟨hne, by simpa using hk, hcov, h⟩, fun h => h.2.2.2⟩

example : (named "App".toList).shorten "App".toList = none := by decide

/-- Whether the namespace is global or imports its own name. -/
def IsCovered (ns : Namespace) : Prop := ns.name = [] ∨ ∃ i ∈ ns.imports, i.name = ns.name

theorem isSome_shorten {ns : Namespace} (h : ns.IsCovered) (name : Text) :
    (ns.shorten name).isSome := by
  rw [← Option.ne_none_iff_isSome]
  intro hnone
  obtain ⟨-, -, hcov, hne, hfold⟩ := shorten_eq_none_iff.1 hnone
  obtain ⟨i, hi, hin⟩ := h.resolve_left hne
  have hself : covers i.name (Name.stripSeparator name) = true := by
    rw [hin]
    exact covers_of_fold_eq hfold
  rw [hcov i hi] at hself
  cases hself

theorem isSome_shortenLine {ns : Namespace} (h : ns.IsCovered) (line : Text) :
    (ns.shortenLine line).isSome := by
  simp only [shortenLine, Option.isSome_map]
  refine isSome_mapM fun p _ => ?_
  cases p with
  | literal s => rfl
  | name s => exact isSome_shorten h s
  | other c => rfl

theorem isSome_typeText {ns : Namespace} (h : ns.IsCovered) (ty : TypeHint) :
    (ns.typeText ty).isSome := by
  simp only [typeText, Option.isSome_map]
  exact isSome_mapM fun p _ => isSome_shorten h _

theorem isSome_methodCode {ns : Namespace} (h : ns.IsCovered) (m : Method) :
    (ns.methodCode m).isSome := by
  have hp : (m.params.mapM ns.parameterText).isSome := by
    refine isSome_mapM fun p _ => ?_
    unfold parameterText
    cases hty : p.type with
    | none => simp
    | some ty =>
      obtain ⟨t, ht⟩ := Option.isSome_iff_exists.1 (isSome_typeText h ty)
      simp [ht]
  have hr : (ns.returnText m).isSome := by
    unfold returnText
    cases hty : m.returns with
    | none => simp
    | some ty => simpa using isSome_typeText h ty
  have hb : (m.body.mapM ns.bodyLine).isSome := by
    refine isSome_mapM fun s _ => ?_
    unfold bodyLine
    split
    · rfl
    · simpa using isSome_shortenLine h s
  obtain ⟨params, hp⟩ := Option.isSome_iff_exists.1 hp
  obtain ⟨returns, hr⟩ := Option.isSome_iff_exists.1 hr
  obtain ⟨body, hb⟩ := Option.isSome_iff_exists.1 hb
  simp only [methodCode, hp, hr, hb, Option.bind_eq_bind, Option.bind_some]
  split <;> rfl

theorem isSome_methodsCode {ns : Namespace} (h : ns.IsCovered) (spacing : Nat) (isFirst : Bool)
    (ms : List Method) : (ns.methodsCode spacing isFirst ms).isSome := by
  induction ms generalizing isFirst with
  | nil => rfl
  | cons m ms ih =>
    obtain ⟨code, hc⟩ := Option.isSome_iff_exists.1 (isSome_methodCode h m)
    obtain ⟨rest, hr⟩ := Option.isSome_iff_exists.1 (ih false)
    simp [methodsCode, hc, hr]

theorem isSome_classCode {ns : Namespace} (h : ns.IsCovered) (spacing : Nat) (c : Class) :
    (ns.classCode spacing c).isSome := by
  obtain ⟨interfaces, hi⟩ :=
    Option.isSome_iff_exists.1 (isSome_mapM (l := c.implements) fun n _ => isSome_shorten h n)
  obtain ⟨methods, hm⟩ :=
    Option.isSome_iff_exists.1 (isSome_methodsCode h spacing (c.properties = []) c.methods)
  simp only [classCode, classHead, hi, hm, Option.bind_eq_bind, Option.bind_some, Option.pure_def,
    Option.isSome_some]

theorem isSome_classesCode {ns : Namespace} (h : ns.IsCovered) (spacing : Nat) (cs : List Class) :
    (ns.classesCode spacing cs).isSome := by
  fun_induction classesCode ns spacing cs with
  | case1 => rfl
  | case2 c => exact isSome_classCode h spacing c
  | case3 c d cs ih =>
    obtain ⟨code, hc⟩ := Option.isSome_iff_exists.1 (isSome_classCode h spacing c)
    obtain ⟨rest, hr⟩ := Option.isSome_iff_exists.1 ih
    simp [hc, hr]

/-- A covered namespace has a page in every layout. -/
theorem isSome_page {ns : Namespace} (h : ns.IsCovered) (layout : Layout) :
    (ns.page layout).isSome := by
  simpa [page, pageCode] using isSome_classesCode h layout.spacing ns.classes

/-- A namespace that imports its own name and nothing else is covered. -/
theorem isCovered_addImport_named (scope : Text) (c : Class) :
    (((named scope).addImport scope).addClass c).IsCovered := by
  by_cases h : Name.stripSeparator scope = []
  · exact .inl (by simp [addClass, addImport, named, h])
  · exact .inr ⟨⟨Name.short (Name.stripSeparator scope), Name.stripSeparator scope⟩,
      by simp [addClass, addImport, named, h, putImport]⟩

end Namespace

end BuilderForge.Php
