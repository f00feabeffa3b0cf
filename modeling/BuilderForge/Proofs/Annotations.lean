import BuilderForge.Proofs.LargerManifests
import BuilderForge.Proofs.RepeatedAlternatives
import Mathlib.Data.List.Basic
/-
  Which type an annotation gives to a property.

  A tag has a word if one or more blanks of a line and then the word follow it
  on the spot (`Annotation.IsTagged`); the word goes on up to the next blank. The tags of a
  doc comment are looked at in their order (`pairwise_remainders`), so what is found
  is the word of the earliest tag that has one, and nothing is found only if no tag
  has a word (`find?_eq_some_iff`, `find?_eq_none_iff`). The word is read as a
  type, and the type is taken if it is a keyword or a name that was put into the
  set of known types, in whatever steps the set was made (`contains_made_iff`).
-/

namespace BuilderForge

namespace Annotation

variable {doc rest word : Text}

/-! ## Words of tags -/

/-- Whether a character is part of a word. -/
def isWordChar (c : Char) : Bool := !Text.isBlank c

/-- Whether a word follows a tag, given what comes after the tag: spaces or tabs,
and then the word, up to the next blank or the end. -/
def Begins (rest word : Text) : Prop :=
  ∃ gap after, rest = gap ++ (word ++ after) ∧ gap ≠ [] ∧ (∀ c ∈ gap, isGap c) ∧
    word ≠ [] ∧ Text.IsRun isWordChar word after

theorem isBlank_of_isGap {c : Char} (h : isGap c) : Text.isBlank c := by
  rw [isGap, Bool.or_eq_true, decide_eq_true_iff, decide_eq_true_iff] at h
  rcases h with rfl | rfl <;> decide

/-- A word begins with no blank, so it ends the run of blanks before it. -/
theorem isRun_gap {gap after : Text} (hgap : ∀ c ∈ gap, isGap c) (hword : word ≠ [])
    (hrun : Text.IsRun isWordChar word after) : Text.IsRun isGap gap (word ++ after) where
  all := hgap
  ends c hc := by
    obtain ⟨d, word, rfl⟩ := List.exists_cons_of_ne_nil hword
    obtain rfl : d = c := Option.some.inj hc
    have hd : (!Text.isBlank d) = true := hrun.all d List.mem_cons_self
    rw [← Bool.not_eq_true]
    intro h
    rw [isBlank_of_isGap h] at hd
    cases hd

/-- What comes after a tag, cut into blanks, a word and the rest: the word counts
if neither it nor the blanks are missing. -/
theorem word?_append {gap after : Text} (hgap : Text.IsRun isGap gap (word ++ after))
    (hword : Text.IsRun isWordChar word after) :
    word? (gap ++ (word ++ after)) = if gap ≠ [] ∧ word ≠ [] then some word else none := by
  have htake : ((gap ++ (word ++ after)).dropWhile isGap).takeWhile isWordChar = word := by
    rw [hgap.dropWhile_eq, hword.takeWhile_eq]
  cases hrest : gap ++ (word ++ after) with
  | nil =>
    have hnil := List.append_eq_nil_iff.1 hrest
    rw [if_neg fun h => h.1 hnil.1]
    rfl
  | cons c t =>
    have hfound : word? (c :: t) = if Text.isBlank c && word ≠ [] then some word else none := by
      rw [hrest] at htake
      simp only [word?]
      rw [show ((c :: t).dropWhile isGap).takeWhile (fun d => !Text.isBlank d) = word from htake]
    rw [hfound]
    refine if_congr ?_ rfl rfl
    rw [Bool.and_eq_true, decide_eq_true_iff]
    refine and_congr_left fun hne => ?_
    cases gap with
    | nil =>
      -- the word stands right behind the tag
      obtain ⟨d, word, rfl⟩ := List.exists_cons_of_ne_nil hne
      obtain rfl : d = c := by simpa using congrArg List.head? hrest
      have hd : (!Text.isBlank d) = true := hword.all d List.mem_cons_self
      simpa using hd
    | cons d gap =>
      obtain rfl : d = c := by simpa using congrArg List.head? hrest
      exact iff_of_true (isBlank_of_isGap (hgap.all d List.mem_cons_self)) (List.cons_ne_nil d gap)

theorem word?_eq_some_iff : word? rest = some word ↔ Begins rest word := by
  constructor
  · intro h
    have hgap := Text.isRun_takeWhile isGap rest
    have hword := Text.isRun_takeWhile isWordChar (rest.dropWhile isGap)
    have hbody := List.takeWhile_append_dropWhile (p := isWordChar) (l := rest.dropWhile isGap)
    have hrest := List.takeWhile_append_dropWhile (p := isGap) (l := rest)
    rw [← hbody] at hgap hrest
    rw [← hrest, word?_append hgap hword] at h
    split at h
    · rename_i hne
      cases h
      exact ⟨_, _, hrest.symm, hne.1, hgap.all, hne.2, hword⟩
    · cases h
  · rintro ⟨gap, after, rfl, hne, hgap, hword, hrun⟩
    rw [word?_append (isRun_gap hgap hword hrun) hrun, if_pos ⟨hne, hword⟩]

/-! ## Tags of a doc comment -/

/-- Whether a tag of a doc comment has a word: what stands before the tag, and the word. -/
def IsTagged (doc before word : Text) : Prop :=
  ∃ rest, doc = before ++ (tag ++ rest) ∧ Begins rest word

/-- Whether a word is that of the earliest tag that has one. -/
def IsFirstWord (doc word : Text) : Prop :=
  ∃ before, IsTagged doc before word ∧
    ∀ before' word', IsTagged doc before' word' → before.length ≤ before'.length

/-- What comes after the tags of a doc comment. -/
theorem mem_remainders : rest ∈ remainders doc ↔ tag ++ rest <:+ doc := by
  fun_induction remainders doc with
  | case1 => simp [tag]
  | case2 c t after hprefix ih =>
    rw [List.isPrefixOf?_eq_some_iff_append_eq] at hprefix
    rw [List.mem_cons, ih, List.suffix_cons_iff, ← hprefix, List.append_cancel_left_eq]
  | case3 c t hprefix ih =>
    rw [ih, List.suffix_cons_iff]
    refine (or_iff_right fun heq => ?_).symm
    rw [List.isPrefixOf?_eq_some_iff_append_eq.2 heq] at hprefix
    cases hprefix

/-- A later tag leaves less of the doc comment. -/
theorem pairwise_remainders (doc : Text) :
    (remainders doc).Pairwise fun rest later => later.length < rest.length := by
  have hlength : ∀ {t rest}, rest ∈ remainders t → tag.length + rest.length ≤ t.length := by
    intro t rest h
    rw [← List.length_append]
    exact (mem_remainders.1 h).length_le
  fun_induction remainders doc with
  | case1 => exact .nil
  | case2 c t after hprefix ih =>
    refine .cons (fun later h => ?_) ih
    have hafter := congrArg List.length (List.isPrefixOf?_eq_some_iff_append_eq.1 hprefix)
    have hlater := hlength h
    rw [List.length_append, List.length_cons] at hafter
    have htag : tag.length = 4 := rfl
    omega
  | case3 c t hprefix ih => exact ih

theorem exists_begins_of_mem {before : Text} (h : IsTagged doc before word) :
    ∃ rest ∈ remainders doc, doc = before ++ (tag ++ rest) ∧ word? rest = some word := by
  obtain ⟨rest, hdoc, hbegins⟩ := h
  exact ⟨rest, mem_remainders.2 ⟨before, hdoc.symm⟩, hdoc, word?_eq_some_iff.2 hbegins⟩

/-- Nothing is found exactly if no tag has a word. -/
theorem find?_eq_none_iff : find? doc = none ↔ ∀ before word, ¬ IsTagged doc before word := by
  rw [find?, List.findSome?_eq_none_iff]
  constructor
  · intro h before word htagged
    obtain ⟨rest, hmem, -, hword⟩ := exists_begins_of_mem htagged
    rw [h rest hmem] at hword
    cases hword
  · intro h rest hmem
    cases hword : word? rest with
    | none => rfl
    | some word =>
      obtain ⟨before, hdoc⟩ := mem_remainders.1 hmem
      exact absurd ⟨rest, hdoc.symm, word?_eq_some_iff.1 hword⟩ (h before word)

/-- The word that is found is that of the earliest tag that has one. -/
theorem isFirstWord_of_find? (h : find? doc = some word) : IsFirstWord doc word := by
  obtain ⟨passed, rest, later, hall, hword, hpassed⟩ := List.findSome?_eq_some_iff.1 h
  have hmem : rest ∈ remainders doc := by simp [hall]
  obtain ⟨before, hdoc⟩ := mem_remainders.1 hmem
  refine ⟨before, ⟨rest, hdoc.symm, word?_eq_some_iff.1 hword⟩, fun before' word' htagged => ?_⟩
  obtain ⟨rest', hmem', hdoc', hword'⟩ := exists_begins_of_mem htagged
  have hle : rest'.length ≤ rest.length := by
    have hpairwise := pairwise_remainders doc
    rw [hall, List.pairwise_append, List.pairwise_cons] at hpairwise
    rw [hall, List.mem_append, List.mem_cons] at hmem'
    rcases hmem' with hmem' | rfl | hmem'
    · rw [hpassed rest' hmem'] at hword'
      cases hword'
    · exact Nat.le_refl _
    · exact Nat.le_of_lt (hpairwise.2.1.1 rest' hmem')
  have hlength := congrArg List.length (hdoc.trans hdoc')
  simp only [List.length_append] at hlength
  omega

/-- There is one earliest word. -/
theorem IsFirstWord.eq {word' : Text} (h : IsFirstWord doc word) (h' : IsFirstWord doc word') :
    word = word' := by
  obtain ⟨before, htagged, hfirst⟩ := h
  obtain ⟨before', htagged', hfirst'⟩ := h'
  have hlength := Nat.le_antisymm (hfirst _ _ htagged') (hfirst' _ _ htagged)
  obtain ⟨rest, hdoc, hbegins⟩ := htagged
  obtain ⟨rest', hdoc', hbegins'⟩ := htagged'
  obtain ⟨rfl, hrest⟩ := List.append_inj (hdoc.symm.trans hdoc') hlength
  rw [List.append_cancel_left_eq] at hrest
  subst hrest
  exact Option.some.inj ((word?_eq_some_iff.2 hbegins).symm.trans (word?_eq_some_iff.2 hbegins'))

theorem find?_eq_some_iff : find? doc = some word ↔ IsFirstWord doc word := by
  refine ⟨isFirstWord_of_find?, fun h => ?_⟩
  cases hfind : find? doc with
  | none =>
    obtain ⟨before, htagged, -⟩ := h
    exact absurd htagged (find?_eq_none_iff.1 hfind before word)
  | some word' => rw [(isFirstWord_of_find? hfind).eq h]

end Annotation

/-! ## Known types -/

namespace KnownTypes

/-- A step in which a set of known types is made. -/
inductive Step where
  | insert (name : Text)
  | extend (names : List Text)

/-- The set after a step. -/
def Step.apply (known : KnownTypes) : Step → KnownTypes
  | .insert name => known.insert name
  | .extend names => known.insertAll names

/-- The names that a step puts in. -/
def Step.names : Step → List Text
  | .insert name => [name]
  | .extend names => names

/-- The set that steps make of the empty one. -/
def made (steps : List Step) : KnownTypes := steps.foldl Step.apply empty

/-- Whether a name was put in, without regard to case and to a separator in front. -/
def IsInserted (steps : List Step) (name : Text) : Prop :=
  ∃ inserted ∈ steps.flatMap Step.names,
    Text.sameFolded (Name.stripSeparator inserted) (Name.stripSeparator name)

theorem keys_apply (known : KnownTypes) (step : Step) (k : Text) :
    k ∈ (step.apply known).keys ↔ k ∈ known.keys ∨ ∃ n ∈ step.names, key n = k := by
  cases step with
  | insert name => simp [Step.apply, Step.names, insert, or_comm, eq_comm]
  | extend names => exact mem_insertAll

theorem mem_foldl_apply (steps : List Step) (known : KnownTypes) (k : Text) :
    k ∈ (steps.foldl Step.apply known).keys ↔
      k ∈ known.keys ∨ ∃ n ∈ steps.flatMap Step.names, key n = k := by
  induction steps generalizing known with
  | nil => simp
  | cons step steps ih =>
    rw [List.foldl_cons, ih, keys_apply, or_assoc, List.flatMap_cons]
    simp only [List.mem_append, or_and_right, exists_or]

/-- The set that steps make has the names that they put in, and no others. -/
theorem contains_made_iff {steps : List Step} {name : Text} :
    (made steps).contains name ↔ IsInserted steps name := by
  rw [contains, List.contains_iff_mem, made, mem_foldl_apply, IsInserted]
  simp [empty, key]

end KnownTypes

/-- Whether an annotation may name a type: a keyword, or a name that was put in. -/
def TypeHint.IsAllowed (ty : TypeHint) (steps : List KnownTypes.Step) : Prop :=
  (∃ k ∈ KnownTypes.annotationKeywords, Text.sameFolded k ty.name) ∨
    KnownTypes.IsInserted steps ty.name

theorem TypeHint.allows_made_iff {ty : TypeHint} {steps : List KnownTypes.Step} :
    (KnownTypes.made steps).allows ty.name ↔ ty.IsAllowed steps := by
  have hfolded : ∀ k ∈ KnownTypes.annotationKeywords, Text.fold k = k := by decide
  rw [KnownTypes.allows, Bool.or_eq_true, KnownTypes.contains_made_iff, IsAllowed]
  refine or_congr_left ⟨fun h => ?_, fun h => ?_⟩
  · have hmem := List.contains_iff_mem.1 h
    exact ⟨_, hmem, Text.sameFolded_iff.2 (hfolded _ hmem)⟩
  · obtain ⟨k, hk, hsame⟩ := h
    rw [List.contains_iff_mem, ← Text.sameFolded_iff.1 hsame, hfolded k hk]
    exact hk

/-- A property without a declared type has the type of its annotation's word, if
the annotation may name it. -/
theorem PropertyDeclaration.builderType_eq_some_iff {p : PropertyDeclaration} (hp : p.type = none)
    {known : KnownTypes} {ty : TypeHint} : p.builderType known = some ty ↔
      ∃ word, p.doc.bind Annotation.find? = some word ∧ ty = TypeHint.parse word ∧
        known.allows ty.name := by
  cases hword : p.doc.bind Annotation.find? with
  | none =>
    rw [builderType, hp, hword]
    simp
  | some word =>
    rw [builderType_annotated hp hword, Option.ite_none_right_eq_some]
    constructor
    · rintro ⟨hallowed, hty⟩
      cases hty
      exact ⟨word, rfl, rfl, hallowed⟩
    · rintro ⟨word', hsame, rfl, hallowed⟩
      cases hsame
      exact ⟨hallowed, rfl⟩

/-- An annotation is the word of the earliest tag that has one, whatever tags
stand before it, and there is none if no tag has a word. A property without a
declared type is typed exactly if this word, read as a type, is a keyword or one
of the names that were put into the known types, in whatever steps, and its type
is then what was read. -/
theorem PropertyDeclaration.takes_annotated_type {p : PropertyDeclaration} (hp : p.type = none)
    (steps : List KnownTypes.Step) :
    (∀ doc word, Annotation.find? doc = some word ↔ Annotation.IsFirstWord doc word) ∧
    (∀ doc, Annotation.find? doc = none ↔ ∀ before word, ¬ Annotation.IsTagged doc before word) ∧
    ∀ ty, p.builderType (KnownTypes.made steps) = some ty ↔
      ∃ doc word, p.doc = some doc ∧ Annotation.IsFirstWord doc word ∧
        ty = TypeHint.parse word ∧ ty.IsAllowed steps := by
  refine ⟨fun doc word => Annotation.find?_eq_some_iff, fun doc => Annotation.find?_eq_none_iff,
    fun ty => ?_⟩
  rw [builderType_eq_some_iff hp]
  constructor
  · rintro ⟨word, hfind, hty, hallowed⟩
    obtain ⟨doc, hdoc, hfind⟩ := Option.bind_eq_some_iff.1 hfind
    exact ⟨doc, word, hdoc, Annotation.find?_eq_some_iff.1 hfind, hty,
      TypeHint.allows_made_iff.1 hallowed⟩
  · rintro ⟨doc, word, hdoc, hfirst, hty, hallowed⟩
    exact ⟨word, Option.bind_eq_some_iff.2 ⟨doc, hdoc, Annotation.find?_eq_some_iff.2 hfirst⟩, hty,
      TypeHint.allows_made_iff.2 hallowed⟩

/-- A property whose doc comment has a tag at the end of a line, one that is glued
to a word, and two that count. -/
def price : PropertyDeclaration :=
  ⟨"price".toList, .publicAccess, false, none,
    some "/**\n * @var\n * @variable x @var \t?\\APP\\Money @var int\n */".toList⟩

theorem PropertyDeclaration.takes_annotated_type_price : price.type = none ∧
    price.builderType (KnownTypes.made [.extend ["Closure".toList], .insert "App\\money".toList]) =
      some ⟨"\\APP\\Money".toList, true⟩ := by
  refine ⟨rfl, ((takes_annotated_type rfl _).2.2 _).2 ⟨_, "?\\APP\\Money".toList, rfl, ?_, rfl, .inr ?_⟩⟩
  · exact ((takes_annotated_type (p := price) rfl []).1 _ _).1 (by decide)
  · exact ⟨"App\\money".toList, by decide, by decide⟩

end BuilderForge
