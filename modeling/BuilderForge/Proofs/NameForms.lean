import Mathlib.Data.List.Forall2
import BuilderForge.Declaration.Basic
import BuilderForge.Proofs.Names
/-
  The grammar of names.

  A label is a letter and then letters and digits, where everything outside
  ASCII is a letter. A path is labels with separators between them; a name is a
  path that may have one separator in front; a type is names, each with blanks
  around it, with bars between them. The relations here say so by rules, and
  each predicate that looks for the separators and the bars decides its
  relation: `isLabel_iff`, `nameForm_iff`, `isTypeList_iff`. A path and a name
  come with their last label, which is what `short` finds.

  What may stand in front of a name without being a part of it has rules of its
  own: a separator in front of a class, a qualifier in front of a constant
  (`fullForm_iff`, `constantForm_iff`). Classes of one name, and words that are
  reserved, are compared letter by letter, where A to Z are the same as a to z
  (`sameClass_iff`, `isReserved_iff`).
-/

namespace BuilderForge.Name

/-- The letters of labels. -/
def IsLetter (c : Char) : Prop :=
  'A' ≤ c ∧ c ≤ 'Z' ∨ 'a' ≤ c ∧ c ≤ 'z' ∨ c = '_' ∨ 128 ≤ c.toNat

/-- The digits of labels. -/
def IsDigit (c : Char) : Prop := '0' ≤ c ∧ c ≤ '9'

/-- Labels. -/
inductive LabelForm : Text → Prop where
  | mk {c : Char} {t : Text} (hc : IsLetter c) (ht : ∀ d ∈ t, IsLetter d ∨ IsDigit d) :
    LabelForm (c :: t)

/-- Paths, each with its last label. -/
inductive PathForm : Text → Text → Prop where
  | label {t : Text} (h : LabelForm t) : PathForm t t
  | within {label t last : Text} (h : LabelForm label) (ht : PathForm t last) :
    PathForm (label ++ '\\' :: t) last

/-- Names, each with its last label. -/
inductive NameForm : Text → Text → Prop where
  | relative {t last : Text} (h : PathForm t last) : NameForm t last
  | complete {t last : Text} (h : PathForm t last) : NameForm ('\\' :: t) last

/-- Types: names with bars between them and blanks around each. -/
inductive TypeForm : Text → Prop where
  | single {part name last : Text} (hpart : Text.IsTrimmed part name) (h : NameForm name last) :
    TypeForm part
  | union {part name rest last : Text} (hpart : Text.IsTrimmed part name) (h : NameForm name last)
    (hrest : TypeForm rest) : TypeForm (part ++ '|' :: rest)

/-- What is declared as the name of a class, each with the full name of the class:
one separator in front is no part of it. -/
inductive FullForm : Text → Text → Prop where
  | complete (name : Text) : FullForm ('\\' :: name) name
  | relative {name : Text} (h : name.head? ≠ some '\\') : FullForm name name

/-- What is declared as a constant, each with the name of the constant: one
qualifier in front that means the own class is no part of it. -/
inductive ConstantForm : Text → Text → Prop where
  | self (name : Text) : ConstantForm ("self::".toList ++ name) name
  | static (name : Text) : ConstantForm ("static::".toList ++ name) name
  | bare {name : Text} (hself : ¬ "self::".toList <+: name) (hstatic : ¬ "static::".toList <+: name) :
    ConstantForm name name

/-- Whether `c` is one of A to Z, and `d` the same letter in lower case. -/
def IsCapitalOf (c d : Char) : Prop := 'A' ≤ c ∧ c ≤ 'Z' ∧ d.toNat = c.toNat + 32

/-- Whether two texts differ in the case of A to Z at most. -/
def SameLetters : Text → Text → Prop :=
  List.Forall₂ fun c d => c = d ∨ IsCapitalOf c d ∨ IsCapitalOf d c

/-- Whether two texts are declared as the name of one class. -/
def SameClass (s t : Text) : Prop :=
  ∃ name name', FullForm s name ∧ FullForm t name' ∧ SameLetters name name'

/-! ## Labels -/

theorem isLabelStart_iff_isLetter {c : Char} : isLabelStart c ↔ IsLetter c := by
  have hunderscore : c = '_' ↔ c.toNat = 95 := by
    rw [← Char.toNat_inj]
    rfl
  have hle {a b : Char} : a ≤ b ↔ a.toNat ≤ b.toNat := Iff.rfl
  have hbounds : 'A'.toNat = 65 ∧ 'Z'.toNat = 90 ∧ 'a'.toNat = 97 ∧ 'z'.toNat = 122 := by decide
  rw [isLabelStart_iff, IsLetter, hunderscore, hle, hle, hle, hle]
  omega

theorem isLabelChar_iff_isLetter {c : Char} : isLabelChar c ↔ IsLetter c ∨ IsDigit c := by
  have hle {a b : Char} : a ≤ b ↔ a.toNat ≤ b.toNat := Iff.rfl
  have hbounds : '0'.toNat = 48 ∧ '9'.toNat = 57 := by decide
  rw [← isLabelStart_iff_isLetter, isLabelStart_iff, isLabelChar_iff, IsDigit, hle, hle]
  omega

theorem isLabel_iff {t : Text} : isLabel t ↔ LabelForm t := by
  constructor
  · intro h
    cases t with
    | nil => cases h
    | cons c t =>
      rw [isLabel, Bool.and_eq_true, List.all_eq_true] at h
      exact .mk (isLabelStart_iff_isLetter.1 h.1) fun d hd => isLabelChar_iff_isLetter.1 (h.2 d hd)
  · rintro ⟨hc, ht⟩
    rw [isLabel, Bool.and_eq_true, List.all_eq_true]
    exact ⟨isLabelStart_iff_isLetter.2 hc, fun d hd => isLabelChar_iff_isLetter.2 (ht d hd)⟩

/-! ## Paths and names -/

theorem PathForm.isPath {t last : Text} (h : PathForm t last) :
    isPath t ∧ (Text.pieces separator t).getLast? = some last := by
  induction h with
  | label h =>
    have hlabel := isLabel_iff.2 h
    rw [Text.pieces_of_not_mem (separator_notMem_of_isLabel hlabel)]
    exact ⟨isPath_of_isLabel hlabel, rfl⟩
  | @within label t last h _ ih =>
    show Name.isPath (label ++ separator :: t) ∧
      (Text.pieces separator (label ++ separator :: t)).getLast? = some last
    rw [isPath_append, Text.pieces_append_sep, List.getLast?_append, ih.2]
    exact ⟨Bool.and_eq_true_iff.2 ⟨isPath_of_isLabel (isLabel_iff.2 h), ih.1⟩, rfl⟩

/-- Labels make a path. -/
theorem pathForm_join {last : Text} : ∀ {ps : List Text}, (∀ p ∈ ps, isLabel p) →
    ps.getLast? = some last → PathForm (Text.join [separator] ps) last
  | [], _, h => by cases h
  | [p], hps, h => by
    cases h
    rw [Text.join_singleton]
    exact .label (isLabel_iff.1 (hps p List.mem_cons_self))
  | p :: q :: ps, hps, h => by
    rw [List.getLast?_cons_cons] at h
    rw [Text.join_cons_cons]
    exact .within (isLabel_iff.1 (hps p List.mem_cons_self))
      (pathForm_join (fun r hr => hps r (List.mem_cons_of_mem p hr)) h)

theorem pathForm_iff {t last : Text} : PathForm t last ↔
    isPath t ∧ (Text.pieces separator t).getLast? = some last := by
  refine ⟨PathForm.isPath, fun ⟨h, hlast⟩ => ?_⟩
  rw [← Text.join_pieces separator t]
  exact pathForm_join (fun p hp => List.all_eq_true.1 h p hp) hlast

theorem exists_pathForm {t : Text} (h : isPath t) : ∃ last, PathForm t last := by
  obtain ⟨last, hlast⟩ := Option.isSome_iff_exists.1
    (List.getLast?_isSome.2 (Text.pieces_ne_nil separator t))
  exact ⟨last, pathForm_iff.2 ⟨h, hlast⟩⟩

/-- The last label is the short name. -/
theorem getLast?_pieces (name : Text) :
    (Text.pieces separator (stripSeparator name)).getLast? = some (short name) := by
  obtain ⟨hshort, ⟨-, hname⟩ | hname⟩ := split_spec name
  · rw [hname, Text.pieces_of_not_mem hshort]
    rfl
  · rw [hname, Text.pieces_append_sep, Text.pieces_of_not_mem hshort, List.getLast?_append]
    rfl

theorem nameForm_iff {name last : Text} :
    NameForm name last ↔ isPath (stripSeparator name) ∧ short name = last := by
  have hform : PathForm (stripSeparator name) last ↔
      isPath (stripSeparator name) ∧ short name = last := by
    rw [pathForm_iff, getLast?_pieces, Option.some_inj]
  rw [← hform]
  constructor
  · intro h
    cases h with
    | relative h => rwa [stripSeparator_of_isPath h.isPath.1]
    | complete h => exact h
  · intro h
    rcases stripSeparator_cases name with hname | hname
    · rw [hname] at h
      exact .relative h
    · rw [hname]
      exact .complete h

theorem exists_nameForm_iff {name : Text} : (∃ last, NameForm name last) ↔ isPath (stripSeparator name) := by
  simp only [nameForm_iff, exists_and_left, exists_eq', and_true]

/-! ## Types -/

theorem isAlternative_iff {part : Text} : isAlternative part ↔
    ∃ name last, Text.IsTrimmed part name ∧ NameForm name last := by
  simp only [isAlternative, ← exists_nameForm_iff, ← Text.trim_eq_iff, exists_and_left, exists_eq_left']

/-- A bar is neither in a name nor among the blanks around it. -/
theorem bar_notMem_of_isAlternative {part : Text} (h : isAlternative part) : '|' ∉ part := by
  intro hbar
  have htrim : '|' ∈ Text.trim part := Text.mem_trim hbar (by decide)
  exact absurd (isNameChar_of_mem_name h htrim) (by decide)

theorem isTypeList_iff {t : Text} : isTypeList t ↔ TypeForm t := by
  constructor
  · have hjoin : ∀ {ps : List Text}, ps ≠ [] → (∀ p ∈ ps, isAlternative p) →
        TypeForm (Text.join ['|'] ps) := by
      intro ps
      induction ps with
      | nil => exact fun h => absurd rfl h
      | cons p ps ih =>
        intro _ hps
        obtain ⟨name, last, hname, hlast⟩ := isAlternative_iff.1 (hps p List.mem_cons_self)
        cases ps with
        | nil =>
          rw [Text.join_singleton]
          exact .single hname hlast
        | cons q ps =>
          rw [Text.join_cons_cons]
          exact .union hname hlast (ih (List.cons_ne_nil q ps) fun r hr => hps r (List.mem_cons_of_mem p hr))
    intro h
    rw [← Text.join_pieces '|' t]
    exact hjoin (Text.pieces_ne_nil _ t) fun p hp => List.all_eq_true.1 h p hp
  · intro h
    induction h with
    | single hpart h =>
      have hpart := isAlternative_iff.2 ⟨_, _, hpart, h⟩
      rw [isTypeList, Text.pieces_of_not_mem (bar_notMem_of_isAlternative hpart)]
      simpa using hpart
    | union hpart h _ ih =>
      have hpart := isAlternative_iff.2 ⟨_, _, hpart, h⟩
      rw [isTypeList, Text.pieces_append_sep, List.all_append,
        Text.pieces_of_not_mem (bar_notMem_of_isAlternative hpart), Bool.and_eq_true]
      exact ⟨by simpa using hpart, ih⟩

/-! ## What stands in front of a name -/

theorem fullForm_iff {t name : Text} : FullForm t name ↔ stripSeparator t = name := by
  constructor
  · intro h
    cases h with
    | complete => rfl
    | relative h =>
      cases t with
      | nil => rfl
      | cons c t => exact if_neg fun hc => h (congrArg some hc)
  · rintro rfl
    cases t with
    | nil => exact .relative nofun
    | cons c t =>
      by_cases hc : c = '\\'
      · rw [hc]
        exact .complete t
      · have hstrip : stripSeparator (c :: t) = c :: t := if_neg hc
        rw [hstrip]
        exact .relative fun h => hc (Option.some.inj h)

theorem constantForm_iff {t name : Text} : ConstantForm t name ↔ Default.unqualified t = name := by
  have hprefix {mark t rest : Text} : mark.isPrefixOf? t = some rest ↔ mark ++ rest = t :=
    List.isPrefixOf?_eq_some_iff_append_eq
  have hnone {mark t : Text} : mark.isPrefixOf? t = none ↔ ¬ mark <+: t := by
    rw [Option.eq_none_iff_forall_ne_some]
    simp only [ne_eq, hprefix, List.IsPrefix, not_exists]
  constructor
  · intro h
    cases h with
    | self => rfl
    | static => rfl
    | bare hself hstatic =>
      rw [Default.unqualified, hnone.2 hself, hnone.2 hstatic]
      rfl
  · rintro rfl
    rw [Default.unqualified]
    cases hself : "self::".toList.isPrefixOf? t with
    | some rest =>
      rw [← hprefix.1 hself]
      exact .self rest
    | none =>
      cases hstatic : "static::".toList.isPrefixOf? t with
      | some rest =>
        rw [← hprefix.1 hstatic]
        exact .static rest
      | none => exact .bare (hnone.1 hself) (hnone.1 hstatic)

/-! ## Case -/

theorem toLower_eq_iff {c d : Char} :
    c.toLower = d.toLower ↔ c = d ∨ IsCapitalOf c d ∨ IsCapitalOf d c := by
  have hle {a b : Char} : a ≤ b ↔ a.toNat ≤ b.toNat := Iff.rfl
  have hbounds : 'A'.toNat = 65 ∧ 'Z'.toNat = 90 := by decide
  rw [← Char.toNat_inj, ← Char.toNat_inj, Text.toNat_toLower, Text.toNat_toLower, IsCapitalOf,
    IsCapitalOf, hle, hle, hle, hle]
  split <;> split <;> omega

theorem sameLetters_iff {s t : Text} : SameLetters s t ↔ Text.fold s = Text.fold t := by
  simp only [SameLetters, ← toLower_eq_iff, Text.fold, ← List.forall₂_eq_eq_eq,
    List.forall₂_map_left_iff, List.forall₂_map_right_iff]

theorem sameClass_iff {s t : Text} : SameClass s t ↔
    Text.fold (stripSeparator s) = Text.fold (stripSeparator t) := by
  simp only [SameClass, fullForm_iff, sameLetters_iff, exists_eq_left', exists_and_left]

/-- A word is reserved if it is one of the reserved words in any case of its letters. -/
theorem isReserved_iff {t : Text} : isReserved t ↔ ∃ word ∈ reservedWords, SameLetters t word := by
  -- the words are listed in lower case
  have hlower : ∀ word ∈ reservedWords, Text.fold word = word := by decide
  simp only [isReserved, List.contains_iff_mem, sameLetters_iff]
  constructor
  · exact fun h => ⟨_, h, (hlower _ h).symm⟩
  · rintro ⟨word, hword, hsame⟩
    rwa [hsame, hlower word hword]

end BuilderForge.Name
