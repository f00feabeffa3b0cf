import BuilderForge.Name.Label
import BuilderForge.Php.Coverage
import BuilderForge.Proofs.Texts
/-
  Names as texts: which characters they have, and how they come apart.

  A path is a label, or a path, a separator and a path (`isPath_append`). It
  has no separator in front, and its namespace is empty or a path again. Whether
  a text is a label or a path does not depend on the case of A to Z, since
  folding takes letters to letters and nothing else to a separator.
-/

namespace BuilderForge.Name

/-! ## Characters of labels -/

theorem isAlpha_iff {c : Char} :
    c.isAlpha ↔ 65 ≤ c.toNat ∧ c.toNat ≤ 90 ∨ 97 ≤ c.toNat ∧ c.toNat ≤ 122 := by
  show (decide (65 ≤ c.val ∧ c.val ≤ 90) || (decide (97 ≤ c.val) && decide (c.val ≤ 122))) = true ↔ _
  simp only [Bool.or_eq_true, Bool.and_eq_true, decide_eq_true_eq, UInt32.le_iff_toNat_le]
  rfl

theorem isLabelStart_iff {c : Char} : isLabelStart c ↔ 65 ≤ c.toNat ∧ c.toNat ≤ 90 ∨
    c.toNat = 95 ∨ 97 ≤ c.toNat ∧ c.toNat ≤ 122 ∨ 128 ≤ c.toNat := by
  have hunderscore : c = '_' ↔ c.toNat = 95 := by
    rw [← Char.toNat_inj]
    rfl
  rw [isLabelStart, Bool.or_eq_true, Bool.or_eq_true, isAlpha_iff, decide_eq_true_eq,
    decide_eq_true_eq, hunderscore]
  omega

theorem isLabelChar_iff {c : Char} : isLabelChar c ↔ 48 ≤ c.toNat ∧ c.toNat ≤ 57 ∨
    65 ≤ c.toNat ∧ c.toNat ≤ 90 ∨ c.toNat = 95 ∨ 97 ≤ c.toNat ∧ c.toNat ≤ 122 ∨
    128 ≤ c.toNat := by
  have hdigit : c.isDigit ↔ 48 ≤ c.toNat ∧ c.toNat ≤ 57 := by
    simp only [Char.isDigit, Bool.and_eq_true, decide_eq_true_eq, ge_iff_le, UInt32.le_iff_toNat_le]
    rfl
  have hstart : isLabelChar c ↔ c.isDigit ∨ isLabelStart c := by
    simp only [isLabelChar, isLabelStart, Char.isAlphanum, Bool.or_eq_true]
    cases c.isAlpha <;> cases c.isDigit <;> simp
  rw [hstart, hdigit, isLabelStart_iff]

theorem isLabelStart_toLower (c : Char) : isLabelStart c.toLower = isLabelStart c := by
  rw [Bool.eq_iff_iff, isLabelStart_iff, isLabelStart_iff, Text.toNat_toLower]
  split <;> omega

theorem isLabelChar_toLower (c : Char) : isLabelChar c.toLower = isLabelChar c := by
  rw [Bool.eq_iff_iff, isLabelChar_iff, isLabelChar_iff, Text.toNat_toLower]
  split <;> omega

theorem isLabelChar_of_isLabelStart {c : Char} (h : isLabelStart c) : isLabelChar c :=
  isLabelChar_iff.2 (.inr (isLabelStart_iff.1 h))

/-- Whether a character may stand in a name. -/
def isNameChar (c : Char) : Bool := isLabelChar c || c = separator

/-! ## Labels and paths -/

theorem isLabelChar_of_mem {t : Text} (h : isLabel t) {c : Char} (hc : c ∈ t) : isLabelChar c := by
  cases t with
  | nil => cases hc
  | cons d t =>
    rw [isLabel, Bool.and_eq_true, List.all_eq_true] at h
    rcases List.mem_cons.1 hc with rfl | hc
    · exact isLabelChar_of_isLabelStart h.1
    · exact h.2 c hc

theorem not_isLabelChar_separator : isLabelChar separator = false := by decide

theorem separator_notMem_of_isLabel {t : Text} (h : isLabel t) : separator ∉ t := by
  intro hc
  have := isLabelChar_of_mem h hc
  rw [not_isLabelChar_separator] at this
  cases this

theorem isLabel_fold (t : Text) : isLabel (Text.fold t) = isLabel t := by
  cases t with
  | nil => rfl
  | cons c t =>
    show (isLabelStart c.toLower && (t.map Char.toLower).all isLabelChar) = _
    rw [isLabelStart_toLower, List.all_map, isLabel]
    simp only [Function.comp_def, isLabelChar_toLower]

theorem isPath_fold (t : Text) : isPath (Text.fold t) = isPath t := by
  rw [isPath, Text.fold, Text.pieces_map fun c _ => Php.toLower_eq_separator, List.all_map, isPath]
  exact congrArg (List.all _) (funext isLabel_fold)

theorem isPath_append (s t : Text) : isPath (s ++ separator :: t) = (isPath s && isPath t) := by
  rw [isPath, Text.pieces_append_sep, List.all_append, isPath, isPath]

/-- A label goes on with the characters of labels. -/
theorem isLabel_append {s t : Text} (hs : isLabel s) (ht : t.all isLabelChar) : isLabel (s ++ t) := by
  cases s with
  | nil => cases hs
  | cons c s =>
    rw [isLabel, Bool.and_eq_true] at hs
    rw [List.cons_append, isLabel, List.all_append, ht, hs.1, hs.2]
    rfl

theorem isPath_of_isLabel {t : Text} (h : isLabel t) : isPath t := by
  rw [isPath, Text.pieces_of_not_mem (separator_notMem_of_isLabel h)]
  simpa using h

theorem isLabel_of_isPath {t : Text} (h : isPath t) (hs : separator ∉ t) : isLabel t := by
  rw [isPath, Text.pieces_of_not_mem hs] at h
  simpa using h

theorem isNameChar_of_mem {t : Text} (h : isPath t) {c : Char} (hc : c ∈ t) : isNameChar c := by
  rw [isNameChar, Bool.or_eq_true, decide_eq_true_iff]
  have hpieces : c = separator ∨ ∃ p ∈ Text.pieces separator t, c ∈ p := Text.mem_pieces_of_mem hc
  rcases hpieces with hc | ⟨p, hp, hc⟩
  · exact .inr hc
  · exact .inl (isLabelChar_of_mem (List.all_eq_true.1 h p hp) hc)

theorem ne_nil_of_isPath {t : Text} (h : isPath t) : t ≠ [] := by
  rintro rfl
  cases h

theorem not_isPath_cons_separator (t : Text) : isPath (separator :: t) = false := by
  rw [isPath, Text.pieces_cons_self]
  rfl

theorem stripSeparator_of_isPath {t : Text} (h : isPath t) : stripSeparator t = t := by
  cases t with
  | nil => rfl
  | cons c t =>
    rw [stripSeparator, if_neg]
    rintro rfl
    rw [not_isPath_cons_separator] at h
    cases h

theorem stripSeparator_cases (t : Text) :
    stripSeparator t = t ∨ t = separator :: stripSeparator t := by
  cases t with
  | nil => exact .inl rfl
  | cons c t =>
    rw [stripSeparator]
    split
    · rename_i hc
      exact .inr (by rw [hc])
    · exact .inl rfl

/-- A name, with or without a separator in front, is made of the same characters. -/
theorem isNameChar_of_mem_name {t : Text} (h : isPath (stripSeparator t)) {c : Char} (hc : c ∈ t) :
    isNameChar c := by
  rcases stripSeparator_cases t with ht | ht
  · rw [ht] at h
    exact isNameChar_of_mem h hc
  · rw [ht] at hc
    rcases List.mem_cons.1 hc with rfl | hc
    · decide
    · exact isNameChar_of_mem h hc

/-! ## Namespaces and short names -/

theorem cutLast_eq_none_iff {c : Char} {t : Text} : Text.cutLast c t = none ↔ c ∉ t := by
  induction t with
  | nil => simp [Text.cutLast]
  | cons d t ih =>
    rw [Text.cutLast, List.mem_cons, not_or]
    split
    · rename_i h
      simp only [h, reduceCtorEq, false_iff, Classical.not_not] at ih
      simp [ih]
    · rename_i h
      rw [h] at ih
      simp only [true_iff] at ih
      rw [ite_eq_right_iff]
      simp [ih, eq_comm]

theorem cutLast_eq_some {c : Char} {t before after : Text}
    (h : Text.cutLast c t = some (before, after)) : t = before ++ c :: after ∧ c ∉ after := by
  induction t generalizing before with
  | nil => cases h
  | cons d t ih =>
    rw [Text.cutLast] at h
    split at h
    · rename_i b a hcut
      cases h
      obtain ⟨ht, hc⟩ := ih hcut
      exact ⟨by rw [List.cons_append, ← ht], hc⟩
    · rename_i hcut
      split at h
      · rename_i hd
        cases h
        exact ⟨by rw [hd]; rfl, cutLast_eq_none_iff.1 hcut⟩
      · cases h

theorem cutLast_append {c : Char} {after : Text} (h : c ∉ after) (before : Text) :
    Text.cutLast c (before ++ c :: after) = some (before, after) := by
  induction before with
  | nil => simp [Text.cutLast, cutLast_eq_none_iff.2 h]
  | cons d before ih => rw [List.cons_append, Text.cutLast, ih]

/-- A name is its short name alone, or its namespace, a separator and its short
name; the short name has no separator. -/
theorem split_spec (name : Text) : separator ∉ short name ∧
    (scope name = [] ∧ stripSeparator name = short name ∨
      stripSeparator name = scope name ++ separator :: short name) := by
  unfold scope short split
  cases hcut : Text.cutLast separator (stripSeparator name) with
  | none => exact ⟨cutLast_eq_none_iff.1 hcut, .inl ⟨rfl, rfl⟩⟩
  | some p =>
    obtain ⟨before, after⟩ := p
    obtain ⟨ht, hs⟩ := cutLast_eq_some hcut
    exact ⟨hs, .inr ht⟩

theorem isLabel_short {name : Text} (h : isPath (stripSeparator name)) : isLabel (short name) := by
  obtain ⟨hs, ⟨-, hname⟩ | hname⟩ := split_spec name
  · rw [hname] at h
    exact isLabel_of_isPath h hs
  · rw [hname, isPath_append, Bool.and_eq_true] at h
    exact isLabel_of_isPath h.2 hs

theorem isPath_scope {name : Text} (h : isPath (stripSeparator name)) :
    scope name = [] ∨ isPath (scope name) := by
  obtain ⟨-, ⟨hname, -⟩ | hname⟩ := split_spec name
  · exact .inl hname
  · rw [hname, isPath_append, Bool.and_eq_true] at h
    exact .inr h.1

/-- A name is put together from its namespace and its short name, unless all that stands before
its last separator is the one in front of a complete name: the empty namespace has no separator
to put back. -/
theorem qualify_scope_short_iff {name : Text} :
    qualify (scope name) (short name) = stripSeparator name ↔
      ¬ ∃ rest, separator ∉ rest ∧ stripSeparator name = separator :: rest := by
  obtain ⟨hshort, ⟨hscope, hname⟩ | hname⟩ := split_spec name
  · apply iff_of_true
    · rw [qualify, if_pos hscope, hname]
    · intro ⟨rest, _, heq⟩
      apply hshort
      simp [← hname, heq]
  by_cases hscope : scope name = []
  · rw [hscope, List.nil_append] at hname
    apply iff_of_false
    · intro heq
      have hlength := congrArg List.length heq
      simp [qualify, hscope, hname] at hlength
    · exact fun h => h ⟨short name, hshort, hname⟩
  · apply iff_of_true
    · rw [qualify, if_neg hscope, hname]
    · intro ⟨rest, hrest, heq⟩
      obtain ⟨c, cs, hcs⟩ := List.exists_cons_of_ne_nil hscope
      rw [hname, hcs, List.cons_append, List.cons.injEq] at heq
      apply hrest
      simp [← heq.2]

/-- The name of a path is put together from its namespace and its short name. -/
theorem qualify_scope_short {name : Text} (h : isPath (stripSeparator name)) :
    qualify (scope name) (short name) = stripSeparator name := by
  apply qualify_scope_short_iff.2
  intro ⟨rest, _, heq⟩
  rw [heq, not_isPath_cons_separator] at h
  cases h

theorem qualify_append (scope short ending : Text) :
    qualify scope (short ++ ending) = qualify scope short ++ ending := by
  unfold qualify
  split
  · rfl
  · simp

theorem fold_qualify (s t : Text) : Text.fold (qualify s t) = qualify (Text.fold s) (Text.fold t) := by
  have hnil : Text.fold s = [] ↔ s = [] := List.map_eq_nil_iff
  unfold qualify
  by_cases hs : s = []
  · rw [if_pos hs, if_pos (hnil.2 hs)]
  · rw [if_neg hs, if_neg (mt hnil.1 hs), Text.fold_append]
    rfl

/-! ## Type keywords -/

theorem isPath_of_isTypeKeyword {t : Text} (h : isTypeKeyword t) : isPath t := by
  have hall : ∀ k ∈ typeKeywords, isPath k = true := by decide
  rw [← isPath_fold]
  exact hall _ (List.contains_iff_mem.1 h)

/-- A type keyword cannot name a class. -/
theorem isReserved_short_of_isTypeKeyword {t : Text} (h : isTypeKeyword t) :
    isReserved (short t) := by
  have hk : ∀ k ∈ typeKeywords, separator ∉ k ∧ k ∈ reservedWords := by decide
  obtain ⟨hsep, hres⟩ := hk _ (List.contains_iff_mem.1 h)
  have hstrip := stripSeparator_of_isPath (isPath_of_isTypeKeyword h)
  have hmem : separator ∉ t := fun hc =>
    hsep (List.mem_map.2 ⟨separator, hc, Php.toLower_eq_separator.2 rfl⟩)
  obtain ⟨-, ⟨-, hname⟩ | hname⟩ := split_spec t
  · rw [← hname, hstrip]
    exact List.contains_iff_mem.2 hres
  · rw [hstrip] at hname
    exact absurd (hname ▸ List.mem_append_right _ List.mem_cons_self) hmem

end BuilderForge.Name
