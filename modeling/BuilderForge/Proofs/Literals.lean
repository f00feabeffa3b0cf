import BuilderForge.Proofs.Scan
import BuilderForge.Value.Literal
/-
  Literals keep to their place: whatever a value holds, its source text is one
  expression on one line.

  A string literal is read as a whole because every character of the string is
  written so that the reader is inside the literal before and after it
  (`Stays`), and no character is written that would end the line. All other
  literals are words and numerals, and arrays put brackets and commas between
  the literals of their items.
-/

namespace BuilderForge.Php

/-- A reader in a literal is in it after the text as before. -/
def Stays (quote : Char) (u : Text) : Prop :=
  ∀ t, outside (.literal quote) (u ++ t) = outside (.literal quote) t

theorem stays_nil (quote : Char) : Stays quote [] := fun _ => rfl

theorem Stays.append {quote : Char} {u v : Text} (hu : Stays quote u) (hv : Stays quote v) :
    Stays quote (u ++ v) := by
  intro t
  rw [List.append_assoc, hu, hv]

theorem stays_flatMap {α : Type} {quote : Char} {f : α → Text} (h : ∀ a, Stays quote (f a))
    (l : List α) : Stays quote (l.flatMap f) := by
  induction l with
  | nil => exact stays_nil quote
  | cons a l ih => exact (h a).append ih

/-- A character that stands for itself. -/
theorem stays_singleton {quote c : Char} (hn : c ≠ '\n') (hb : c ≠ '\\') (hq : c ≠ quote)
    (hd : ¬(c = '$' ∧ quote = '"')) : Stays quote [c] := by
  intro t
  have hnext : (Place.literal quote).next c = some (.literal quote) := by
    rw [Place.next, if_neg (not_or.2 ⟨hn, hd⟩), if_neg hb, if_neg hq]
  rw [List.singleton_append, outside, hnext]
  simp

/-- A character behind a backslash. -/
theorem stays_escape {quote c : Char} (hn : c ≠ '\n') : Stays quote ['\\', c] := by
  intro t
  have hfirst : (Place.literal quote).next '\\' = some (.escape quote) := by
    rw [Place.next, if_neg (by simp), if_pos rfl]
  have hsecond : (Place.escape quote).next c = some (.literal quote) := by
    rw [Place.next, if_neg hn]
  rw [List.cons_append, List.singleton_append, outside, hfirst]
  simp only [outside, hsecond]
  simp

/-- A literal is read from its opening to its closing quote. -/
theorem flat_literal {quote : Char} (hq : quote = '\'' ∨ quote = '"') {body : Text}
    (hbody : Stays quote body) : Flat (quote :: (body ++ [quote])) := by
  have hopen : Place.code.next quote = some (.literal quote) := by
    rw [Place.next, if_pos hq]
  have hclose : outside (.literal quote) [quote] = some [] := by
    rcases hq with rfl | rfl <;> rfl
  refine ⟨[], ?_, rfl, rfl, fun _ _ _ => rfl⟩
  rw [outside, hopen]
  simp only [hbody [quote], hclose]
  simp

theorem not_isControl_of_isLabelChar {c : Char} (h : Name.isLabelChar c) : isControl c = false := by
  rw [Name.isLabelChar_iff] at h
  simp only [isControl, Bool.or_eq_false_iff, decide_eq_false_iff_not]
  omega

theorem stays_singleton_of_isLabelChar {quote c : Char} (hq : quote = '\'' ∨ quote = '"')
    (h : Name.isLabelChar c) : Stays quote [c] := by
  have hne {d : Char} (hd : Name.isLabelChar d = false) : c ≠ d := by
    rintro rfl
    rw [hd] at h
    cases h
  refine stays_singleton (hne (by decide)) (hne (by decide)) ?_ fun ⟨hc, _⟩ => hne (by decide) hc
  rcases hq with rfl | rfl
  · exact hne (by decide)
  · exact hne (by decide)

/-- The character that one behind a backslash names in double quotes. -/
def named? (c : Char) : Option Char :=
  if c = 'n' then some '\n'
  else if c = 'r' then some '\r'
  else if c = 't' then some '\t'
  else if c = 'v' then some (Char.ofNat 0x0B)
  else if c = 'f' then some (Char.ofNat 0x0C)
  else if c = 'e' then some (Char.ofNat 0x1B)
  else if c = '\\' ∨ c = '"' ∨ c = '$' then some c
  else none

end BuilderForge.Php

namespace BuilderForge.Value

open Php (Flat Harmless Plain Stays)

/-! ## Strings -/

theorem isControl_of_isControl {c : Char} (h : isControl c = false) : Php.isControl c = false := by
  simp only [isControl, Bool.or_eq_false_iff, Bool.and_eq_false_iff, decide_eq_false_iff_not] at h
  simp only [Php.isControl, Bool.or_eq_false_iff, decide_eq_false_iff_not]
  omega

theorem isLabelChar_hexDigit {n : Nat} (h : n < 16) :
    Name.isLabelChar (Numeral.hexByte.hexDigit n) := by
  have hall : ∀ n < 16, Name.isLabelChar (Numeral.hexByte.hexDigit n) = true := by decide
  exact hall n h

theorem isLabelChar_of_mem_hexByte {b : UInt8} {c : Char} (h : c ∈ Numeral.hexByte b) :
    Name.isLabelChar c := by
  have hb : b.toNat < 256 := b.toNat_lt
  rw [Numeral.hexByte, List.mem_cons, List.mem_singleton] at h
  rcases h with rfl | rfl
  · exact isLabelChar_hexDigit (by omega)
  · exact isLabelChar_hexDigit (by omega)

theorem ne_lineEnd_of_not_isControl {c : Char} (hc : Php.isControl c = false) : c ≠ '\n' := by
  rintro rfl
  cases hc

theorem stays_singleQuotedChar {c : Char} (hc : isControl c = false) :
    Stays '\'' (singleQuotedChar c) := by
  have hn := ne_lineEnd_of_not_isControl (isControl_of_isControl hc)
  unfold singleQuotedChar
  split
  · exact Php.stays_escape hn
  · rename_i h
    rw [not_or] at h
    exact Php.stays_singleton hn h.1 h.2 (by simp)

theorem stays_hexByte (b : UInt8) : Stays '"' ('\\' :: 'x' :: Numeral.hexByte b) := by
  have hescape : Stays '"' ['\\', 'x'] := Php.stays_escape (by decide)
  have hdigits : Stays '"' ((Numeral.hexByte b).flatMap fun c => [c]) := by
    rw [Numeral.hexByte]
    have hb : b.toNat < 256 := b.toNat_lt
    exact (Php.stays_singleton_of_isLabelChar (.inr rfl) (isLabelChar_hexDigit (by omega))).append
      (Php.stays_singleton_of_isLabelChar (.inr rfl) (isLabelChar_hexDigit (by omega)))
  rw [List.flatMap_singleton'] at hdigits
  exact hescape.append hdigits

/-- In double quotes a character is written behind a backslash by its name, as its
bytes, or as it is. -/
theorem doubleQuotedChar_cases (c : Char) :
    (∃ e, Php.isControl e = false ∧ Php.named? e = some c ∧ doubleQuotedChar c = ['\\', e]) ∨
    doubleQuotedChar c =
      ((Text.encodeChar c).flatMap fun b => '\\' :: 'x' :: Numeral.hexByte b) ∨
    (Php.isControl c = false ∧ c ≠ '\\' ∧ c ≠ '"' ∧ c ≠ '$') ∧ doubleQuotedChar c = [c] := by
  by_cases hnamed : c ∈ ['\n', '\r', '\t', Char.ofNat 0x0B, Char.ofNat 0x0C, Char.ofNat 0x1B]
  · refine .inl ?_
    simp only [List.mem_cons, List.not_mem_nil, or_false] at hnamed
    rcases hnamed with rfl | rfl | rfl | rfl | rfl | rfl
    · exact ⟨'n', by decide, by decide, by decide⟩
    · exact ⟨'r', by decide, by decide, by decide⟩
    · exact ⟨'t', by decide, by decide, by decide⟩
    · exact ⟨'v', by decide, by decide, by decide⟩
    · exact ⟨'f', by decide, by decide, by decide⟩
    · exact ⟨'e', by decide, by decide, by decide⟩
  · simp only [List.mem_cons, List.not_mem_nil, or_false, not_or] at hnamed
    obtain ⟨hn, hr, ht, hv, hf, he⟩ := hnamed
    unfold doubleQuotedChar
    rw [if_neg hn, if_neg hr, if_neg ht, if_neg hv, if_neg hf, if_neg he]
    split
    · rename_i h
      refine .inl ⟨c, ?_, ?_, rfl⟩
      · rcases h with rfl | rfl | rfl <;> decide
      · rcases h with rfl | rfl | rfl <;> decide
    · rename_i hspecial
      rw [not_or, not_or] at hspecial
      split
      · exact .inr (.inl rfl)
      · rename_i hc
        exact .inr (.inr ⟨⟨isControl_of_isControl (by simpa using hc), hspecial⟩, rfl⟩)

theorem stays_doubleQuotedChar (c : Char) : Stays '"' (doubleQuotedChar c) := by
  obtain ⟨e, he, -, h⟩ | h | ⟨⟨hc, hslash, hquote, hdollar⟩, h⟩ := doubleQuotedChar_cases c
  · rw [h]
    exact Php.stays_escape (ne_lineEnd_of_not_isControl he)
  · rw [h]
    exact Php.stays_flatMap stays_hexByte _
  · rw [h]
    exact Php.stays_singleton (ne_lineEnd_of_not_isControl hc) hslash hquote fun hd => hdollar hd.1

theorem clean_singleQuotedChar {c d : Char} (hc : isControl c = false) (hd : d ∈ singleQuotedChar c) :
    Php.isControl d = false := by
  unfold singleQuotedChar at hd
  split at hd
  · rcases List.mem_cons.1 hd with rfl | hd
    · decide
    · rw [List.mem_singleton.1 hd]
      exact isControl_of_isControl hc
  · rw [List.mem_singleton.1 hd]
    exact isControl_of_isControl hc

theorem clean_doubleQuotedChar {c d : Char} (hd : d ∈ doubleQuotedChar c) :
    Php.isControl d = false := by
  obtain ⟨e, he, -, h⟩ | h | ⟨⟨hc, -⟩, h⟩ := doubleQuotedChar_cases c
  · rw [h] at hd
    rcases List.mem_cons.1 hd with rfl | hd
    · decide
    · rwa [List.mem_singleton.1 hd]
  · rw [h] at hd
    obtain ⟨b, -, hd⟩ := List.mem_flatMap.1 hd
    rcases List.mem_cons.1 hd with rfl | hd
    · decide
    rcases List.mem_cons.1 hd with rfl | hd
    · decide
    · exact Php.not_isControl_of_isLabelChar (isLabelChar_of_mem_hexByte hd)
  · rw [h] at hd
    rwa [List.mem_singleton.1 hd]

/-- A string literal is a literal, whatever the string. -/
theorem harmless_quoted (s : Text) : Harmless (quoted s) := by
  unfold quoted
  split
  · refine ⟨Php.flat_literal (.inr rfl) (Php.stays_flatMap stays_doubleQuotedChar s), fun c hc => ?_⟩
    simp only [List.mem_cons, List.mem_append, List.mem_flatMap, List.not_mem_nil, or_false] at hc
    rcases hc with rfl | ⟨d, -, hc⟩ | rfl
    · decide
    · exact clean_doubleQuotedChar hc
    · decide
  · rename_i hs
    have hclean : ∀ c ∈ s, isControl c = false := by simpa using hs
    have hstays : Stays '\'' (s.flatMap singleQuotedChar) := by
      clear hs
      induction s with
      | nil => exact Php.stays_nil _
      | cons c s ih =>
        exact (stays_singleQuotedChar (hclean c List.mem_cons_self)).append
          (ih fun d hd => hclean d (List.mem_cons_of_mem _ hd))
    refine ⟨Php.flat_literal (.inl rfl) hstays, fun c hc => ?_⟩
    simp only [List.mem_cons, List.mem_append, List.mem_flatMap, List.not_mem_nil, or_false] at hc
    rcases hc with rfl | ⟨d, hd, hc⟩ | rfl
    · decide
    · exact clean_singleQuotedChar (hclean d hd) hc
    · decide

/-! ## Numbers -/

theorem plain_ofNat (n : Nat) : Plain (Numeral.ofNat n) := by
  intro c hc
  have hdigit : c.isDigit := Nat.isDigit_of_mem_toDigits (by decide) (by decide) hc
  have hlabel : Name.isLabelChar c := by simp [Name.isLabelChar, Char.isAlphanum, hdigit]
  exact Php.isPlain_of_isNameChar (by rw [Name.isNameChar, hlabel, Bool.true_or])

theorem plain_ofInt (i : Int) : Plain (Numeral.ofInt i) := by
  unfold Numeral.ofInt
  split
  · have hminus : Plain ['-'] := by decide
    exact hminus.append (plain_ofNat _)
  · exact plain_ofNat _

theorem plain_positional (d : Binary64.Decimal) : Plain d.positional := by
  have hzeros (n : Nat) : Plain (List.replicate n '0') := by
    intro c hc
    rw [List.eq_of_mem_replicate hc]
    decide
  have hdigits := plain_ofNat d.digits
  simp only [Binary64.Decimal.positional]
  split
  · exact hdigits.append (hzeros _)
  split
  · have hpoint : Plain ['.'] := by decide
    have hwhole {n : Nat} : Plain ((Numeral.ofNat d.digits).take n) :=
      fun c hc => hdigits c (List.mem_of_mem_take hc)
    have hplaces {n : Nat} : Plain ((Numeral.ofNat d.digits).drop n) :=
      fun c hc => hdigits c (List.mem_of_mem_drop hc)
    exact hwhole.append (hpoint.append hplaces)
  · have hpoint : Plain ['0', '.'] := by decide
    exact hpoint.append ((hzeros _).append hdigits)

theorem plain_text (x : Binary64) : Plain x.text := by
  have hmagnitude : Plain (if x.isInfinite then "inf".toList
      else if x.isZero then ['0'] else x.shortest.positional) := by
    split
    · decide
    split
    · decide
    · exact plain_positional _
  unfold Binary64.text
  split
  · decide
  simp only
  split
  · have hminus : Plain ['-'] := by decide
    exact hminus.append hmagnitude
  · exact hmagnitude

theorem plain_floatLiteral (x : Binary64) : Plain (floatLiteral x) := by
  unfold floatLiteral
  split
  · decide
  split
  · split
    · decide
    · decide
  simp only
  split
  · exact plain_text x
  · exact (plain_text x).append (by decide)

/-! ## Values -/

theorem harmless_keyLiteral (key : Text) : Harmless (keyLiteral key) := by
  unfold keyLiteral
  split
  · rename_i h
    obtain ⟨i, -, hi⟩ := (Option.any_eq_true _ _).1 h
    simp only [Bool.and_eq_true, decide_eq_true_eq] at hi
    rw [← hi.2]
    exact .of_plain (plain_ofInt i)
  · exact harmless_quoted key

theorem harmless_brackets {ts : List Text} (h : ∀ t ∈ ts, Harmless t) :
    Harmless ('[' :: (Text.join [',', ' '] ts ++ [']'])) :=
  .cons (by decide) ((Harmless.join (.of_plain (by decide)) h).append (.of_plain (by decide)))

mutual

/-- The source text of a value is harmless, whatever the value holds. -/
theorem harmless_literal : (v : Value) → Harmless v.literal
  | .null => .of_plain (by simp only [literal]; decide)
  | .bool true => .of_plain (by simp only [literal]; decide)
  | .bool false => .of_plain (by simp only [literal]; decide)
  | .int i => by rw [literal]; exact .of_plain (plain_ofInt i.toInt)
  | .float x => by rw [literal]; exact .of_plain (plain_floatLiteral x)
  | .string s => by rw [literal]; exact harmless_quoted s
  | .list items => by rw [literal]; exact harmless_brackets (harmless_itemLiterals items)
  | .map entries => by rw [literal]; exact harmless_brackets (harmless_entryLiterals entries)

theorem harmless_itemLiterals : (items : List Value) → ∀ t ∈ itemLiterals items, Harmless t
  | [] => by simp [itemLiterals]
  | v :: vs => by
    rw [itemLiterals]
    intro t ht
    rcases List.mem_cons.1 ht with rfl | ht
    · exact harmless_literal v
    · exact harmless_itemLiterals vs t ht

theorem harmless_entryLiterals : (entries : List (Text × Value)) →
    ∀ t ∈ entryLiterals entries, Harmless t
  | [] => by simp [entryLiterals]
  | (k, v) :: rest => by
    rw [entryLiterals]
    intro t ht
    rcases List.mem_cons.1 ht with rfl | ht
    · exact ((harmless_keyLiteral k).append (.of_plain (by decide))).append (harmless_literal v)
    · exact harmless_entryLiterals rest t ht

end

end BuilderForge.Value
