import BuilderForge.Document.Json.Tree
import BuilderForge.Proofs.Texts
/-
  JSON as it is written.

  `Piece` is a piece of JSON with its numbers as literals, its strings as the
  texts they stand for, and its members in the order of the text. `Writes` is the
  grammar: which texts are such a piece, with any spaces between the tokens. The
  grammar says nothing about bytes that were read or about what is reported; the
  lemmas here say that the functions that read numbers and strings pass over
  exactly what the grammar calls a number or a string, whatever follows
  (`parts_text`, `quoted_body`).
-/

namespace BuilderForge.Document.Json

/-! ## Numbers -/

/-- The exponent of a number: its letter, its sign, its digits. -/
structure Power where
  mark : Char
  sign : Option Char
  digits : Text

/-- A number as it is written. -/
structure Number where
  negative : Bool
  whole : Text
  fraction : Option Text
  power : Option Power

/-- Whether a text is one or more digits. -/
structure IsDigits (t : Text) : Prop where
  ne_nil : t ≠ []
  all : ∀ c ∈ t, c.isDigit

/-- Whether an exponent is in order. -/
structure Power.IsProper (p : Power) : Prop where
  mark : p.mark = 'e' ∨ p.mark = 'E'
  sign : p.sign = none ∨ p.sign = some '+' ∨ p.sign = some '-'
  digits : IsDigits p.digits

/-- The text of an exponent. -/
def Power.text (p : Power) : Text := p.mark :: (p.sign.toList ++ p.digits)

namespace Number

/-- Whether the parts of a number are in order: no zero stands before another digit. -/
structure IsProper (n : Number) : Prop where
  whole : IsDigits n.whole
  zero : n.whole.head? = some '0' → n.whole = ['0']
  fraction : ∀ ds, n.fraction = some ds → IsDigits ds
  power : ∀ p, n.power = some p → p.IsProper

/-- The text of a number after its fraction. -/
def powerText (n : Number) : Text := (n.power.map Power.text).getD []

/-- The text of a number after its whole digits. -/
def fractionText (n : Number) : Text := (n.fraction.map ('.' :: ·)).getD []

/-- The text of a number. -/
def text (n : Number) : Text :=
  (if n.negative then ['-'] else []) ++ (n.whole ++ (n.fractionText ++ n.powerText))

/-- The parts of a number, with the place where its exponent begins. -/
def parts (n : Number) (place : Nat) : Parts :=
  ⟨n.negative, n.whole, n.fraction, n.power.map fun p => (p.sign = some '-', p.digits, place)⟩

/-- The value of a number, if it is not too large. -/
def scalar? (n : Number) : Option Scalar := ((n.parts 0).scalar 0).toOption

end Number

/-- Whether a text begins with no character of a kind. -/
def Avoids (p : Char → Bool) (t : Text) : Prop := ∀ c, t.head? = some c → p c = false

/-- Whether a character can carry on the digits of a fraction, or begin them. -/
def isFractionChar (c : Char) : Bool := c.isDigit || c = '.'

/-- Whether a character can carry a number on. -/
def isNumberChar (c : Char) : Bool := isFractionChar c || c = 'e' || c = 'E'

theorem Avoids.mono {p q : Char → Bool} {t : Text} (h : Avoids q t)
    (hpq : ∀ c, p c = true → q c = true) : Avoids p t := by
  intro c hc
  rw [← Bool.not_eq_true]
  intro hp
  have hq := hpq c hp
  rw [h c hc] at hq
  cases hq

section Numbers

variable {ds rest : Text}

theorem digits_append (hds : IsDigits ds) (hrest : Avoids Char.isDigit rest) (read : Nat) :
    digits read (ds ++ rest) = .ok ⟨ds, read + ds.length, rest⟩ := by
  have hrun : Text.IsRun Char.isDigit ds rest := ⟨hds.all, hrest⟩
  rw [digits, hrun.takeWhile_eq, hrun.dropWhile_eq]
  exact if_pos hds.ne_nil

theorem wholeDigits_append (hds : IsDigits ds) (hzero : ds.head? = some '0' → ds = ['0'])
    (hrest : Avoids Char.isDigit rest) (read : Nat) :
    wholeDigits read (ds ++ rest) = .ok ⟨ds, read + ds.length, rest⟩ := by
  unfold wholeDigits
  split
  · rename_i c r heq
    obtain rfl : ds = ['0'] := by
      obtain ⟨d, ds, rfl⟩ := List.exists_cons_of_ne_nil hds.ne_nil
      rw [List.cons_append, List.cons.injEq] at heq
      exact hzero (by rw [heq.1]; rfl)
    obtain rfl : rest = c :: r := by simpa using heq
    rw [hrest c rfl]
    rfl
  · exact digits_append hds hrest read

theorem fraction_append {o : Option Text} (ho : ∀ ds, o = some ds → IsDigits ds)
    (hrest : Avoids isFractionChar rest) (read : Nat) :
    ∃ read', fraction read ((o.map ('.' :: ·)).getD [] ++ rest) = .ok ⟨o, read', rest⟩ := by
  cases o with
  | none =>
    refine ⟨read, ?_⟩
    show fraction read rest = _
    unfold fraction
    split
    · exact absurd (hrest '.' rfl) (by decide)
    · rfl
  | some ds =>
    refine ⟨read + 1 + ds.length, ?_⟩
    have hdigits : Avoids Char.isDigit rest := hrest.mono fun c hc => by rw [isFractionChar, hc]; rfl
    show (digits (read + 1) (ds ++ rest)).map _ = _
    rw [digits_append (ho ds rfl) hdigits]
    rfl

theorem sign_append {o : Option Char} (ho : o = none ∨ o = some '+' ∨ o = some '-')
    (hds : IsDigits ds) (rest : Text) (read : Nat) :
    ∃ read', sign read (o.toList ++ (ds ++ rest)) = ⟨o = some '-', read', ds ++ rest⟩ := by
  rcases ho with rfl | rfl | rfl
  · obtain ⟨d, ds, rfl⟩ := List.exists_cons_of_ne_nil hds.ne_nil
    have hd := hds.all d List.mem_cons_self
    refine ⟨read, ?_⟩
    show sign read (d :: (ds ++ rest)) = _
    unfold sign
    split
    · rename_i heq
      cases heq
      cases hd
    · rename_i heq
      cases heq
      cases hd
    · rfl
  · exact ⟨read + 1, rfl⟩
  · exact ⟨read + 1, rfl⟩

theorem exponent_append {o : Option Power} (ho : ∀ p, o = some p → p.IsProper)
    (hrest : Avoids isNumberChar rest) (read : Nat) :
    ∃ place read', exponent read ((o.map Power.text).getD [] ++ rest) =
      .ok ⟨o.map fun p => (p.sign = some '-', p.digits, place), read', rest⟩ := by
  cases o with
  | none =>
    refine ⟨0, read, ?_⟩
    show exponent read rest = _
    cases rest with
    | nil => rfl
    | cons c rest =>
      have hc := hrest c rfl
      rw [exponent, if_neg]
      · rfl
      · rintro (rfl | rfl)
        · cases hc
        · cases hc
  | some p =>
    obtain ⟨hmark, hsign, hds⟩ := ho p rfl
    have hdigits : Avoids Char.isDigit rest :=
      hrest.mono fun c hc => by rw [isNumberChar, isFractionChar, hc]; rfl
    obtain ⟨place, hplace⟩ := sign_append hsign hds rest (read + 1)
    refine ⟨place, place + p.digits.length, ?_⟩
    have htext : (some p).map Power.text = some (p.mark :: (p.sign.toList ++ p.digits)) := rfl
    rw [htext, Option.getD_some, List.cons_append, List.append_assoc, exponent, if_pos hmark]
    simp only [hplace]
    rw [digits_append hds hdigits]
    rfl

/-- The parts of a number after its sign. -/
def unsigned (negative : Bool) (read : Nat) (t : Text) : Except Flaw (Found Parts) := do
  let whole ← wholeDigits read t
  let places ← fraction whole.read whole.rest
  let power ← exponent places.read places.rest
  return ⟨⟨negative, whole.value, places.value, power.value⟩, power.read, power.rest⟩

theorem parts_minus (read : Nat) (t : Text) : parts read ('-' :: t) = unsigned true (read + 1) t := rfl

theorem parts_of_ne {c : Char} (hc : c ≠ '-') (read : Nat) (t : Text) :
    parts read (c :: t) = unsigned false read (c :: t) := by
  unfold parts
  split
  rename_i heq
  split at heq
  · rename_i hminus
    cases hminus
    exact absurd rfl hc
  · cases heq
    rfl

theorem unsigned_append {n : Number} (hn : n.IsProper) (hrest : Avoids isNumberChar rest)
    (negative : Bool) (read : Nat) :
    ∃ place read', unsigned negative read (n.whole ++ (n.fractionText ++ (n.powerText ++ rest))) =
      .ok ⟨{ n.parts place with negative := negative }, read', rest⟩ := by
  have hpower : Avoids isFractionChar (n.powerText ++ rest) := by
    rw [Number.powerText]
    cases hpower : n.power with
    | none => exact hrest.mono fun c hc => by rw [isNumberChar, hc]; rfl
    | some p =>
      rintro c hc
      obtain rfl : p.mark = c := Option.some.inj hc
      rcases (hn.power p hpower).mark with h | h
      · rw [h]
        rfl
      · rw [h]
        rfl
  have hplaces : Avoids Char.isDigit (n.fractionText ++ (n.powerText ++ rest)) := by
    rw [Number.fractionText]
    cases n.fraction with
    | none => exact hpower.mono fun c hc => by rw [isFractionChar, hc]; rfl
    | some ds =>
      rintro c hc
      obtain rfl : '.' = c := Option.some.inj hc
      rfl
  obtain ⟨readPlaces, hfraction⟩ := fraction_append hn.fraction hpower (read + n.whole.length)
  obtain ⟨place, read', hexponent⟩ := exponent_append hn.power hrest readPlaces
  refine ⟨place, read', ?_⟩
  rw [unsigned, wholeDigits_append hn.whole hn.zero hplaces]
  show (do let places ← fraction (read + n.whole.length) (n.fractionText ++
      (n.powerText ++ rest)); _) = _
  rw [Number.fractionText, hfraction]
  show (do let power ← exponent readPlaces (n.powerText ++ rest); _) = _
  rw [Number.powerText, hexponent]
  rfl

/-- The parts of a number are read off its text, whatever follows it. -/
theorem parts_text {n : Number} (hn : n.IsProper) (hrest : Avoids isNumberChar rest) (read : Nat) :
    ∃ place read', parts read (n.text ++ rest) = .ok ⟨n.parts place, read', rest⟩ := by
  rw [Number.text, List.append_assoc, List.append_assoc, List.append_assoc]
  cases hsign : n.negative with
  | true =>
    obtain ⟨place, read', h⟩ := unsigned_append hn hrest true (read + 1)
    refine ⟨place, read', ?_⟩
    rw [if_pos rfl, List.singleton_append, parts_minus, h, ← hsign]
    rfl
  | false =>
    obtain ⟨place, read', h⟩ := unsigned_append hn hrest false read
    refine ⟨place, read', ?_⟩
    rw [if_neg Bool.false_ne_true, List.nil_append]
    -- the first digit is no minus sign
    obtain ⟨c, ds, hwhole⟩ := List.exists_cons_of_ne_nil hn.whole.ne_nil
    have hc : c ≠ '-' := by
      rintro rfl
      have := hn.whole.all '-' (by rw [hwhole]; exact List.mem_cons_self)
      cases this
    rw [hwhole, List.cons_append] at h ⊢
    rw [parts_of_ne hc, h, ← hsign]
    rfl

/-- Where a number stands makes no difference to its value. -/
theorem toOption_float (n : Number) (place read : Nat) :
    ((n.parts place).float read).toOption = ((n.parts 0).float 0).toOption := by
  unfold Parts.float Number.parts
  cases n.power with
  | none =>
    simp only [Option.map_none]
    generalize scale? _ _ = x
    cases x <;> rfl
  | some p =>
    simp only [Option.map_some]
    split
    · generalize scale? _ _ = x
      cases x <;> rfl
    · split <;> rfl

theorem toOption_scalar (n : Number) (place read : Nat) :
    ((n.parts place).scalar read).toOption = n.scalar? := by
  have hmap (e : Except Fault Binary64) : (e.map Scalar.float).toOption = e.toOption.map .float := by
    cases e <;> rfl
  have hexponent (place : Nat) : (n.parts place).exponent.isNone = n.power.isNone := Option.isNone_map
  rw [Number.scalar?, Parts.scalar, Parts.scalar, hexponent, hexponent]
  simp only [apply_ite Except.toOption, hmap, toOption_float n place read]
  rfl

end Numbers

/-! ## Strings -/

/-- Whether a stretch of a string stands for a text. -/
inductive Spells : Text → Text → Prop where
  | nil : Spells [] []
  | plain {c : Char} {body t : Text} (hquote : c ≠ '"') (hslash : c ≠ '\\')
      (hcontrol : 0x20 ≤ c.toNat) (h : Spells body t) : Spells (c :: body) (c :: t)
  | short {e c : Char} {body t : Text} (hescape : shortEscape? e = some c) (h : Spells body t) :
      Spells ('\\' :: e :: body) (c :: t)
  | code {a b c d : Char} {body t : Text} (hhex : isHex [a, b, c, d])
      (hleading : isLeading (Numeral.value 16 [a, b, c, d]) = false)
      (htrailing : isTrailing (Numeral.value 16 [a, b, c, d]) = false) (h : Spells body t) :
      Spells ('\\' :: 'u' :: a :: b :: c :: d :: body)
        (Char.ofNat (Numeral.value 16 [a, b, c, d]) :: t)
  | pair {a b c d a' b' c' d' : Char} {body t : Text} (hhex : isHex [a, b, c, d])
      (hleading : isLeading (Numeral.value 16 [a, b, c, d])) (hhex' : isHex [a', b', c', d'])
      (htrailing : isTrailing (Numeral.value 16 [a', b', c', d'])) (h : Spells body t) :
      Spells ('\\' :: 'u' :: a :: b :: c :: d :: '\\' :: 'u' :: a' :: b' :: c' :: d' :: body)
        (combine (Numeral.value 16 [a, b, c, d]) (Numeral.value 16 [a', b', c', d']) :: t)

/-- Whether a stretch of a string is in order, the two halves of a surrogate pair
apart. -/
inductive IsBody : Text → Prop where
  | nil : IsBody []
  | plain {c : Char} {body : Text} (hquote : c ≠ '"') (hslash : c ≠ '\\')
      (hcontrol : 0x20 ≤ c.toNat) (h : IsBody body) : IsBody (c :: body)
  | short {e c : Char} {body : Text} (hescape : shortEscape? e = some c) (h : IsBody body) :
      IsBody ('\\' :: e :: body)
  | code {a b c d : Char} {body : Text} (hhex : isHex [a, b, c, d]) (h : IsBody body) :
      IsBody ('\\' :: 'u' :: a :: b :: c :: d :: body)

/-- Whether what stands between the quotes of a string gives it a value; a string
in which half a surrogate pair stands alone has none. -/
def IsQuoted (body : Text) (value : Option Text) : Prop :=
  IsBody body ∧ ∀ t, value = some t ↔ Spells body t

section Strings

variable {body t rest : Text}

theorem readQuoted_plain {c : Char} (hquote : c ≠ '"') (hslash : c ≠ '\\')
    (hcontrol : 0x20 ≤ c.toNat) (read : Nat) (t : Text) :
    readQuoted none read (c :: t) = (readQuoted none (read + c.utf8Size) t).map (Found.push c) := by
  rw [readQuoted]
  · rw [if_neg (by decide), if_neg hquote, if_neg (Nat.not_lt.2 hcontrol)]
  all_goals
    intros
    exact absurd ‹_› hslash

theorem readQuoted_short {e c : Char} (hescape : shortEscape? e = some c) (read : Nat) (t : Text) :
    readQuoted none read ('\\' :: e :: t) = (readQuoted none (read + 2) t).map (Found.push c) := by
  rw [readQuoted]
  · rintro rfl
    cases hescape
  · exact hescape

/-- A stretch with a value is read up to the quote after it. -/
theorem readQuoted_spells (h : Spells body t) (rest : Text) (read : Nat) :
    ∃ read', readQuoted none read (body ++ '"' :: rest) = .ok ⟨t, read', rest⟩ := by
  induction h generalizing read with
  | nil => exact ⟨read + 1, rfl⟩
  | @plain c body t hquote hslash hcontrol h ih =>
    obtain ⟨read', h⟩ := ih (read + c.utf8Size)
    refine ⟨read', ?_⟩
    rw [List.cons_append, readQuoted_plain hquote hslash hcontrol, h]
    rfl
  | short hescape h ih =>
    obtain ⟨read', h⟩ := ih (read + 2)
    refine ⟨read', ?_⟩
    rw [List.cons_append, List.cons_append, readQuoted_short hescape, h]
    rfl
  | @code a b c d body t hhex hleading htrailing h ih =>
    obtain ⟨read', h⟩ := ih (read + 6)
    refine ⟨read', ?_⟩
    simp only [List.cons_append, readQuoted, if_pos hhex, hleading, htrailing, h]
    rfl
  | @pair a b c d a' b' c' d' body t hhex hleading hhex' htrailing h ih =>
    obtain ⟨read', h⟩ := ih (read + 6 + 6)
    refine ⟨read', ?_⟩
    simp only [List.cons_append, readQuoted, if_pos hhex, if_pos hleading, if_pos hhex',
      if_pos htrailing, h]
    rfl

/-- Behind the first half of a surrogate pair nothing but the second half is read. -/
theorem readQuoted_leading (h : IsBody body) {first read : Nat} {found : Found Text}
    (hread : readQuoted (some first) read (body ++ '"' :: rest) = .ok found) :
    ∃ a b c d body', body = '\\' :: 'u' :: a :: b :: c :: d :: body' ∧ isHex [a, b, c, d] ∧
      isTrailing (Numeral.value 16 [a, b, c, d]) ∧ IsBody body' ∧
      ∃ found', readQuoted none (read + 6) (body' ++ '"' :: rest) = .ok found' := by
  cases h with
  | nil => simp [readQuoted] at hread
  | plain hquote hslash hcontrol h =>
    rw [List.cons_append, readQuoted, if_pos Option.isSome_some] at hread
    · cases hread
    all_goals
      intros
      exact absurd ‹_› hslash
  | short hescape h =>
    rw [List.cons_append, List.cons_append, readQuoted] at hread
    · cases hread
    · rintro rfl
      cases hescape
    · rintro c' ⟨⟩
  | @code a b c d body hhex h =>
    simp only [List.cons_append, readQuoted, if_pos hhex] at hread
    split at hread
    · rename_i htrailing
      refine ⟨a, b, c, d, body, rfl, hhex, htrailing, h, ?_⟩
      cases hbody : readQuoted none (read + 6) (body ++ '"' :: rest) with
      | ok found' => exact ⟨found', rfl⟩
      | error f =>
        rw [hbody] at hread
        cases hread
    · cases hread

/-- A stretch that is read has a value. -/
theorem exists_spells : ∀ {body : Text}, IsBody body → ∀ {read : Nat} {found : Found Text},
    readQuoted none read (body ++ '"' :: rest) = .ok found → ∃ t, Spells body t := by
  have hmap {e : Except Fault (Found Text)} {c : Char} {found : Found Text}
      (h : e.map (Found.push c) = .ok found) : ∃ found', e = .ok found' := by
    cases e with
    | ok found' => exact ⟨found', rfl⟩
    | error f => cases h
  intro body
  induction hlength : body.length using Nat.strongRecOn generalizing body with
  | ind n ih =>
    subst hlength
    intro h read found hread
    cases h with
    | nil => exact ⟨_, .nil⟩
    | @plain c body hquote hslash hcontrol h =>
      rw [List.cons_append, readQuoted_plain hquote hslash hcontrol] at hread
      obtain ⟨found', hread⟩ := hmap hread
      obtain ⟨t, ht⟩ := ih _ (Nat.lt_succ_self _) rfl h hread
      exact ⟨_, .plain hquote hslash hcontrol ht⟩
    | @short e c body hescape h =>
      rw [List.cons_append, List.cons_append, readQuoted_short hescape] at hread
      obtain ⟨found', hread⟩ := hmap hread
      obtain ⟨t, ht⟩ := ih _ (Nat.lt_succ_of_lt (Nat.lt_succ_self _)) rfl h hread
      exact ⟨_, .short hescape ht⟩
    | @code a b c d body hhex h =>
      simp only [List.cons_append, readQuoted, if_pos hhex] at hread
      split at hread
      · rename_i hleading
        obtain ⟨a', b', c', d', body', rfl, hhex', htrailing, h', found', hread⟩ :=
          readQuoted_leading h hread
        obtain ⟨t, ht⟩ := ih _ (by simp only [List.length_cons]; omega) rfl h' hread
        exact ⟨_, .pair hhex hleading hhex' htrailing ht⟩
      · split at hread
        · cases hread
        · rename_i hleading htrailing
          obtain ⟨found', hread⟩ := hmap hread
          obtain ⟨t, ht⟩ := ih _ (by simp only [List.length_cons]; omega) rfl h hread
          exact ⟨_, .code hhex (Bool.not_eq_true _ ▸ hleading) (Bool.not_eq_true _ ▸ htrailing) ht⟩

/-- A stretch in order is skipped up to the quote after it. -/
theorem skipQuoted_body {body : Text} (h : IsBody body) (rest : Text) (read : Nat) :
    ∃ read', skipQuoted read (body ++ '"' :: rest) = .ok ⟨(), read', rest⟩ := by
  induction h generalizing read with
  | nil => exact ⟨read + 1, rfl⟩
  | @plain c body hquote hslash hcontrol h ih =>
    obtain ⟨read', h⟩ := ih (read + c.utf8Size)
    refine ⟨read', ?_⟩
    rw [List.cons_append, skipQuoted, if_neg hquote, if_neg (Nat.not_lt.2 hcontrol), h]
    all_goals
      intros
      exact absurd ‹_› hslash
  | @short e c body hescape h ih =>
    obtain ⟨read', h⟩ := ih (read + 2)
    refine ⟨read', ?_⟩
    rw [List.cons_append, List.cons_append, skipQuoted, if_pos (by rw [hescape]; rfl), h]
    rintro rfl
    cases hescape
  | @code a b c d body hhex h ih =>
    obtain ⟨read', h⟩ := ih (read + 6)
    refine ⟨read', ?_⟩
    simp only [List.cons_append, skipQuoted, if_pos hhex, h]

/-- A string is passed, and its value is found if it has one. -/
theorem quoted_body {value : Option Text} (h : IsQuoted body value) (rest : Text) (read : Nat) :
    ∃ v read', quoted read (body ++ '"' :: rest) = .ok ⟨v, read', rest⟩ ∧ v.toOption = value := by
  obtain ⟨hbody, hvalue⟩ := h
  obtain ⟨skipped, hskip⟩ := skipQuoted_body hbody rest read
  rw [quoted, hskip]
  cases value with
  | some t =>
    obtain ⟨read', hread⟩ := readQuoted_spells ((hvalue t).1 rfl) rest read
    rw [hread]
    exact ⟨.ok t, read', rfl, rfl⟩
  | none =>
    cases hread : readQuoted none read (body ++ '"' :: rest) with
    | ok found =>
      obtain ⟨t, ht⟩ := exists_spells hbody hread
      cases (hvalue t).2 ht
    | error f => exact ⟨.error f, skipped, rfl, rfl⟩

theorem Spells.isBody {body t : Text} (h : Spells body t) : IsBody body := by
  induction h with
  | nil => exact .nil
  | plain hquote hslash hcontrol h ih => exact .plain hquote hslash hcontrol ih
  | short hescape h ih => exact .short hescape ih
  | code hhex hleading htrailing h ih => exact .code hhex ih
  | pair hhex hleading hhex' htrailing h ih => exact .code hhex (.code hhex' ih)

theorem Spells.eq {body t t' : Text} (h : Spells body t) (h' : Spells body t') : t = t' := by
  obtain ⟨read, hread⟩ := readQuoted_spells h [] 0
  obtain ⟨read', hread'⟩ := readQuoted_spells h' [] 0
  rw [hread] at hread'
  cases hread'
  rfl

end Strings

/-! ## Pieces -/

/-- A piece of JSON as it is written. A string without a value is one that can
only be skipped. -/
inductive Piece where
  | null
  | bool (b : Bool)
  | number (n : Number)
  | string (value : Option Text)
  | list (items : List Piece)
  | table (members : List (Option Text × Piece))

/-- Whether a text is nothing but space between tokens. -/
def IsGap (t : Text) : Prop := ∀ c ∈ t, isSpace c

/-- The text of a truth value. -/
def boolText (b : Bool) : Text := if b then "true".toList else "false".toList

mutual

/-- Whether a text is a piece of JSON. -/
inductive Writes : Piece → Text → Prop where
  | null : Writes .null "null".toList
  | bool (b : Bool) : Writes (.bool b) (boolText b)
  | number {n : Number} (hn : n.IsProper) : Writes (.number n) n.text
  | string {value : Option Text} {body : Text} (hbody : IsQuoted body value) :
      Writes (.string value) ('"' :: (body ++ ['"']))
  | noItems {gap : Text} (hgap : IsGap gap) : Writes (.list []) ('[' :: (gap ++ [']']))
  | list {items : List Piece} {inside : Text} (hitems : WritesItems items inside) :
      Writes (.list items) ('[' :: (inside ++ [']']))
  | noMembers {gap : Text} (hgap : IsGap gap) : Writes (.table []) ('\x7b' :: (gap ++ ['\x7d']))
  | table {members : List (Option Text × Piece)} {inside : Text}
      (hmembers : WritesMembers members inside) :
      Writes (.table members) ('\x7b' :: (inside ++ ['\x7d']))

/-- Whether a text is the items of a list, with commas between them. -/
inductive WritesItems : List Piece → Text → Prop where
  | last {item : Piece} {before text after : Text} (hbefore : IsGap before) (hafter : IsGap after)
      (hitem : Writes item text) : WritesItems [item] (before ++ (text ++ after))
  | more {item : Piece} {items : List Piece} {before text after inside : Text}
      (hbefore : IsGap before) (hafter : IsGap after) (hitem : Writes item text)
      (hitems : WritesItems items inside) :
      WritesItems (item :: items) (before ++ (text ++ (after ++ ',' :: inside)))

/-- Whether a text is the members of a table, with commas between them. -/
inductive WritesMembers : List (Option Text × Piece) → Text → Prop where
  | last {key : Option Text} {value : Piece} {before name between start text after : Text}
      (hbefore : IsGap before) (hname : IsQuoted name key) (hbetween : IsGap between)
      (hstart : IsGap start) (hvalue : Writes value text) (hafter : IsGap after) :
      WritesMembers [(key, value)]
        (before ++ '"' :: (name ++ '"' :: (between ++ ':' :: (start ++ (text ++ after)))))
  | more {key : Option Text} {value : Piece} {members : List (Option Text × Piece)}
      {before name between start text after inside : Text}
      (hbefore : IsGap before) (hname : IsQuoted name key) (hbetween : IsGap between)
      (hstart : IsGap start) (hvalue : Writes value text) (hafter : IsGap after)
      (hmembers : WritesMembers members inside) :
      WritesMembers ((key, value) :: members)
        (before ++ '"' :: (name ++ '"' :: (between ++ ':' ::
          (start ++ (text ++ (after ++ ',' :: inside))))))

end

/-- Whether a text is a piece of JSON with space around it. -/
def IsSource (p : Piece) (source : Text) : Prop :=
  ∃ before text after, IsGap before ∧ Writes p text ∧ IsGap after ∧ source = before ++ (text ++ after)

/-! ## Texts without space -/

theorem isGap_nil : IsGap [] := by rintro c ⟨⟩

theorem Writes.single {p : Piece} {t : Text} (h : Writes p t) : WritesItems [p] t := by
  have hitems := WritesItems.last isGap_nil isGap_nil h
  rwa [List.append_nil] at hitems

theorem Writes.comma {p : Piece} {pieces : List Piece} {t inside : Text} (h : Writes p t)
    (hmore : WritesItems pieces inside) : WritesItems (p :: pieces) (t ++ ',' :: inside) :=
  .more isGap_nil isGap_nil h hmore

/-- The text of a key and of its value. -/
def memberText (name t : Text) : Text := '"' :: (name ++ '"' :: ':' :: t)

theorem Writes.member {p : Piece} {key : Option Text} {name t : Text} (h : Writes p t)
    (hname : IsQuoted name key) : WritesMembers [(key, p)] (memberText name t) := by
  have hmembers := WritesMembers.last isGap_nil hname isGap_nil isGap_nil h isGap_nil
  rwa [List.append_nil] at hmembers

theorem Writes.memberComma {p : Piece} {key : Option Text} {name t inside : Text}
    {pieces : List (Option Text × Piece)} (h : Writes p t) (hname : IsQuoted name key)
    (hmore : WritesMembers pieces inside) :
    WritesMembers ((key, p) :: pieces) (memberText name t ++ ',' :: inside) := by
  have hmembers := WritesMembers.more isGap_nil hname isGap_nil isGap_nil h isGap_nil hmore
  rw [memberText, List.cons_append, List.append_assoc]
  exact hmembers

/-- Whether a character stands for itself in a string. -/
def isPlain (c : Char) : Bool := c ≠ '"' && c ≠ '\\' && 0x20 ≤ c.toNat

/-- A string of plain characters spells itself. -/
theorem isQuoted_of_isPlain {t : Text} (h : t.all isPlain) : IsQuoted t (some t) := by
  have hspells : Spells t t := by
    induction t with
    | nil => exact .nil
    | cons c t ih =>
      rw [List.all_cons, Bool.and_eq_true] at h
      obtain ⟨⟨hquote, hslash⟩, hcontrol⟩ : (c ≠ '"' ∧ c ≠ '\\') ∧ 0x20 ≤ c.toNat := by
        simpa [isPlain] using h.1
      exact .plain hquote hslash hcontrol (ih h.2)
  refine ⟨hspells.isBody, fun t' => ⟨?_, fun h' => congrArg some (hspells.eq h')⟩⟩
  rintro ⟨⟩
  exact hspells

theorem Writes.isSource {p : Piece} {t : Text} (h : Writes p t) : IsSource p t :=
  ⟨[], t, [], isGap_nil, h, isGap_nil, (List.append_nil t).symm⟩

end BuilderForge.Document.Json
