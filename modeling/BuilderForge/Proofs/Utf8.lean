import BuilderForge.Text.Utf8
/-
  The bytes of a text are read back.

  Reading takes a character byte by byte. The first byte announces how many come
  and the range the next one lies in (`lead`), and each further byte adds six
  bits (`continue?`). For each number of bytes that a character can have these
  steps give the character again, so the bytes of a text are the text
  (`decode?_encode`). They are as many as `byteSize` counts (`length_encode`), and
  the bytes of ASCII stand for nothing else (`le_of_mem_encodeChar`).
-/

namespace BuilderForge.Text

theorem toNat_toUInt8 {n : Nat} (h : n < 256) : n.toUInt8.toNat = n := by
  rw [Nat.toUInt8, UInt8.toNat_ofNat']
  exact Nat.mod_eq_of_lt h

/-- A character is no surrogate, and not beyond the last one. -/
theorem toNat_range (c : Char) : c.toNat < 0xD800 ∨ 0xDFFF < c.toNat ∧ c.toNat < 0x110000 :=
  c.valid

/-! ## Bytes of characters and texts -/

theorem length_encodeChar (c : Char) : (encodeChar c).length = c.utf8Size := by
  have hsize : c.utf8Size = if c.toNat ≤ 0x7F then 1 else if c.toNat ≤ 0x7FF then 2
      else if c.toNat ≤ 0xFFFF then 3 else 4 := rfl
  rw [hsize]
  unfold encodeChar
  dsimp only
  split
  · rw [if_pos (by omega)]
    rfl
  split
  · rw [if_neg (by omega), if_pos (by omega)]
    rfl
  split
  · rw [if_neg (by omega), if_neg (by omega), if_pos (by omega)]
    rfl
  · rw [if_neg (by omega), if_neg (by omega), if_neg (by omega)]
    rfl

/-- A character outside ASCII has no byte of an ASCII character. -/
theorem le_of_mem_encodeChar {c : Char} (hc : 0x80 ≤ c.toNat) {b : UInt8} (hb : b ∈ encodeChar c) :
    0x80 ≤ b.toNat := by
  have hvalid := toNat_range c
  have hhigh {n : Nat} (h : 0x80 ≤ n) (h' : n < 256) : 0x80 ≤ n.toUInt8.toNat := by
    rwa [toNat_toUInt8 h']
  unfold encodeChar at hb
  dsimp only at hb
  rw [if_neg (by omega)] at hb
  split at hb
  · simp only [List.mem_cons, List.not_mem_nil, or_false] at hb
    rcases hb with rfl | rfl <;> exact hhigh (by omega) (by omega)
  split at hb
  · simp only [List.mem_cons, List.not_mem_nil, or_false] at hb
    rcases hb with rfl | rfl | rfl <;> exact hhigh (by omega) (by omega)
  · simp only [List.mem_cons, List.not_mem_nil, or_false] at hb
    rcases hb with rfl | rfl | rfl | rfl <;> exact hhigh (by omega) (by omega)

theorem encode_cons (c : Char) (t : Text) : encode (c :: t) = encodeChar c ++ encode t :=
  List.flatMap_cons

theorem length_encode (t : Text) : (encode t).length = byteSize t := by
  induction t with
  | nil => rfl
  | cons c t ih => rw [encode_cons, List.length_append, length_encodeChar, ih, byteSize]

/-! ## Steps of a reader -/

theorem decodeFrom_complete {b : Nat} (hb : b < 0x80) (bs : List UInt8) :
    decodeFrom none (b.toUInt8 :: bs) = Char.ofNat b :: decodeFrom none bs := by
  rw [decodeFrom, toNat_toUInt8 (by omega), lead, if_pos hb]

theorem decodeFrom_more {b : Nat} (hb : b < 256) {p : Partial} (h : lead b = .more p)
    (bs : List UInt8) : decodeFrom none (b.toUInt8 :: bs) = decodeFrom (some p) bs := by
  rw [decodeFrom, toNat_toUInt8 hb, h]

/-- A byte that is not the last one of its character. -/
theorem decodeFrom_next {p : Partial} {k : Nat} (hk : k < 0x40) (howed : 1 < p.owed)
    (hlow : p.low ≤ 0x80 + k) (hhigh : 0x80 + k ≤ p.high) (bs : List UInt8) :
    decodeFrom (some p) ((0x80 + k).toUInt8 :: bs) =
      decodeFrom (some ⟨p.value * 0x40 + k, p.owed - 1, 0x80, 0xBF⟩) bs := by
  rw [decodeFrom, toNat_toUInt8 (by omega), Partial.continue?, if_pos ⟨hlow, hhigh⟩]
  dsimp only
  rw [if_neg (by omega), Nat.add_sub_cancel_left]

/-- The last byte of a character. -/
theorem decodeFrom_last {p : Partial} {k : Nat} (hk : k < 0x40) (howed : p.owed = 1)
    (hlow : p.low ≤ 0x80 + k) (hhigh : 0x80 + k ≤ p.high) (bs : List UInt8) :
    decodeFrom (some p) ((0x80 + k).toUInt8 :: bs) =
      Char.ofNat (p.value * 0x40 + k) :: decodeFrom none bs := by
  rw [decodeFrom, toNat_toUInt8 (by omega), Partial.continue?, if_pos ⟨hlow, hhigh⟩]
  dsimp only
  rw [if_pos (by omega), Nat.add_sub_cancel_left]

/-! ## Characters -/

theorem lead_two {n : Nat} (h : 0x80 ≤ n) (h' : n < 0x800) :
    lead (0xC0 + n / 0x40) = .more ⟨n / 0x40, 1, 0x80, 0xBF⟩ := by
  rw [lead, if_neg (by omega), if_pos (by omega), Nat.add_sub_cancel_left]

/-- The first byte of three leaves out overlong forms and surrogates. -/
theorem lead_three {n : Nat} (h : 0x800 ≤ n) (h' : n < 0x10000) (hvalid : n < 0xD800 ∨ 0xDFFF < n) :
    ∃ low high, lead (0xE0 + n / 0x1000) = .more ⟨n / 0x1000, 2, low, high⟩ ∧
      low ≤ 0x80 + n / 0x40 % 0x40 ∧ 0x80 + n / 0x40 % 0x40 ≤ high := by
  unfold lead
  rw [if_neg (by omega), if_neg (by omega)]
  by_cases hfirst : n / 0x1000 = 0
  · exact ⟨0xA0, 0xBF, by rw [hfirst, if_pos rfl], by omega, by omega⟩
  rw [if_neg (by omega)]
  by_cases hsurrogate : n / 0x1000 = 0xD
  · exact ⟨0x80, 0x9F, by rw [hsurrogate, if_pos rfl], by omega, by omega⟩
  rw [if_neg (by omega), if_pos (by omega), Nat.add_sub_cancel_left]
  exact ⟨0x80, 0xBF, rfl, by omega, by omega⟩

/-- The first byte of four leaves out overlong forms and what is beyond the last
character. -/
theorem lead_four {n : Nat} (h : 0x10000 ≤ n) (h' : n < 0x110000) :
    ∃ low high, lead (0xF0 + n / 0x40000) = .more ⟨n / 0x40000, 3, low, high⟩ ∧
      low ≤ 0x80 + n / 0x1000 % 0x40 ∧ 0x80 + n / 0x1000 % 0x40 ≤ high := by
  unfold lead
  rw [if_neg (by omega), if_neg (by omega), if_neg (by omega), if_neg (by omega),
    if_neg (by omega)]
  by_cases hfirst : n / 0x40000 = 0
  · exact ⟨0x90, 0xBF, by rw [hfirst, if_pos rfl], by omega, by omega⟩
  rw [if_neg (by omega)]
  by_cases hlast : n / 0x40000 = 4
  · exact ⟨0x80, 0x8F, by rw [hlast]; rfl, by omega, by omega⟩
  rw [if_pos (by omega), Nat.add_sub_cancel_left]
  exact ⟨0x80, 0xBF, rfl, by omega, by omega⟩

/-- The bytes of a character are read as the character. -/
theorem decodeFrom_encodeChar (c : Char) (bs : List UInt8) :
    decodeFrom none (encodeChar c ++ bs) = c :: decodeFrom none bs := by
  have hvalid := toNat_range c
  unfold encodeChar
  dsimp only
  split
  · rename_i h
    rw [List.cons_append, List.nil_append, decodeFrom_complete h, Char.ofNat_toNat]
  split
  · rename_i h h'
    rw [List.cons_append, List.cons_append, List.nil_append,
      decodeFrom_more (by omega) (lead_two (by omega) h'),
      decodeFrom_last (by omega) rfl (by dsimp only; omega) (by dsimp only; omega)]
    dsimp only
    rw [show c.toNat / 0x40 * 0x40 + c.toNat % 0x40 = c.toNat by omega, Char.ofNat_toNat]
  split
  · rename_i h h'
    obtain ⟨low, high, hlead, hlow, hhigh⟩ := lead_three (n := c.toNat) (by omega) h' (by omega)
    rw [List.cons_append, List.cons_append, List.cons_append, List.nil_append,
      decodeFrom_more (by omega) hlead, decodeFrom_next (by omega) (by dsimp only; omega) hlow hhigh,
      decodeFrom_last (by omega) rfl (by dsimp only; omega) (by dsimp only; omega)]
    dsimp only
    rw [show (c.toNat / 0x1000 * 0x40 + c.toNat / 0x40 % 0x40) * 0x40 + c.toNat % 0x40 = c.toNat by
      omega, Char.ofNat_toNat]
  · rename_i h h' h''
    obtain ⟨low, high, hlead, hlow, hhigh⟩ := lead_four (n := c.toNat) (by omega) (by omega)
    rw [List.cons_append, List.cons_append, List.cons_append, List.cons_append, List.nil_append,
      decodeFrom_more (by omega) hlead, decodeFrom_next (by omega) (by dsimp only; omega) hlow hhigh,
      decodeFrom_next (by omega) (by dsimp only; omega) (by dsimp only; omega) (by dsimp only; omega),
      decodeFrom_last (by omega) rfl (by dsimp only; omega) (by dsimp only; omega)]
    dsimp only
    rw [show ((c.toNat / 0x40000 * 0x40 + c.toNat / 0x1000 % 0x40) * 0x40 +
      c.toNat / 0x40 % 0x40) * 0x40 + c.toNat % 0x40 = c.toNat by omega, Char.ofNat_toNat]

/-! ## Texts -/

theorem decodeLossy_encode (t : Text) : decodeLossy (encode t) = t := by
  induction t with
  | nil => rfl
  | cons c t ih =>
    rw [decodeLossy, encode_cons, decodeFrom_encodeChar]
    exact congrArg (c :: ·) ih

/-- The bytes of a text are those of no other text. -/
theorem decode?_encode (t : Text) : decode? (encode t) = some t := by
  rw [decode?, decodeLossy_encode]
  exact if_pos rfl

end BuilderForge.Text
