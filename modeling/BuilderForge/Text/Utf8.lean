import BuilderForge.Text.Basic
/-
  UTF-8: how many bytes a text takes, its bytes, and what a sequence of bytes
  says.

  Lengths and offsets that the library reports are counts of these bytes.
  `decode?` accepts well-formed sequences only. `decodeLossy` puts U+FFFD for
  each longest run of bytes that begins a character and is then cut short, and
  for each byte that begins none, so its answer is a text for any bytes.
-/

namespace BuilderForge.Text

/-- The number of bytes of a text. -/
def byteSize : Text → Nat
  | [] => 0
  | c :: t => c.utf8Size + byteSize t

/-- The text after its first `n` bytes. There is none if the text has fewer, or
if a character would be cut in two. -/
def dropBytes? : Nat → Text → Option Text
  | 0, t => some t
  | _ + 1, [] => none
  | n + 1, c :: t => if c.utf8Size ≤ n + 1 then dropBytes? (n + 1 - c.utf8Size) t else none

@[simp] theorem byteSize_append (s t : Text) : byteSize (s ++ t) = byteSize s + byteSize t := by
  induction s with
  | nil => simp [byteSize]
  | cons c s ih => rw [List.cons_append, byteSize, byteSize, ih, Nat.add_assoc]

/-- A cut at the end of a first part goes through no character, so the rest of
the way is a cut in the second part. -/
theorem dropBytes?_append_add (s t : Text) (n : Nat) :
    dropBytes? (byteSize s + n) (s ++ t) = dropBytes? n t := by
  induction s with
  | nil => simp [byteSize]
  | cons c s ih =>
    have hpos : 0 < c.utf8Size := c.utf8Size_pos
    obtain ⟨k, hk⟩ : ∃ k, byteSize (c :: s) + n = k + 1 :=
      ⟨c.utf8Size + byteSize s + n - 1, by rw [byteSize]; omega⟩
    have hle : c.utf8Size ≤ k + 1 := by rw [← hk, byteSize]; omega
    have hrest : k + 1 - c.utf8Size = byteSize s + n := by rw [← hk, byteSize]; omega
    rw [hk, List.cons_append, dropBytes?, if_pos hle, hrest, ih]

theorem dropBytes?_append (s t : Text) : dropBytes? (byteSize s) (s ++ t) = some t := by
  have h := dropBytes?_append_add s t 0
  rwa [Nat.add_zero, dropBytes?] at h

theorem utf8Size_toLower (c : Char) : c.toLower.utf8Size = c.utf8Size := by
  have hsize (d : Char) : d.utf8Size = if d.toNat ≤ 0x7F then 1 else if d.toNat ≤ 0x7FF then 2
      else if d.toNat ≤ 0xFFFF then 3 else 4 := rfl
  rw [hsize, hsize, toNat_toLower]
  split
  · rw [if_pos (by omega), if_pos (by omega)]
  · rfl

/-- Case is folded within ASCII, so every character keeps its number of bytes. -/
@[simp] theorem byteSize_fold (t : Text) : byteSize (fold t) = byteSize t := by
  induction t with
  | nil => rfl
  | cons c t ih =>
    show c.toLower.utf8Size + byteSize (fold t) = c.utf8Size + byteSize t
    rw [utf8Size_toLower, ih]

/-- The bytes of one character. -/
def encodeChar (c : Char) : List UInt8 :=
  let n := c.toNat
  if n < 0x80 then [n.toUInt8]
  else if n < 0x800 then [(0xC0 + n / 0x40).toUInt8, (0x80 + n % 0x40).toUInt8]
  else if n < 0x10000 then
    [(0xE0 + n / 0x1000).toUInt8, (0x80 + n / 0x40 % 0x40).toUInt8, (0x80 + n % 0x40).toUInt8]
  else
    [(0xF0 + n / 0x40000).toUInt8, (0x80 + n / 0x1000 % 0x40).toUInt8,
     (0x80 + n / 0x40 % 0x40).toUInt8, (0x80 + n % 0x40).toUInt8]

/-- The bytes of a text. -/
def encode (t : Text) : List UInt8 := t.flatMap encodeChar

/-! ## Reading bytes -/

/-- A character whose first bytes have been read: the value so far, how many
bytes are still to come, and the range the next of them lies in. -/
structure Partial where
  value : Nat
  owed : Nat
  low : Nat
  high : Nat

/-- What the first byte of a character announces. -/
inductive Lead where
  | complete (c : Char)
  | more (p : Partial)
  | refused

/-- The announcement of byte `b`. The ranges keep out overlong forms,
surrogates and values beyond U+10FFFF. -/
def lead (b : Nat) : Lead :=
  if b < 0x80 then .complete (Char.ofNat b)
  else if 0xC2 ≤ b ∧ b ≤ 0xDF then .more ⟨b - 0xC0, 1, 0x80, 0xBF⟩
  else if b = 0xE0 then .more ⟨0, 2, 0xA0, 0xBF⟩
  else if b = 0xED then .more ⟨0xD, 2, 0x80, 0x9F⟩
  else if 0xE1 ≤ b ∧ b ≤ 0xEF then .more ⟨b - 0xE0, 2, 0x80, 0xBF⟩
  else if b = 0xF0 then .more ⟨0, 3, 0x90, 0xBF⟩
  else if 0xF1 ≤ b ∧ b ≤ 0xF3 then .more ⟨b - 0xF0, 3, 0x80, 0xBF⟩
  else if b = 0xF4 then .more ⟨4, 3, 0x80, 0x8F⟩
  else .refused

/-- The next byte of a character under way: `none` if `b` does not continue it. -/
def Partial.continue? (p : Partial) (b : Nat) : Option Partial :=
  if p.low ≤ b ∧ b ≤ p.high then some ⟨p.value * 0x40 + (b - 0x80), p.owed - 1, 0x80, 0xBF⟩
  else none

/-- The character put for bytes that are no UTF-8. -/
def replacement : Char := Char.ofNat 0xFFFD

/-- The text of any bytes, with the replacement character where they are not
UTF-8. `none` in the state is the place between characters. -/
def decodeFrom : Option Partial → List UInt8 → Text
  | none, [] => []
  | some _, [] => [replacement]
  | none, b :: bs =>
    match lead b.toNat with
    | .complete c => c :: decodeFrom none bs
    | .more p => decodeFrom (some p) bs
    | .refused => replacement :: decodeFrom none bs
  | some p, b :: bs =>
    match p.continue? b.toNat with
    | some q =>
      if q.owed = 0 then Char.ofNat q.value :: decodeFrom none bs else decodeFrom (some q) bs
    | none =>
      -- the byte that cuts the character short begins the next one
      match lead b.toNat with
      | .complete c => replacement :: c :: decodeFrom none bs
      | .more q => replacement :: decodeFrom (some q) bs
      | .refused => replacement :: replacement :: decodeFrom none bs

/-- The text of any bytes, with the replacement character where they are not UTF-8. -/
def decodeLossy (bs : List UInt8) : Text := decodeFrom none bs

/-- The text whose bytes these are, if there is one. -/
def decode? (bs : List UInt8) : Option Text :=
  let t := decodeLossy bs
  if encode t = bs then some t else none

end BuilderForge.Text
