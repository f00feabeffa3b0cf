import Mathlib.Data.List.DropRight
import BuilderForge.Manifest.Label
import BuilderForge.Proofs.Utf8
/-
  Positions and offsets.

  A byte of a text lies in the line behind the line feeds before it, and the line
  begins behind the last of them (`feedsBefore`, `lineBegin`). Both are about
  bytes, as offsets and columns are, while `lineStart` goes through the
  characters. `lineStart_eq` takes it to the bytes; it is enough that a line feed
  is a character of one byte and that no other character has this byte.

  Whole lines have as many line feeds as lines (`linesSize_count`), so the offset
  of a position is the byte that the position was taken of: `offsets_of_positions`.
  The positions that reading reports come from the same two numbers
  (`position_eq`), so a fault is labelled at the last byte that was read, or behind
  it if this byte ends a line (`faultOffset?_eq`).
-/

namespace BuilderForge.Text

/-- The byte that ends a line. -/
def lineFeed : UInt8 := 0x0A

/-- Bytes up to the last line feed among them. -/
def wholeLines (bs : List UInt8) : List UInt8 := bs.rdropWhile (· ≠ lineFeed)

/-- The number of line feeds among the first `o` bytes. -/
def feedsBefore (o : Nat) (t : Text) : Nat := ((encode t).take o).count lineFeed

/-- Where the line of the byte at `o` begins: behind the last line feed among the first `o` bytes. -/
def lineBegin (o : Nat) (t : Text) : Nat := (wholeLines ((encode t).take o)).length

/-! ## Line feeds -/

theorem encodeChar_lineFeed : encodeChar '\n' = [lineFeed] := rfl

/-- Only a line feed has the byte of a line feed. -/
theorem lineFeed_mem_encodeChar {c : Char} : lineFeed ∈ encodeChar c ↔ c = '\n' := by
  have hfeed : lineFeed.toNat = 10 := rfl
  refine ⟨fun h => ?_, fun h => by simp [h, encodeChar_lineFeed]⟩
  by_cases hc : c.toNat < 0x80
  · have hbytes : encodeChar c = [c.toNat.toUInt8] := if_pos hc
    rw [hbytes, List.mem_singleton] at h
    rw [h, toNat_toUInt8 (by omega)] at hfeed
    exact Char.toNat_inj.1 hfeed
  · have hle := le_of_mem_encodeChar (by omega) h
    omega

theorem length_wholeLines_le (bs : List UInt8) : (wholeLines bs).length ≤ bs.length :=
  (List.rdropWhile_prefix _ _).length_le

theorem wholeLines_eq_self_iff {bs : List UInt8} :
    wholeLines bs = bs ↔ ∀ hne : bs ≠ [], bs.getLast hne = lineFeed := by
  simp [wholeLines, List.rdropWhile_eq_self_iff]

/-- Bytes are whole lines and then others without a line feed. -/
theorem exists_wholeLines (bs : List UInt8) : ∃ more, wholeLines bs ++ more = bs ∧ lineFeed ∉ more := by
  refine ⟨bs.rtakeWhile (· ≠ lineFeed), List.rdropWhile_append_rtakeWhile, fun hmem => ?_⟩
  simpa using List.mem_rtakeWhile_imp hmem

theorem wholeLines_wholeLines (bs : List UInt8) : wholeLines (wholeLines bs) = wholeLines bs :=
  List.rdropWhile_idempotent _ _

/-! ## Lines as bytes -/

/-- The number of bytes of the first `count` lines with their ends. -/
def linesSize : Nat → List UInt8 → Nat
  | 0, _ => 0
  | _ + 1, [] => 0
  | count + 1, b :: bs => 1 + linesSize (if b = lineFeed then count else count + 1) bs

theorem linesSize_append {bs : List UInt8} (h : lineFeed ∉ bs) (count : Nat) (rest : List UInt8) :
    linesSize (count + 1) (bs ++ rest) = bs.length + linesSize (count + 1) rest := by
  induction bs with
  | nil => simp
  | cons b bs ih =>
    rw [List.mem_cons, not_or] at h
    rw [List.cons_append, linesSize, if_neg (Ne.symm h.1), ih h.2, List.length_cons]
    omega

/-- Lines are the same, counted in characters and in bytes. -/
theorem lineStart_eq (count : Nat) (t : Text) : lineStart count t = linesSize count (encode t) := by
  fun_induction lineStart count t with
  | case1 => rw [linesSize]
  | case2 => rfl
  | case3 count c t ih =>
    rw [ih, encode_cons]
    by_cases hc : c = '\n'
    · subst hc
      rw [encodeChar_lineFeed, List.singleton_append, linesSize, if_pos rfl, if_pos rfl]
      rfl
    · rw [linesSize_append (mt lineFeed_mem_encodeChar.1 hc), length_encodeChar, if_neg hc]

/-- Whole lines are as many lines as they have line feeds. -/
theorem linesSize_count {bs : List UInt8} (h : wholeLines bs = bs) (rest : List UInt8) :
    linesSize (bs.count lineFeed) (bs ++ rest) = bs.length := by
  rw [wholeLines_eq_self_iff] at h
  induction bs with
  | nil => simp [linesSize]
  | cons b bs ih =>
    have hrest : ∀ hne : bs ≠ [], bs.getLast hne = lineFeed := fun hne => by
      rw [← h (List.cons_ne_nil b bs), List.getLast_cons hne]
    by_cases hb : b = lineFeed
    · rw [hb, List.count_cons_self, List.cons_append, linesSize, if_pos rfl, ih hrest,
        List.length_cons, Nat.add_comm]
    · -- the line goes on, so there is a line feed behind this byte
      have hne : bs ≠ [] := fun hnil => hb (by simpa [hnil] using h (List.cons_ne_nil b bs))
      have hmem : lineFeed ∈ bs := hrest hne ▸ List.getLast_mem hne
      obtain ⟨count, hcount⟩ := Nat.exists_eq_add_one.2 (List.count_pos_iff.2 hmem)
      rw [List.count_cons_of_ne hb, hcount, List.cons_append, linesSize, if_neg hb, ← hcount,
        ih hrest, List.length_cons, Nat.add_comm]

/-- The line feeds of any bytes are those of the whole lines among them. -/
theorem linesSize_wholeLines (bs rest : List UInt8) :
    linesSize (bs.count lineFeed) (bs ++ rest) = (wholeLines bs).length := by
  obtain ⟨more, hsplit, hfree⟩ := exists_wholeLines bs
  have hcount : bs.count lineFeed = (wholeLines bs).count lineFeed := by
    conv_lhs => rw [← hsplit, List.count_append, List.count_eq_zero.2 hfree, Nat.add_zero]
  calc linesSize (bs.count lineFeed) (bs ++ rest)
      = linesSize ((wholeLines bs).count lineFeed) (wholeLines bs ++ (more ++ rest)) := by
        rw [hcount, ← List.append_assoc, hsplit]
    _ = (wholeLines bs).length := linesSize_count (wholeLines_wholeLines bs) _

/-- More lines than there are line feeds are all lines. -/
theorem linesSize_of_count_lt {bs : List UInt8} {count : Nat} (h : bs.count lineFeed < count) :
    linesSize count bs = bs.length := by
  fun_induction linesSize count bs with
  | case1 => omega
  | case2 => rfl
  | case3 count b bs ih =>
    rw [List.length_cons, Nat.add_comm 1, ih]
    rw [List.count_cons] at h
    split <;> simp_all

/-! ## Where a line begins -/

theorem lineBegin_le {o : Nat} {t : Text} (h : o ≤ byteSize t) : lineBegin o t ≤ o := by
  have hle := length_wholeLines_le ((encode t).take o)
  rwa [List.length_take, length_encode, Nat.min_eq_left h] at hle

/-- The line of a byte begins behind as many lines as there are line feeds before the byte. -/
theorem lineStart_feedsBefore (o : Nat) (t : Text) : lineStart (feedsBefore o t) t = lineBegin o t := by
  rw [lineStart_eq, feedsBefore, lineBegin, ← linesSize_wholeLines _ ((encode t).drop o),
    List.take_append_drop]

/-- Behind all line feeds there are no more lines. -/
theorem lineStart_of_lt {count : Nat} {t : Text} (h : feedsBefore (byteSize t) t < count) :
    lineStart count t = byteSize t := by
  rw [feedsBefore, ← length_encode, List.take_length] at h
  rw [lineStart_eq, linesSize_of_count_lt h, length_encode]

/-- The last line is empty exactly in the empty text and in one that ends with a line feed. -/
theorem lineBegin_byteSize_iff {t : Text} :
    lineBegin (byteSize t) t = byteSize t ↔ t = [] ∨ t.getLast? = some '\n' := by
  have hself : lineBegin (byteSize t) t = byteSize t ↔ wholeLines (encode t) = encode t := by
    rw [lineBegin, ← length_encode, List.take_length]
    exact ⟨(List.rdropWhile_prefix _ _).eq_of_length, congrArg List.length⟩
  rw [hself, wholeLines_eq_self_iff]
  rcases List.eq_nil_or_concat t with rfl | ⟨s, c, rfl⟩
  · simp [encode]
  · have hbytes : encode (s ++ [c]) = encode s ++ encodeChar c := by simp [encode]
    have hne : encodeChar c ≠ [] := by
      apply List.ne_nil_of_length_pos
      rw [length_encodeChar]
      exact c.utf8Size_pos
    have hlast : (encodeChar c).getLast hne = lineFeed ↔ c = '\n' := by
      refine ⟨fun h => lineFeed_mem_encodeChar.1 (h ▸ List.getLast_mem hne), fun h => ?_⟩
      subst h
      rfl
    simp [hbytes, hne, hlast]

/-! ## Offsets -/

/-- A position in the line of an offset lies so many bytes behind the beginning of the line. -/
theorem offset?_line (o column : Nat) (t : Text) : offset? ⟨1 + feedsBefore o t, column⟩ t =
    if lineBegin o t + (column - 1) < byteSize t then some (lineBegin o t + (column - 1)) else none := by
  simp [offset?, lineStart_feedsBefore]

/-- Every column of an empty last line lies behind the text. -/
theorem offset?_emptyLine {t : Text} (h : t = [] ∨ t.getLast? = some '\n') (column : Nat) :
    offset? ⟨1 + feedsBefore (byteSize t) t, column⟩ t = none := by
  rw [offset?_line, lineBegin_byteSize_iff.2 h, if_neg (by omega)]

/-- The last column of a last line that is not empty is the last byte. -/
theorem offset?_lastColumn {t : Text} (h : ¬ (t = [] ∨ t.getLast? = some '\n')) :
    offset? ⟨1 + feedsBefore (byteSize t) t, byteSize t - lineBegin (byteSize t) t⟩ t =
      some (byteSize t - 1) := by
  have hbegin : lineBegin (byteSize t) t < byteSize t :=
    Nat.lt_of_le_of_ne (lineBegin_le (Nat.le_refl _)) (mt lineBegin_byteSize_iff.1 h)
  have hoffset : lineBegin (byteSize t) t + (byteSize t - lineBegin (byteSize t) t - 1) =
      byteSize t - 1 := by omega
  rw [offset?_line, hoffset, if_pos (by omega)]

/-! ## Positions of a reader -/

/-- The position of the last one of some bytes. -/
def endOf (bs : List UInt8) : Position :=
  ⟨1 + bs.count lineFeed, bs.length - (wholeLines bs).length⟩

/-- A line feed begins a line. -/
theorem endOf_concat_lineFeed (bs : List UInt8) :
    endOf (bs ++ [lineFeed]) = ⟨(endOf bs).line + 1, 0⟩ := by
  simp [endOf, wholeLines, Nat.add_assoc]

/-- Another byte goes on with the line. -/
theorem endOf_concat {b : UInt8} (hb : b ≠ lineFeed) (bs : List UInt8) :
    endOf (bs ++ [b]) = ⟨(endOf bs).line, (endOf bs).column + 1⟩ := by
  have hlines : wholeLines (bs ++ [b]) = wholeLines bs :=
    List.rdropWhile_concat_pos _ _ _ (by simpa using hb)
  have hcount : (bs ++ [b]).count lineFeed = bs.count lineFeed := by simp [hb]
  have hle := length_wholeLines_le bs
  have hcolumn : (bs ++ [b]).length - (wholeLines bs).length =
      bs.length - (wholeLines bs).length + 1 := by
    rw [List.length_append, List.length_singleton]
    omega
  simp only [endOf, hlines, hcount, hcolumn]

theorem endOf_append {more : List UInt8} (h : lineFeed ∉ more) (bs : List UInt8) :
    endOf (bs ++ more) = ⟨(endOf bs).line, (endOf bs).column + more.length⟩ := by
  induction more generalizing bs with
  | nil => simp
  | cons b more ih =>
    rw [List.mem_cons, not_or] at h
    calc endOf (bs ++ b :: more) = endOf (bs ++ [b] ++ more) := by simp
      _ = ⟨(endOf bs).line, (endOf bs).column + 1 + more.length⟩ := by
        rw [ih h.2, endOf_concat (Ne.symm h.1)]
      _ = ⟨(endOf bs).line, (endOf bs).column + (b :: more).length⟩ := by
        rw [List.length_cons, Nat.add_assoc, Nat.add_comm 1]

/-- A reader that goes on behind some bytes comes to the end of all of them. -/
theorem advance_endOf (front : List UInt8) (read : Nat) (t : Text) :
    advance (endOf front) read t = endOf (front ++ (encode t).take read) := by
  induction t generalizing front read with
  | nil => simp [advance, encode]
  | cons c t ih =>
    have hlength := length_encodeChar c
    rw [advance, encode_cons, List.take_append, hlength]
    by_cases hread : read < c.utf8Size
    · -- the reader stops in this character, which is no line feed if it has begun
      have hfree : lineFeed ∉ (encodeChar c).take read := fun hmem => by
        obtain rfl := lineFeed_mem_encodeChar.1 (List.mem_of_mem_take hmem)
        rw [Nat.lt_one_iff.1 hread] at hmem
        cases hmem
      rw [if_pos hread, show read - c.utf8Size = 0 by omega, List.take_zero, List.append_nil,
        endOf_append hfree, List.length_take, hlength, Nat.min_eq_left (by omega)]
    · rw [if_neg hread, List.take_of_length_le (by omega), ← List.append_assoc]
      by_cases hc : c = '\n'
      · subst hc
        rw [if_pos rfl, ← endOf_concat_lineFeed, ih, encodeChar_lineFeed]
      · rw [if_neg hc, ← hlength, ← endOf_append (mt lineFeed_mem_encodeChar.1 hc), ih]

/-- What a reader has read ends in the line of the next byte, so many bytes behind its beginning. -/
theorem position_eq {read : Nat} {t : Text} (h : read ≤ byteSize t) :
    position read t = ⟨1 + feedsBefore read t, read - lineBegin read t⟩ := by
  have hlength : ((encode t).take read).length = read := by
    rw [List.length_take, length_encode, Nat.min_eq_left h]
  calc position read t = advance (endOf []) read t := rfl
    _ = endOf ((encode t).take read) := advance_endOf [] read t
    _ = ⟨1 + feedsBefore read t, read - lineBegin read t⟩ := by
      rw [endOf, hlength, feedsBefore, lineBegin]

/-! ## Conversion -/

/-- The position of every byte of a text is converted back to the offset of this byte; what a
position is converted to lies in the text; behind the last line there is nothing, nor in the empty
line after a last line feed; and the last column of a last line that has bytes is the last byte. -/
theorem offsets_of_positions (t : Text) :
    (∀ o < byteSize t, offset? ⟨1 + feedsBefore o t, o - lineBegin o t + 1⟩ t = some o) ∧
    (∀ line column o, offset? ⟨line, column⟩ t = some o → o < byteSize t) ∧
    (∀ line column, 1 + feedsBefore (byteSize t) t < line → offset? ⟨line, column⟩ t = none) ∧
    (t = [] ∨ t.getLast? = some '\n' →
      ∀ column, offset? ⟨1 + feedsBefore (byteSize t) t, column⟩ t = none) ∧
    (t ≠ [] → t.getLast? ≠ some '\n' →
      offset? ⟨1 + feedsBefore (byteSize t) t, byteSize t - lineBegin (byteSize t) t⟩ t =
        some (byteSize t - 1)) := by
  refine ⟨fun o ho => ?_, fun line column o h => ?_, fun line column h => ?_,
    offset?_emptyLine, fun hne hlast => offset?_lastColumn (not_or.2 ⟨hne, hlast⟩)⟩
  · have hle := lineBegin_le (Nat.le_of_lt ho)
    have hoffset : lineBegin o t + (o - lineBegin o t + 1 - 1) = o := by omega
    rw [offset?_line, hoffset, if_pos ho]
  · simp only [offset?] at h
    split at h
    · rename_i hinside
      cases h
      exact hinside.2
    · cases h
  · have hstart : lineStart (line - 1) t = byteSize t := lineStart_of_lt (by omega)
    simp [offset?, hstart]

/-- A text with characters of several bytes, an empty line, and a last line without an end. -/
def verse : Text := "é = 1\n\nλ\r\n\"ö".toList

theorem offsets_of_positions_verse :
    (9 < byteSize verse ∧ offset? ⟨3, 2⟩ verse = some 9) ∧
    (∀ column, offset? ⟨5, column⟩ verse = none) ∧
    (verse ≠ [] ∧ verse.getLast? ≠ some '\n' ∧ offset? ⟨4, 3⟩ verse = some 14) ∧
    ∀ column, offset? ⟨3, column⟩ (verse.take 7) = none := by
  obtain ⟨hbyte, _, hpast, _, hlast⟩ := offsets_of_positions verse
  obtain ⟨_, _, _, hempty, _⟩ := offsets_of_positions (verse.take 7)
  -- the lines of the bytes, and where they begin
  have hinside : feedsBefore 9 verse = 2 ∧ lineBegin 9 verse = 8 := by decide
  have hend : feedsBefore (byteSize verse) verse = 3 ∧ lineBegin (byteSize verse) verse = 12 ∧
      byteSize verse = 15 := by decide
  have hfeeds : feedsBefore (byteSize (verse.take 7)) (verse.take 7) = 2 := by decide
  have hne : verse ≠ [] := by decide
  have hopen : verse.getLast? ≠ some '\n' := by decide
  rw [hend.1] at hpast
  specialize hbyte 9 (by decide)
  specialize hlast hne hopen
  rw [hinside.1, hinside.2] at hbyte
  rw [hend.1, hend.2.1, hend.2.2] at hlast
  rw [hfeeds] at hempty
  exact ⟨⟨by decide, hbyte⟩, fun column => hpast 5 column (by decide), ⟨hne, hopen, hlast⟩,
    hempty (.inr (by decide))⟩

end BuilderForge.Text

namespace BuilderForge.Label

open BuilderForge.Text

/-- A fault is labelled at the last byte that was read; if this byte ends a line, at the first byte
of the next line, unless there is none. -/
theorem faultOffset?_misplaced {read : Nat} {source : Text} (hread : 0 < read)
    (h : read ≤ byteSize source) : faultOffset? source (.misplaced read) =
      if lineBegin read source < read then some (read - 1)
      else if read < byteSize source then some read else none := by
  have hle := lineBegin_le h
  rw [faultOffset?, position_eq h, offset?_line]
  by_cases hbegin : lineBegin read source < read
  · rw [if_pos hbegin, if_pos (by omega),
      show lineBegin read source + (read - lineBegin read source - 1) = read - 1 by omega]
  · rw [if_neg hbegin,
      show lineBegin read source + (read - lineBegin read source - 1) = read by omega]

/-- A text that ended too early is labelled at its last byte, unless its last line is empty. -/
theorem faultOffset?_ended (source : Text) : faultOffset? source .ended =
    if source = [] ∨ source.getLast? = some '\n' then none else some (byteSize source - 1) := by
  rw [faultOffset?, position_eq (Nat.le_refl _)]
  split
  · rename_i h
    exact offset?_emptyLine h _
  · rename_i h
    exact offset?_lastColumn h

end BuilderForge.Label
