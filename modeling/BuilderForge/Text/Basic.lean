/-
  Text, and the cuts the rest of the library makes in it.

  Every rule of the library reads text from the left, so a text is a list of
  characters and the functions here are recursions on that list. `pieces` cuts
  at a separator, `lines` at line ends, `trim` drops blanks at both ends, and
  `runs` of a predicate come from the list functions `takeWhile` and
  `dropWhile`.

  Blank means the Unicode property White_Space, which has 25 characters. It is
  a table here because `Char.isWhitespace` knows four of them.
-/

namespace BuilderForge

/-- A text, first character first. -/
abbrev Text := List Char

namespace Text

/-! ## Blanks -/

/-- Code points with the property White_Space, as closed ranges in ascending order. -/
def blankRanges : List (Nat × Nat) :=
  [(0x09, 0x0D), (0x20, 0x20), (0x85, 0x85), (0xA0, 0xA0), (0x1680, 0x1680), (0x2000, 0x200A),
   (0x2028, 0x2029), (0x202F, 0x202F), (0x205F, 0x205F), (0x3000, 0x3000)]

/-- Whether a character is white space. -/
def isBlank (c : Char) : Bool :=
  blankRanges.any fun r => r.1 ≤ c.toNat && c.toNat ≤ r.2

example : (blankRanges.map fun r => r.2 + 1 - r.1).sum = 25 := by decide

/-- The text without the blanks at its start. -/
def trimStart (t : Text) : Text := t.dropWhile isBlank

/-- The text without the blanks at its end. -/
def trimEnd (t : Text) : Text := (t.reverse.dropWhile isBlank).reverse

/-- The text without the blanks at either end. -/
def trim (t : Text) : Text := trimEnd (trimStart t)

/-! ## Pieces -/

/-- The pieces between the occurrences of `sep`. A text without `sep` is one piece. -/
def pieces (sep : Char) : Text → List Text
  | [] => [[]]
  | c :: t =>
    if c = sep then [] :: pieces sep t
    else
      match pieces sep t with
      | [] => [[c]]
      | p :: ps => (c :: p) :: ps

/-- What stands before and after the last `c` of a text, if there is one. -/
def cutLast (c : Char) : Text → Option (Text × Text)
  | [] => none
  | d :: t =>
    match cutLast c t with
    | some (before, after) => some (d :: before, after)
    | none => if d = c then some ([], t) else none

/-- The pieces with `sep` between them. -/
def join (sep : Text) (ps : List Text) : Text := sep.intercalate ps

/-- The text without one `c` at its end, if it has one there. -/
def dropLastChar (c : Char) (t : Text) : Text :=
  if t.getLast? = some c then t.dropLast else t

/-- The lines of a text. A line ends at a line feed, and a carriage return just
before the line feed belongs to the line end. What follows the last line feed
is a line as it stands, unless it is empty. -/
def lines (t : Text) : List Text :=
  go (pieces '\n' t)
where
  /-- Closes every piece but the last. -/
  go : List Text → List Text
    | [] => []
    | [last] => if last = [] then [] else [last]
    | p :: q :: ps => dropLastChar '\r' p :: go (q :: ps)

/-! ## Letters

Case is folded for the letters A to Z only; every other character stands for
itself. PHP compares class, function and keyword names in this way. -/

/-- The text with A to Z in lower case. -/
def fold (t : Text) : Text := t.map Char.toLower

/-- Whether two texts differ in the case of A to Z at most. -/
def sameFolded (s t : Text) : Bool := fold s = fold t

theorem toNat_toLower (c : Char) :
    c.toLower.toNat = if 65 ≤ c.toNat ∧ c.toNat ≤ 90 then c.toNat + 32 else c.toNat := by
  unfold Char.toLower
  split
  · rename_i h
    have hl : 65 ≤ c.toNat := h.1
    have hu : c.toNat ≤ 90 := h.2
    have h32 : ('a'.val - 'A'.val).toNat = 32 := by decide
    rw [if_pos ⟨hl, hu⟩, Char.toNat_mk, UInt32.toNat_add, h32, Char.toNat_val]
    omega
  · rename_i h
    rw [if_neg]
    exact h

@[simp] theorem fold_append (s t : Text) : fold (s ++ t) = fold s ++ fold t := List.map_append

/-- The text with its first character in upper case, if that is one of a to z. -/
def capitalize : Text → Text
  | [] => []
  | c :: t => c.toUpper :: t

end Text

end BuilderForge
