import BuilderForge.Text.Basic
/-
  Numerals: naturals and integers in decimal digits, and digits in other bases.

  `value` reads a run of digits in any base up to 36. `ofNat` and `ofInt` write
  the one numeral without superfluous zeros or signs, so an integer has exactly
  one written form and `isCanonical` recognises it.
-/

namespace BuilderForge.Numeral

/-- The digits of a natural number in base ten. -/
def ofNat (n : Nat) : Text := Nat.toDigits 10 n

/-- The digits of an integer in base ten, after a minus sign if it is negative. -/
def ofInt (i : Int) : Text :=
  if i < 0 then '-' :: ofNat i.natAbs else ofNat i.natAbs

/-- The value of a digit, letters of either case counting on from ten. -/
def digitValue? (c : Char) : Option Nat :=
  if c.isDigit then some (c.toNat - '0'.toNat)
  else if 'a' ≤ c ∧ c ≤ 'z' then some (c.toNat - 'a'.toNat + 10)
  else if 'A' ≤ c ∧ c ≤ 'Z' then some (c.toNat - 'A'.toNat + 10)
  else none

/-- Whether a character is a digit of the base. -/
def isDigitOf (base : Nat) (c : Char) : Bool :=
  (digitValue? c).any (· < base)

/-- The number that digits of the base stand for, the first digit weighing most. -/
def value (base : Nat) (ds : Text) : Nat :=
  ds.foldl (fun n c => n * base + (digitValue? c).getD 0) 0

/-- The number that a non-empty run of decimal digits stands for. -/
def nat? (t : Text) : Option Nat :=
  if t ≠ [] ∧ t.all Char.isDigit then some (value 10 t) else none

/-- The integer that decimal digits stand for, with at most a minus sign before them. -/
def int? : Text → Option Int
  | '-' :: t => (nat? t).map fun n => -(n : Int)
  | t => (nat? t).map fun n => (n : Int)

/-- Whether an integer has at most 64 bits, the sign included. -/
def fitsWord (i : Int) : Bool := -0x8000000000000000 ≤ i && i < 0x8000000000000000

/-- Whether a text is the written form of an integer of 64 bits. -/
def isCanonical (t : Text) : Bool :=
  (int? t).any fun i => fitsWord i && ofInt i = t

/-- The two upper-case hexadecimal digits of a byte. -/
def hexByte (b : UInt8) : Text :=
  [hexDigit (b.toNat / 16), hexDigit (b.toNat % 16)]
where
  /-- One digit below sixteen. -/
  hexDigit (n : Nat) : Char :=
    if n < 10 then Char.ofNat ('0'.toNat + n) else Char.ofNat ('A'.toNat + (n - 10))

end BuilderForge.Numeral
