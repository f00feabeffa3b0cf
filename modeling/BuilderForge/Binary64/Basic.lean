/-
  Floating-point numbers of 64 bits: sign, exponent field and fraction field.

  The three fields determine a number, so equality is equality of fields. An
  exponent field of 2047 means infinity (fraction zero) or no number at all; a
  field of 0 means a number below the normal range. Any other pair of fields
  stands for `mantissa * 2 ^ scale`, computed here in exact integers. Nothing
  in the library computes with the machine's own floating-point operations.
-/

namespace BuilderForge

/-- A floating-point number, as its three fields. -/
structure Binary64 where
  negative : Bool
  exponent : Fin 0x800
  fraction : Fin 0x10000000000000
  deriving DecidableEq, Repr

namespace Binary64

/-- The power of a base. -/
def power (base n : Nat) : Nat := base.pow n

/-- The exponent field of infinities and of the value that is no number. -/
def specialExponent : Nat := 0x7FF

/-- The leading bit of a normal number's mantissa, which the fraction field leaves out. -/
def leadingBit : Nat := 0x10000000000000

/-- The value that is no number. -/
def nan : Binary64 := ⟨false, ⟨0x7FF, by decide⟩, ⟨0x8000000000000, by decide⟩⟩

/-- The infinity of a sign. -/
def infinity (negative : Bool) : Binary64 := ⟨negative, ⟨0x7FF, by decide⟩, ⟨0, by decide⟩⟩

/-- The zero of a sign. -/
def zero (negative : Bool) : Binary64 := ⟨negative, ⟨0, by decide⟩, ⟨0, by decide⟩⟩

/-- Whether the fields stand for no number. -/
def isNaN (x : Binary64) : Bool := x.exponent.val = specialExponent && x.fraction.val ≠ 0

/-- Whether the fields stand for an infinity. -/
def isInfinite (x : Binary64) : Bool := x.exponent.val = specialExponent && x.fraction.val = 0

/-- Whether the fields stand for a zero. -/
def isZero (x : Binary64) : Bool := x.exponent.val = 0 && x.fraction.val = 0

/-- The integer `m` in the magnitude `m * 2 ^ q` of a finite number. -/
def mantissa (x : Binary64) : Nat :=
  if x.exponent.val = 0 then x.fraction.val else leadingBit + x.fraction.val

/-- The power `q` in the magnitude `m * 2 ^ q` of a finite number. -/
def scale (x : Binary64) : Int :=
  if x.exponent.val = 0 then -1074 else (x.exponent.val : Int) - 1075

/-- The number with the other sign. -/
def neg (x : Binary64) : Binary64 := { x with negative := !x.negative }

/-- The number of magnitude `m * 2 ^ q`, for `m` from the leading bit up to
below twice as much, or for a smaller `m` with `q` at -1074. Beyond the largest
finite number it is infinite. -/
def assemble (negative : Bool) (m : Nat) (q : Int) : Binary64 :=
  if 971 < q then infinity negative
  else if h : m < 0x10000000000000 then ⟨negative, ⟨0, by decide⟩, ⟨m, h⟩⟩
  else
    ⟨negative, ⟨(q + 1075).toNat % 0x800, Nat.mod_lt _ (by decide)⟩,
     ⟨m % 0x10000000000000, Nat.mod_lt _ (by decide)⟩⟩

/-- The number of magnitude `m * 2 ^ q` as rounding leaves it, where `m` may
have reached twice the leading bit. -/
def ofMantissa (negative : Bool) (m : Nat) (q : Int) : Binary64 :=
  if m = 2 * leadingBit then assemble negative leadingBit (q + 1) else assemble negative m q

end Binary64

end BuilderForge
