import BuilderForge.Binary64.Basic
/-
  Rounding: the floating-point number nearest to an exact ratio.

  `ofRatio` is the one place where a number is rounded, to nearest with ties to
  the even mantissa. A decimal and a product or quotient of two numbers are
  exact ratios, so reading a decimal and multiplying are calls of it.
-/

namespace BuilderForge.Binary64

/-- The integer nearest to `num / den`, ties going to the even one. -/
def nearest (num den : Nat) : Nat :=
  let q := num / den
  match compare (2 * (num % den)) den with
  | .lt => q
  | .gt => q + 1
  | .eq => q + q % 2

/-- Whether `num / den` is below `2 ^ e`. -/
def belowPow (num den : Nat) (e : Int) : Bool :=
  num * power 2 (-e).toNat < den * power 2 e.toNat

/-- The power `e` with `2 ^ e ≤ num / den < 2 ^ (e + 1)`. -/
def magnitude (num den : Nat) : Int :=
  let e := (num.log2 : Int) - den.log2
  if belowPow num den e then e - 1 else e

/-- The number nearest to `num / den`. -/
def ofRatio (negative : Bool) (num den : Nat) : Binary64 :=
  if num = 0 then zero negative
  else
    let q := max (magnitude num den - 52) (-1074)
    ofMantissa negative (nearest (num * power 2 (-q).toNat) (den * power 2 q.toNat)) q

/-- The number nearest to `digits * 10 ^ exponent`. A decimal whose first
digit stands far outside the range of finite numbers is not multiplied out. -/
def ofDecimal (negative : Bool) (digits : Nat) (exponent : Int) : Binary64 :=
  let places := (digits.log2 : Int) * 3 / 10 + exponent
  if digits = 0 then zero negative
  else if 400 < places then infinity negative
  else if places + (digits.log2 : Int) / 20 < -400 then zero negative
  else ofRatio negative (digits * power 10 exponent.toNat) (power 10 (-exponent).toNat)

/-- The rounded product of two finite numbers. -/
def mul (x y : Binary64) : Binary64 :=
  let q := x.scale + y.scale
  ofRatio (x.negative != y.negative) (x.mantissa * y.mantissa * power 2 q.toNat)
    (power 2 (-q).toNat)

/-- The rounded quotient of two finite numbers, the second not zero. -/
def div (x y : Binary64) : Binary64 :=
  let q := x.scale - y.scale
  ofRatio (x.negative != y.negative) (x.mantissa * power 2 q.toNat)
    (y.mantissa * power 2 (-q).toNat)

end BuilderForge.Binary64
