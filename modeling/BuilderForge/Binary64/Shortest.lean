import BuilderForge.Binary64.Basic
/-
  The fewest decimal digits that identify a floating-point number.

  The reals that round to a finite number form an interval, its ends included
  exactly when the mantissa is even. `readsBack` tests a decimal against it in
  exact naturals. `shortest` looks at the grids of one digit, of two digits and
  so on, and takes the first grid on which a neighbour of the value lies in the
  interval: no coarser grid has such a point. Of two hits the nearer one is
  taken, and of two equally near ones the greater.
-/

namespace BuilderForge.Binary64

/-- The decimal `digits * 10 ^ exponent`. -/
structure Decimal where
  digits : Nat
  exponent : Int
  deriving DecidableEq, Repr

/-- How `a * 10 ^ i` compares with `n * 2 ^ j`. -/
def compareScaled (a : Nat) (i : Int) (n : Nat) (j : Int) : Ordering :=
  compare (a * power 10 i.toNat * power 2 (-j).toNat) (n * power 2 j.toNat * power 10 (-i).toNat)

/-- Whether the number below is half as far away as the number above. -/
def narrowBelow (x : Binary64) : Bool := x.fraction.val = 0 && 1 < x.exponent.val

/-- Whether the decimal lies among the reals that round to the magnitude of `x`. -/
def readsBack (x : Binary64) (d : Decimal) : Bool :=
  let below := compareScaled d.digits d.exponent
    (if x.narrowBelow then 4 * x.mantissa - 1 else 4 * x.mantissa - 2) (x.scale - 2)
  let above := compareScaled d.digits d.exponent (4 * x.mantissa + 2) (x.scale - 2)
  let ends := x.mantissa % 2 = 0
  (below = .gt || (ends && below = .eq)) && (above = .lt || (ends && above = .eq))

/-- The least power `k` such that the magnitude is below `10 ^ k`. The binary
magnitude puts it within one of the first guess. -/
def decimalMagnitude (x : Binary64) : Int :=
  let guess := (x.mantissa.log2 + x.scale) * 30103 / 100000
  let below (k : Int) : Bool := compareScaled 1 k x.mantissa x.scale = .gt
  if below (guess - 1) then guess - 1
  else if below guess then guess
  else if below (guess + 1) then guess + 1
  else guess + 2

/-- The number of steps of `10 ^ exponent` that fit into the magnitude. -/
def stepsBelow (x : Binary64) (exponent : Int) : Nat :=
  (x.mantissa * power 2 x.scale.toNat * power 10 (-exponent).toNat)
    / (power 2 (-x.scale).toNat * power 10 exponent.toNat)

/-- The neighbour of the magnitude on the grid of `10 ^ exponent` that identifies
`x`, if one does. -/
def onGrid? (x : Binary64) (exponent : Int) : Option Decimal :=
  let lower : Decimal := ⟨x.stepsBelow exponent, exponent⟩
  let upper : Decimal := ⟨x.stepsBelow exponent + 1, exponent⟩
  match x.readsBack lower, x.readsBack upper with
  | true, false => some lower
  | false, true => some upper
  | false, false => none
  | true, true =>
    -- twice the value against the sum of the two neighbours
    if compareScaled (lower.digits + upper.digits) exponent x.mantissa (x.scale + 1) = .gt
    then some lower else some upper

/-- The exact value of a magnitude as a decimal. -/
def exact (x : Binary64) : Decimal :=
  ⟨x.mantissa * power 2 x.scale.toNat * power 5 (-x.scale).toNat, min x.scale 0⟩

/-- The decimal without zeros at the end of its digits. -/
def Decimal.strip (d : Decimal) : Decimal :=
  go d.digits d
where
  /-- Moves a factor ten from the digits to the exponent while there is one. -/
  go : Nat → Decimal → Decimal
    | 0, d => d
    | fuel + 1, d => if d.digits % 10 = 0 then go fuel ⟨d.digits / 10, d.exponent + 1⟩ else d

/-- The shortest decimal that identifies the magnitude of a finite number other
than zero. Seventeen digits always identify one; were they not to, the exact
value would. -/
def shortest (x : Binary64) : Decimal :=
  let k := x.decimalMagnitude
  (((List.range 17).findSome? fun (n : Nat) => x.onGrid? (k - (n + 1 : Nat))).getD x.exact).strip

end BuilderForge.Binary64
