import BuilderForge.Binary64.Rounding
import BuilderForge.Document.Json.Quoted
/-
  JSON numbers.

  A number without fraction and exponent is an integer as long as it fits 64
  bits, with a sign or without; any other number is a float. A float is formed
  from as many leading digits as fit 64 bits and from a power of ten, by one
  rounding of the digits and one multiplication or division, so it can miss the
  nearest number by a little. A float beyond the finite range is refused when
  it is read; skipping asks for the form only.
-/

namespace BuilderForge.Document.Json

/-- The parts of a number: its digits before and after the point, and its
exponent as a sign and digits, with the place where these begin. -/
structure Parts where
  negative : Bool
  whole : Text
  places : Option Text
  exponent : Option (Bool × Text × Nat)

/-! ## The form of a number -/

/-- A number that the end of the text cuts short. -/
def cutShort (read : Nat) : Flaw := ⟨.ended, some (.misplaced read)⟩

/-- One or more digits. -/
def digits (read : Nat) (t : Text) : Except Flaw (Found Text) :=
  let ds := t.takeWhile Char.isDigit
  if ds ≠ [] then .ok ⟨ds, read + ds.length, t.dropWhile Char.isDigit⟩
  else if t = [] then .error (cutShort read)
  else .error (.fatal (.misplaced (read + 1)))

/-- The digits before the point; no zero stands before another digit. -/
def wholeDigits (read : Nat) (t : Text) : Except Flaw (Found Text) :=
  match t with
  | '0' :: c :: r =>
    if c.isDigit then .error (.fatal (.misplaced (read + 2))) else .ok ⟨['0'], read + 1, c :: r⟩
  | _ => digits read t

/-- The point and the digits after it, if there is a point. -/
def fraction (read : Nat) (t : Text) : Except Flaw (Found (Option Text)) :=
  match t with
  | '.' :: r => (digits (read + 1) r).map fun f => ⟨some f.value, f.read, f.rest⟩
  | _ => .ok ⟨none, read, t⟩

/-- A sign, if there is one. -/
def sign (read : Nat) : Text → Found Bool
  | '-' :: t => ⟨true, read + 1, t⟩
  | '+' :: t => ⟨false, read + 1, t⟩
  | t => ⟨false, read, t⟩

/-- The exponent, if there is one. -/
def exponent (read : Nat) (t : Text) : Except Flaw (Found (Option (Bool × Text × Nat))) :=
  match t with
  | c :: r =>
    if c = 'e' ∨ c = 'E' then
      let s := sign (read + 1) r
      (digits s.read s.rest).map fun f => ⟨some (s.value, f.value, s.read), f.read, f.rest⟩
    else .ok ⟨none, read, t⟩
  | [] => .ok ⟨none, read, t⟩

/-- The parts of a number that a minus sign or a digit begins. -/
def parts (read : Nat) (t : Text) : Except Flaw (Found Parts) := do
  let (negative, read, t) := match t with
    | '-' :: r => (true, read + 1, r)
    | _ => (false, read, t)
  let whole ← wholeDigits read t
  let places ← fraction whole.read whole.rest
  let power ← exponent places.read places.rest
  return ⟨⟨negative, whole.value, places.value, power.value⟩, power.read, power.rest⟩

/-! ## The value of a number -/

/-- The greatest number of 64 bits. -/
def wordMax : Nat := 0xFFFFFFFFFFFFFFFF

/-- Takes digits into a number as long as it stays within 64 bits, and says
which digits are left. -/
def accumulate (n : Nat) : Text → Nat × Text
  | [] => (n, [])
  | c :: t =>
    let m := n * 10 + Numeral.value 10 [c]
    if m ≤ wordMax then accumulate m t else (n, c :: t)

/-- The exponent that digits give, or how many digits it takes to go beyond 31 bits. -/
def boundedExponent (n count : Nat) : Text → Except Nat Nat
  | [] => .ok n
  | c :: t =>
    let m := n * 10 + Numeral.value 10 [c]
    if m < 0x80000000 then boundedExponent m (count + 1) t else .error (count + 1)

/-- The power of ten up to which scaling takes one step. -/
def stepPower : Nat := 308

/-- The number nearest to a power of ten. -/
def tenPower (n : Nat) : Binary64 := Binary64.ofDecimal false 1 n

/-- Divides by a power of ten, in steps. After four steps nothing but zero is left. -/
def scaleDown : Nat → Binary64 → Nat → Binary64
  | 0, x, _ => x
  | k + 1, x, n =>
    if n ≤ stepPower then x.div (tenPower n) else scaleDown k (x.div (tenPower stepPower)) (n - stepPower)

/-- The number times a power of ten, unless it is too large. -/
def scale? (x : Binary64) (e : Int) : Option Binary64 :=
  if e < 0 then some (scaleDown 4 x (-e).toNat)
  else if e.toNat ≤ stepPower then
    let y := x.mul (tenPower e.toNat)
    if y.isInfinite then none else some y
  else if x.isZero then some x
  else none

/-- The number with a sign. -/
def signed (negative : Bool) (x : Binary64) : Binary64 := if negative then x.neg else x

/-- The float that the parts of a number make; `read` is where the number ends. -/
def Parts.float (p : Parts) (read : Nat) : Except Fault Binary64 :=
  let places := p.places.getD []
  let (whole, restWhole) := accumulate 0 p.whole
  let (digits, restPlaces) := accumulate whole places
  let start := (restWhole.length : Int) - (places.length - restPlaces.length : Nat)
  let finish (e : Int) : Except Fault Binary64 :=
    match scale? (Binary64.ofDecimal false digits 0) e with
    | some x => .ok (signed p.negative x)
    | none => .error (.misplaced read)
  match p.exponent with
  | none => finish start
  | some (down, ds, place) =>
    match boundedExponent 0 0 ds with
    | .ok n => finish (if down then start - n else start + n)
    | .error count =>
      if digits ≠ 0 ∧ !down then .error (.misplaced (place + count))
      else .ok (Binary64.zero p.negative)

/-- The value of a number; `read` is where the number ends. A negative integer
below 64 bits and the integer `-0` are floats. -/
def Parts.scalar (p : Parts) (read : Nat) : Except Fault Scalar :=
  let n := Numeral.value 10 p.whole
  if p.places.isNone && p.exponent.isNone && n ≤ wordMax then
    if !p.negative then .ok (.integer n)
    else if n = 0 ∨ 0x8000000000000000 < n then .ok (.float (Binary64.ofDecimal true n 0))
    else .ok (.integer (-n))
  else (p.float read).map .float

end BuilderForge.Document.Json
