import BuilderForge.Text.Numeral
import BuilderForge.Binary64.Rounding
import BuilderForge.Binary64.Shortest
/-
  Floating-point numbers as text.

  `text` writes the shortest digits that identify the number, always in
  positional notation: no exponent, no point in an integral number, a minus
  sign also for the negative zero. `ofText?` reads that notation and more: an
  exponent, a missing integral or fractional part, and the words for the
  infinities and for the value that is no number.
-/

namespace BuilderForge.Binary64

/-- A decimal in positional notation. -/
def Decimal.positional (d : Decimal) : Text :=
  let ds := Numeral.ofNat d.digits
  if 0 ≤ d.exponent then ds ++ List.replicate d.exponent.toNat '0'
  else
    let places := (-d.exponent).toNat
    if places < ds.length then ds.take (ds.length - places) ++ '.' :: ds.drop (ds.length - places)
    else '0' :: '.' :: (List.replicate (places - ds.length) '0' ++ ds)

/-- The text of a number. -/
def text (x : Binary64) : Text :=
  if x.isNaN then "NaN".toList
  else
    let magnitude :=
      if x.isInfinite then "inf".toList
      else if x.isZero then ['0']
      else x.shortest.positional
    if x.negative then '-' :: magnitude else magnitude

/-- The exponent that a text gives: `e` or `E`, a sign if any, and digits. The
empty text gives zero. -/
def exponent? : Text → Option Int
  | [] => some 0
  | c :: t =>
    if c = 'e' ∨ c = 'E' then
      match t with
      | '-' :: ds => (Numeral.nat? ds).map fun n => -(n : Int)
      | '+' :: ds => (Numeral.nat? ds).map fun n => (n : Int)
      | ds => (Numeral.nat? ds).map fun n => (n : Int)
    else none

/-- The number that an unsigned text stands for. -/
def magnitude? (negative : Bool) (t : Text) : Option Binary64 :=
  let word := Text.fold t
  if word = "nan".toList then some { nan with negative := negative }
  else if word = "inf".toList ∨ word = "infinity".toList then some (infinity negative)
  else
    let whole := t.takeWhile Char.isDigit
    let rest := t.dropWhile Char.isDigit
    let (places, rest) :=
      match rest with
      | '.' :: r => (r.takeWhile Char.isDigit, r.dropWhile Char.isDigit)
      | r => ([], r)
    if whole = [] ∧ places = [] then none
    else
      (exponent? rest).map fun e =>
        ofDecimal negative (Numeral.value 10 (whole ++ places)) (e - places.length)

/-- The number that a text stands for. -/
def ofText? : Text → Option Binary64
  | '-' :: t => magnitude? true t
  | '+' :: t => magnitude? false t
  | t => magnitude? false t

end BuilderForge.Binary64
