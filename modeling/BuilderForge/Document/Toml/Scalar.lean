import BuilderForge.Binary64.Notation
import BuilderForge.Document.Toml.Lexeme
/-
  TOML values without quotes: truth values, numbers, dates and times.

  The form of a number is checked where the number stands, its value only when
  somebody wants it. So a number can be well-formed and have no value: a base
  is announced and no digit follows, letters stand among the digits after an
  underscore, an integer has more than 128 bits, or a float is beyond the
  finite range. Nothing is said about such a number unless it is read or
  skipped. Integers of more than 64 bits are left to whoever wants an integer.

  A date or time is given back as a text in one form: a `T` before the time,
  seconds in any case, `Z` for the offset zero that is written so, and no more
  digits in a fraction than it needs.
-/

namespace BuilderForge.Document.Toml

/-- A value that is written without quotes. -/
inductive Atom where
  | bool (b : Bool)
  | integer (i : Int)
  | float (x : Binary64)
  | moment (t : Text)
  /-- A number without a value. -/
  | valueless

/-! ## Numbers -/

/-- Whether the groups between the underscores of a number are in order: every
one but the last ends in a digit, and every one but the first begins with one. -/
def areGroups (isDigit : Char → Bool) : List Text → Bool
  | [] => true
  | [_] => true
  | g :: h :: rest =>
    g.getLast?.any isDigit && h.head?.any isDigit && areGroups isDigit (h :: rest)

/-- Whether every underscore of a number stands between two digits. -/
def isGrouped (isDigit : Char → Bool) (t : Text) : Bool := areGroups isDigit (Text.pieces '_' t)

/-- The text without its underscores. -/
def ungroup (t : Text) : Text := t.filter (· ≠ '_')

/-- Whether there is a minus sign, and the text after the sign. -/
def cutSign : Text → Bool × Text
  | '-' :: t => (true, t)
  | '+' :: t => (false, t)
  | t => (false, t)

/-- Whether an integer has at most 128 bits, with a sign or without. -/
def isWide (i : Int) : Bool :=
  -0x80000000000000000000000000000000 ≤ i && i < 0x100000000000000000000000000000000

/-- The integer of digits after a sign. -/
def integerOf (base : Nat) (negative : Bool) (ds : Text) : Atom :=
  let n := Numeral.value base ds
  let i : Int := if negative then -n else n
  if ds ≠ [] ∧ ds.all (Numeral.isDigitOf base) ∧ isWide i then .integer i else .valueless

/-- The base that a letter after a zero announces. -/
def base? (c : Char) : Option Nat :=
  if c = 'x' then some 16 else if c = 'o' then some 8 else if c = 'b' then some 2 else none

/-- An integer in a base that is announced. -/
def basedInteger? : Text → Option Atom
  | '0' :: c :: t =>
    (base? c).bind fun base =>
      if (ungroup t).all (Numeral.isDigitOf base) && isGrouped (Numeral.isDigitOf 16) t then
        some (integerOf base false (ungroup t))
      else none
  | _ => none

/-- An integer in base ten. It is all digits, or digits and then an underscore
and anything. It does not begin with a superfluous zero. -/
def decimalInteger? (t : Text) : Option Atom :=
  match cutSign t with
  | (negative, u) =>
    let rest := u.dropWhile Char.isDigit
    let isZeroPadded := u.head? = some '0' && u ≠ ['0']
    let isInteger := (u ≠ [] && rest = []) || rest.head? = some '_'
    if isInteger && !isZeroPadded && isGrouped (Numeral.isDigitOf 16) t then
      some (integerOf 10 negative (ungroup u))
    else none

/-- The exponent after its letter. -/
def exponent? (t : Text) : Option Int :=
  match cutSign t with
  | (negative, ds) => (Numeral.nat? ds).map fun n => if negative then -(n : Int) else n

/-- The text before the first character of a kind, and the text after it if there is one. -/
def cutAt (p : Char → Bool) (t : Text) : Text × Option Text :=
  (t.takeWhile fun c => !p c, (t.dropWhile fun c => !p c).tail?)

/-- Whether a character begins an exponent. -/
def isExponentMark (c : Char) : Bool := c = 'e' || c = 'E'

/-- A float with a fraction or an exponent. Its integral part does not begin
with a superfluous zero. -/
def decimalFloat? (t : Text) : Option Atom :=
  match cutSign t with
  | (negative, u) => do
    let (mantissa, power) := cutAt isExponentMark (ungroup u)
    let (whole, places) := cutAt (· = '.') mantissa
    let places ← match places with
      | some ds => (Numeral.nat? ds).map fun _ => ds
      | none => some []
    let e ← match power with
      | some ds => exponent? ds
      | none => some 0
    if (Numeral.nat? whole).isNone || (u.head? = some '0' && 1 < whole.length) ||
        !isGrouped Char.isDigit t then none
    else
      let x := Binary64.ofDecimal negative (Numeral.value 10 (whole ++ places)) (e - places.length)
      return (if x.isInfinite then .valueless else .float x)

/-- An infinity, or the value that is no number. -/
def special? (t : Text) : Option Atom :=
  match cutSign t with
  | (negative, u) =>
    if u = "inf".toList then some (.float (Binary64.infinity negative))
    else if u = "nan".toList then some (.float { Binary64.nan with negative := negative })
    else none

/-- A number in base ten. A point or the letter of an exponent makes it a float. -/
def decimal? (t : Text) : Option Atom :=
  if t.any fun c => c = '.' || isExponentMark c then decimalFloat? t else decimalInteger? t

/-! ## Dates and times -/

/-- A number of two digits in a range. -/
def pair? (low high : Nat) (a b : Char) : Option Nat :=
  if a.isDigit && b.isDigit then
    let n := Numeral.value 10 [a, b]
    if low ≤ n ∧ n ≤ high then some n else none
  else none

/-- Whether a year has a 29th of February. -/
def isLeap (year : Nat) : Bool := year % 4 = 0 && (year % 100 ≠ 0 || year % 400 = 0)

/-- The number of days of a month. -/
def daysOf (year month : Nat) : Nat :=
  if month = 2 then if isLeap year then 29 else 28
  else if month = 4 ∨ month = 6 ∨ month = 9 ∨ month = 11 then 30
  else 31

/-- A date at the start of a text. -/
def date? : Text → Option (Text × Text)
  | a :: b :: c :: d :: '-' :: e :: f :: '-' :: g :: h :: t =>
    if [a, b, c, d].all Char.isDigit then do
      let month ← pair? 1 12 e f
      let _ ← pair? 1 (daysOf (Numeral.value 10 [a, b, c, d]) month) g h
      return ([a, b, c, d, '-', e, f, '-', g, h], t)
    else none
  | _ => none

/-- A fraction of a second in at most nine digits without zeros at its end. A
fraction of nothing is left out. -/
def fractionText (ds : Text) : Text :=
  let kept := ((ds.take 9).reverse.dropWhile (· = '0')).reverse
  if kept = [] then [] else '.' :: kept

/-- Seconds at the start of a text; zero if none are written. -/
def seconds? : Text → Option (Text × Text)
  | ':' :: a :: b :: t => do
    let _ ← pair? 0 60 a b
    match t with
    | '.' :: r =>
      let ds := r.takeWhile Char.isDigit
      if ds = [] then none
      else return (':' :: a :: b :: fractionText ds, r.dropWhile Char.isDigit)
    | _ => return ([':', a, b], t)
  | t => some ([':', '0', '0'], t)

/-- A time at the start of a text. -/
def time? : Text → Option (Text × Text)
  | a :: b :: ':' :: c :: d :: t => do
    let _ ← pair? 0 23 a b
    let _ ← pair? 0 59 c d
    let (seconds, rest) ← seconds? t
    return (a :: b :: ':' :: c :: d :: seconds, rest)
  | _ => none

/-- An offset from universal time, which may be missing and is all that is left. -/
def offset? : Text → Option Text
  | [] => some []
  | ['Z'] => some ['Z']
  | ['z'] => some ['Z']
  | [s, a, b, ':', c, d] => do
    let hours ← pair? 0 23 a b
    let minutes ← pair? 0 59 c d
    if s = '+' then return ['+', a, b, ':', c, d]
    else if s = '-' then
      return (if hours = 0 ∧ minutes = 0 then '+' else '-') :: [a, b, ':', c, d]
    else none
  | _ => none

/-- Whether a character stands between date and time. -/
def isDateSeparator (c : Char) : Bool := c = 'T' || c = 't' || c = ' '

/-- A date, a time, or both. -/
def moment? (t : Text) : Option Text :=
  match date? t with
  | some (date, []) => some date
  | some (date, c :: r) =>
    if isDateSeparator c then do
      let (time, rest) ← time? r
      let offset ← offset? rest
      return date ++ 'T' :: time ++ offset
    else none
  | none => (time? t).bind fun r => if r.2 = [] then some r.1 else none

/-! ## Atoms -/

/-- Whether a character may stand in a value without quotes. A quote may, unless
the value begins with it. -/
def isAtomChar (c : Char) : Bool :=
  !(['=', ',', '[', ']', '\x7b', '\x7d', ' ', '\t', '#', '\r', '\n'].contains c)

/-- The text of a value without quotes, and what is left. A blank after a date
is part of it if a time follows. -/
def cutAtom (t : Text) : Text × Text :=
  let word := t.takeWhile isAtomChar
  match date? word, t.dropWhile isAtomChar with
  | some (_, []), ' ' :: r =>
    if (r.head?.map Char.isDigit).getD false then
      (word ++ ' ' :: r.takeWhile isAtomChar, r.dropWhile isAtomChar)
    else (word, ' ' :: r)
  | _, rest => (word, rest)

/-- The value of a text. -/
def atom? (t : Text) : Option Atom :=
  if t = "true".toList then some (.bool true)
  else if t = "false".toList then some (.bool false)
  else
    basedInteger? t <|> special? t <|> (moment? t).map .moment <|> decimal? t

end BuilderForge.Document.Toml
