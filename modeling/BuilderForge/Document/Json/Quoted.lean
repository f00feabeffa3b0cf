import BuilderForge.Text.Numeral
import BuilderForge.Text.Utf8
import BuilderForge.Document.Basic
/-
  JSON strings.

  A string is read or skipped. Reading combines a pair of surrogate escapes to
  one character and refuses a surrogate that is alone; skipping only looks for
  the end. Both count the bytes they pass, so that a fault has its place.
-/

namespace BuilderForge.Document.Json

/-- What is found in a text: a value, the number of bytes read so far, and what is left. -/
structure Found (α : Type) where
  value : α
  read : Nat
  rest : Text

/-- Adds a character in front of a text that was found. -/
def Found.push (c : Char) (f : Found Text) : Found Text := { f with value := c :: f.value }

/-- The character of a one-letter escape. -/
def shortEscape? (c : Char) : Option Char :=
  if c = '"' ∨ c = '\\' ∨ c = '/' then some c
  else if c = 'b' then some (Char.ofNat 8)
  else if c = 'f' then some (Char.ofNat 12)
  else if c = 'n' then some '\n'
  else if c = 'r' then some '\r'
  else if c = 't' then some '\t'
  else none

/-- Whether a code is the first half of a pair of surrogates. -/
def isLeading (n : Nat) : Bool := 0xD800 ≤ n && n < 0xDC00

/-- Whether a code is the second half of a pair of surrogates. -/
def isTrailing (n : Nat) : Bool := 0xDC00 ≤ n && n < 0xE000

/-- The character of a pair of surrogates. -/
def combine (leading trailing : Nat) : Char :=
  Char.ofNat (0x10000 + (leading - 0xD800) * 0x400 + (trailing - 0xDC00))

/-- Whether all characters are hexadecimal digits. -/
def isHex (ds : Text) : Bool := ds.all (Numeral.isDigitOf 16)

/-- What is wrong with a numeric escape whose four digits do not follow,
`read` bytes having been read. -/
def digitsFault (read : Nat) (t : Text) : Fault :=
  if Text.byteSize t < 4 then .ended else .misplaced (read + 4)

/-- Reads a string after its opening quote. `leading` is the surrogate just
before, if the second half of its pair has to follow. -/
def readQuoted (leading : Option Nat) (read : Nat) : Text → Except Fault (Found Text)
  | [] => .error .ended
  | '\\' :: 'u' :: t =>
    match t with
    | a :: b :: c :: d :: r =>
      if isHex [a, b, c, d] then
        let code := Numeral.value 16 [a, b, c, d]
        match leading with
        | some first =>
          if isTrailing code then
            (readQuoted none (read + 6) r).map (Found.push (combine first code))
          else .error (.misplaced (read + 6))
        | none =>
          if isLeading code then readQuoted (some code) (read + 6) r
          else if isTrailing code then .error (.misplaced (read + 6))
          else (readQuoted none (read + 6) r).map (Found.push (Char.ofNat code))
      else .error (digitsFault (read + 2) t)
    | _ => .error (digitsFault (read + 2) t)
  | '\\' :: c :: t =>
    match leading, shortEscape? c with
    | none, some e => (readQuoted none (read + 2) t).map (Found.push e)
    | _, _ => .error (.misplaced (read + 2))
  | ['\\'] => .error .ended
  | c :: t =>
    if leading.isSome then .error (.misplaced (read + 1))
    else if c = '"' then .ok ⟨[], read + 1, t⟩
    else if c.toNat < 0x20 then .error (.misplaced (read + 1))
    else (readQuoted none (read + c.utf8Size) t).map (Found.push c)

/-- Skips a string after its opening quote. -/
def skipQuoted (read : Nat) : Text → Except Fault (Found Unit)
  | [] => .error .ended
  | '\\' :: 'u' :: t =>
    match t with
    | a :: b :: c :: d :: r =>
      if isHex [a, b, c, d] then skipQuoted (read + 6) r else .error (digitsFault (read + 2) t)
    | _ => .error (digitsFault (read + 2) t)
  | '\\' :: c :: t =>
    if (shortEscape? c).isSome then skipQuoted (read + 2) t else .error (.misplaced (read + 2))
  | ['\\'] => .error .ended
  | c :: t =>
    if c = '"' then .ok ⟨(), read + 1, t⟩
    else if c.toNat < 0x20 then .error (.misplaced read)
    else skipQuoted (read + c.utf8Size) t

/-- A string as it stands in a document. Its value is missing if it can be
skipped only; nothing follows if it cannot be skipped either. -/
def quoted (read : Nat) (t : Text) : Except Flaw (Found (Except Fault Text)) :=
  match readQuoted none read t, skipQuoted read t with
  | .ok found, _ => .ok ⟨.ok found.value, found.read, found.rest⟩
  | .error f, .ok found => .ok ⟨.error f, found.read, found.rest⟩
  | .error f, .error g => .error ⟨f, some g⟩

end BuilderForge.Document.Json
