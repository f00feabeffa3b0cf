import BuilderForge.Text.Utf8
import BuilderForge.Text.Numeral
import BuilderForge.Binary64.Notation
import BuilderForge.Value.Basic
/-
  Values as PHP source text.

  A string is single-quoted unless it holds a control character; then it is
  double-quoted and every control character is an escape, so a literal never
  spans lines. A float always has a point or is a named constant, which keeps
  it apart from an integer. A map key that is the written form of an integer
  stands bare, since PHP makes such a key an integer anyway.
-/

namespace BuilderForge.Value

/-- Whether a character is a control character. -/
def isControl (c : Char) : Bool := c.toNat < 0x20 || (0x7F ≤ c.toNat && c.toNat < 0xA0)

/-- A character inside single quotes. -/
def singleQuotedChar (c : Char) : Text :=
  if c = '\\' ∨ c = '\'' then ['\\', c] else [c]

/-- A character inside double quotes. -/
def doubleQuotedChar (c : Char) : Text :=
  if c = '\n' then ['\\', 'n']
  else if c = '\r' then ['\\', 'r']
  else if c = '\t' then ['\\', 't']
  else if c = Char.ofNat 0x0B then ['\\', 'v']
  else if c = Char.ofNat 0x0C then ['\\', 'f']
  else if c = Char.ofNat 0x1B then ['\\', 'e']
  else if c = '\\' ∨ c = '"' ∨ c = '$' then ['\\', c]
  else if isControl c then (Text.encodeChar c).flatMap fun b => '\\' :: 'x' :: Numeral.hexByte b
  else [c]

/-- A string literal. -/
def quoted (s : Text) : Text :=
  if s.any isControl then '"' :: (s.flatMap doubleQuotedChar ++ ['"'])
  else '\'' :: (s.flatMap singleQuotedChar ++ ['\''])

/-- A float literal. -/
def floatLiteral (x : Binary64) : Text :=
  if x.isNaN then "NAN".toList
  else if x.isInfinite then (if x.negative then "-INF".toList else "INF".toList)
  else
    let t := x.text
    if '.' ∈ t then t else t ++ ['.', '0']

/-- The key of an array entry. -/
def keyLiteral (key : Text) : Text :=
  if Numeral.isCanonical key then key else quoted key

mutual

/-- The PHP source text of a value. -/
def literal : Value → Text
  | .null => "null".toList
  | .bool true => "true".toList
  | .bool false => "false".toList
  | .int i => Numeral.ofInt i.toInt
  | .float x => floatLiteral x
  | .string s => quoted s
  | .list items => '[' :: (Text.join [',', ' '] (itemLiterals items) ++ [']'])
  | .map entries => '[' :: (Text.join [',', ' '] (entryLiterals entries) ++ [']'])

/-- The source texts of the items of a list. -/
def itemLiterals : List Value → List Text
  | [] => []
  | v :: vs => literal v :: itemLiterals vs

/-- The source texts of the entries of a map. -/
def entryLiterals : List (Text × Value) → List Text
  | [] => []
  | (k, v) :: rest => (keyLiteral k ++ " => ".toList ++ literal v) :: entryLiterals rest

end

end BuilderForge.Value
