import BuilderForge.Text.Utf8
/-
  Positions: places in a text by line and column, and by offset.

  Lines and columns count from one, columns and offsets in bytes. `position`
  says where a number of bytes ends, `offset?` where a line and column lie.
-/

namespace BuilderForge.Text

/-- A place in a text: a line, and a column in bytes. -/
structure Position where
  line : Nat
  column : Nat
  deriving DecidableEq, Repr

/-- The position of the last one of `read` more bytes after a position. -/
def advance (p : Position) (read : Nat) : Text → Position
  | [] => p
  | c :: t =>
    if read < c.utf8Size then { p with column := p.column + read }
    else if c = '\n' then advance ⟨p.line + 1, 0⟩ (read - c.utf8Size) t
    else advance { p with column := p.column + c.utf8Size } (read - c.utf8Size) t

/-- The position of the last one of the first `read` bytes. Column zero means
the line feed before the line. -/
def position (read : Nat) (t : Text) : Position := advance ⟨1, 0⟩ read t

/-- The number of bytes of the first `count` lines with their ends. -/
def lineStart : Nat → Text → Nat
  | 0, _ => 0
  | _ + 1, [] => 0
  | count + 1, c :: t => c.utf8Size + lineStart (if c = '\n' then count else count + 1) t

/-- The offset of a position, if it lies inside the text. -/
def offset? (p : Position) (t : Text) : Option Nat :=
  let offset := lineStart (p.line - 1) t + (p.column - 1)
  if p.line ≠ 0 ∧ offset < byteSize t then some offset else none

end BuilderForge.Text
