import BuilderForge.Text.Basic
/-
  Fragments of code: lines and blocks without any indentation of their own.

  A fragment says which lines belong together and how deep they are nested;
  `BuilderForge.Code.Writer` turns it into indented text.
-/

namespace BuilderForge.Code

/-- A piece of code whose nesting is known and whose indentation is not. -/
inductive Fragment where
  | line (s : Text)
  | blank
  | indent (body : List Fragment)
  | block (header : Text) (body : List Fragment) (close : Option Text)

/-- What one level of indentation looks like. -/
inductive Indent where
  | spaces (width : Nat)
  | tab
  deriving DecidableEq, Repr

/-- The characters of one level. Widths of two, four and eight are taken as
they are, and any other width is four. -/
def Indent.unit : Indent → Text
  | .spaces n => List.replicate (if n = 2 ∨ n = 8 then n else 4) ' '
  | .tab => ['\t']

end BuilderForge.Code
