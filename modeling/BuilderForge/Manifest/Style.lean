import BuilderForge.Php.Page
/-
  Styles: the two layouts that a user can ask for, and their names.
-/

namespace BuilderForge

/-- A layout with a name. -/
inductive Style where
  | psr
  | nette
  deriving DecidableEq, Repr

namespace Style

/-- The name of a style. -/
def text : Style → Text
  | .psr => "psr".toList
  | .nette => "nette".toList

/-- The style that a user asks for, in any case of the letters A to Z. -/
def ofText? (t : Text) : Option Style :=
  let word := Text.fold t
  if word = "psr".toList ∨ word = "psr12".toList then some .psr
  else if word = "nette".toList then some .nette
  else none

/-- What is said of a text that is no style. -/
def unknownMessage (t : Text) : Text :=
  "unknown printer '".toList ++ t ++ "', expected 'psr' or 'nette'".toList

/-- The layout of a style: four spaces and one blank line between methods, or
a tab and two. -/
def layout : Style → Php.Layout
  | .psr => ⟨.spaces 4, 1⟩
  | .nette => ⟨.tab, 2⟩

end Style

end BuilderForge
