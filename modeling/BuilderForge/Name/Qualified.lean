import BuilderForge.Text.Basic
/-
  Qualified names: labels with a separator `\` between them.

  A name may be written with one separator in front, which says that it is
  complete; `stripSeparator` removes that one and no more. `split` cuts the
  name at its last separator into namespace and short name, and `qualify` puts
  the two together again. The empty namespace is the global one.
-/

namespace BuilderForge.Name

/-- The character between the labels of a name. -/
def separator : Char := '\\'

/-- The name without one separator in front. -/
def stripSeparator : Text → Text
  | [] => []
  | c :: t => if c = separator then t else c :: t

/-- The namespace and the short name of a name. -/
def split (name : Text) : Text × Text :=
  (Text.cutLast separator (stripSeparator name)).getD ([], stripSeparator name)

/-- The namespace of a name; empty if the name has none. -/
def scope (name : Text) : Text := (split name).1

/-- The last label of a name. -/
def short (name : Text) : Text := (split name).2

/-- The name `short` in the namespace `scope`. -/
def qualify (scope short : Text) : Text :=
  if scope = [] then short else scope ++ separator :: short

end BuilderForge.Name
