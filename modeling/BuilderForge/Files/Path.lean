import BuilderForge.Text.Basic
/-
  Paths: names of files as they are written.

  A path is a list of segments with slashes between them. Empty segments and
  dots say nothing, except for a dot at the start, so the components of a path
  are fewer than its segments. The functions here look at the text alone; what
  a path leads to is a matter of the tree.
-/

namespace BuilderForge.Path

/-- The character between the segments of a path. -/
def slash : Char := '/'

/-- The segments of a path. -/
def segments (p : Text) : List Text := Text.pieces slash p

/-- Whether a path begins at the root. -/
def isAbsolute (p : Text) : Bool := p.head? = some slash

/-- The segment that stays where it is. -/
def here : Text := ['.']

/-- The segment that goes up. -/
def up : Text := ['.', '.']

/-- Whether a segment is a component; `isHead` says that it begins the path. -/
def isComponent (isHead : Bool) (s : Text) : Bool := s ≠ [] && (s ≠ here || isHead)

/-- The segments up to the last component. -/
def trimEnd (isHead : Bool) : List Text → List Text
  | [] => []
  | s :: rest =>
    match trimEnd false rest with
    | [] => if isComponent isHead s then [s] else []
    | kept => s :: kept

/-- The path up to its last component, without that component. A path without
components has none. -/
def parent? (p : Text) : Option Text :=
  match trimEnd true (segments p) with
  | [] => none
  | kept =>
    match trimEnd true kept.dropLast with
    | [] => some (if isAbsolute p then [slash] else [])
    | above => some (Text.join [slash] above)

/-- The last component of a path if it is a name. -/
def fileName? (p : Text) : Option Text :=
  (trimEnd true (segments p)).getLast?.filter fun s => s ≠ here && s ≠ up

/-- What follows the last dot of the file name. A dot that begins the name does not count. -/
def extension? (p : Text) : Option Text :=
  match (fileName? p).bind (Text.cutLast '.') with
  | some (_ :: _, after) => some after
  | _ => none

/-- The path of something below a directory. -/
def join (base p : Text) : Text :=
  if isAbsolute p ∨ base = [] then p
  else if base.getLast? = some slash then base ++ p
  else base ++ slash :: p

end BuilderForge.Path
