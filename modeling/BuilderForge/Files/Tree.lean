import BuilderForge.Files.Path
import BuilderForge.Text.Utf8
/-
  Trees: the files and directories that there are.

  Everything in a tree has a location, which is the list of the names on the
  way to it from the root. The root is always a directory. A path that does
  not begin at the root begins at the workplace. Following a path means going
  from directory to directory: every segment, also an empty one or a dot, needs
  a directory to start from.

  A tree may have limits on the bytes of names and paths. A path beyond them
  leads nowhere, and nothing gets a name beyond them.
-/

namespace BuilderForge

/-- What a location holds. -/
inductive Entry where
  | file (bytes : List UInt8)
  | directory
  deriving DecidableEq, Repr

/-- The names on the way from the root to a place. -/
abbrev Location := List Text

/-- How many bytes a name and a path may have; `none` is any number. -/
structure Limits where
  name : Option Nat
  path : Option Nat
  deriving DecidableEq, Repr

namespace Limits

/-- No limits. -/
def unlimited : Limits := ⟨none, none⟩

/-- The usual limits: names of 255 bytes, paths of 4095. -/
def usual : Limits := ⟨some 255, some 4095⟩

/-- Whether a text keeps to a limit. -/
def isKept (limit : Option Nat) (s : Text) : Bool := limit.all fun n => Text.byteSize s ≤ n

end Limits

/-- Files and directories, the directory where paths begin, and the limits. -/
structure Tree where
  workplace : Location
  limits : Limits
  entries : List (Location × Entry)

namespace Tree

/-- What a location holds. -/
def entry? (t : Tree) (l : Location) : Option Entry :=
  if l = [] then some .directory else (t.entries.find? fun e => e.1 = l).map Prod.snd

/-- The entries with one location holding something else. -/
def putEntry (l : Location) (e : Entry) : List (Location × Entry) → List (Location × Entry)
  | [] => [(l, e)]
  | (k, d) :: rest => if k = l then (l, e) :: rest else (k, d) :: putEntry l e rest

/-- The tree with one location holding something else. -/
def put (t : Tree) (l : Location) (e : Entry) : Tree := { t with entries := putEntry l e t.entries }

/-- Whether a location is a directory. -/
def isDirectory (t : Tree) (l : Location) : Bool := t.entry? l = some .directory

/-- Where a path begins. -/
def start (t : Tree) (p : Text) : Location := if Path.isAbsolute p then [] else t.workplace

/-- Where a segment leads from a directory, if that is somewhere. -/
def step (t : Tree) (l : Location) (s : Text) : Option Location :=
  if !t.isDirectory l then none
  else if s = [] ∨ s = Path.here then some l
  else if s = Path.up then some l.dropLast
  else if (t.entry? (l ++ [s])).isSome then some (l ++ [s])
  else none

/-- Where segments lead one after the other. -/
def walk (t : Tree) : Location → List Text → Option Location
  | l, [] => some l
  | l, s :: rest =>
    match t.step l s with
    | some m => t.walk m rest
    | none => none

/-- Whether a text can be a path at all. -/
def isPath (t : Tree) (p : Text) : Bool :=
  p ≠ [] && !p.contains (Char.ofNat 0) && Limits.isKept t.limits.path p

/-- Whether something may be given a name. -/
def isName (t : Tree) (s : Text) : Bool := Limits.isKept t.limits.name s

/-- The location that a path leads to. -/
def locate (t : Tree) (p : Text) : Option Location :=
  if t.isPath p then t.walk (t.start p) (Path.segments p) else none

/-- Whether a path leads anywhere. -/
def reaches (t : Tree) (p : Text) : Bool := (t.locate p).isSome

/-- The bytes of the file that a path leads to. -/
def read? (t : Tree) (p : Text) : Option (List UInt8) :=
  match (t.locate p).bind t.entry? with
  | some (.file bytes) => some bytes
  | _ => none

/-! ## Changes -/

/-- Makes the directories that segments name, each below the one before. Those
that were made stay even if one further on cannot be made. -/
def makeDirectories (t : Tree) (l : Location) : List Text → Tree × Bool
  | [] => (t, true)
  | s :: rest =>
    if s = [] ∨ s = Path.here then t.makeDirectories l rest
    else if s = Path.up then t.makeDirectories l.dropLast rest
    else
      match t.entry? (l ++ [s]) with
      | none =>
        if t.isName s then (t.put (l ++ [s]) .directory).makeDirectories (l ++ [s]) rest
        else (t, false)
      | some .directory => t.makeDirectories (l ++ [s]) rest
      | some (.file _) => (t, false)

/-- Makes the directory of a path and those above it. -/
def makeDirectory (t : Tree) (p : Text) : Tree × Bool :=
  if p = [] then (t, true)
  else if t.isPath p then t.makeDirectories (t.start p) (Path.segments p)
  else (t, false)

/-- The location where a path wants a file to be: a name in a directory. -/
def target? (t : Tree) (p : Text) : Option Location :=
  match (Path.segments p).getLast? with
  | none => none
  | some name =>
    if !t.isPath p || !t.isName name || name = [] || name = Path.here || name = Path.up then none
    else
      match t.walk (t.start p) (Path.segments p).dropLast with
      | none => none
      | some l =>
        if t.isDirectory l && !t.isDirectory (l ++ [name]) then some (l ++ [name]) else none

/-- The tree with a file at a path, in a directory that is there. -/
def writeFile? (t : Tree) (p : Text) (bytes : List UInt8) : Option Tree :=
  (t.target? p).map fun l => t.put l (.file bytes)

/-- What lies below a location, each with the rest of the way to it. -/
def below (t : Tree) (l : Location) : List (Location × Entry) :=
  t.entries.filterMap fun e =>
    match l.isPrefixOf? e.1 with
    | some (s :: rest) => some (s :: rest, e.2)
    | _ => none

end Tree

end BuilderForge
