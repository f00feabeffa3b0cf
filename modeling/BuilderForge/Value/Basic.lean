import BuilderForge.Text.Basic
import BuilderForge.Binary64.Basic
/-
  Values: what a default in a manifest stands for.

  A value is a scalar, a list, or a map from text keys. A map keeps its entries
  in the order in which their keys first came, and a key that comes again
  changes the value at its place; `insertEntry` is that rule.
-/

namespace BuilderForge

/-- A literal PHP value. Integers are those of 64 bits. -/
inductive Value where
  | null
  | bool (b : Bool)
  | int (i : Int64)
  | float (x : Binary64)
  | string (s : Text)
  | list (items : List Value)
  | map (entries : List (Text × Value))

namespace Value

/-- The entries with `value` at `key`: in place if the key is there, else at the end. -/
def insertEntry (key : Text) (value : Value) : List (Text × Value) → List (Text × Value)
  | [] => [(key, value)]
  | (k, v) :: rest =>
    if k = key then (key, value) :: rest else (k, v) :: insertEntry key value rest

/-- The map that entries given one after the other make. -/
def ofEntries (entries : List (Text × Value)) : Value :=
  .map (entries.foldl (fun acc e => insertEntry e.1 e.2 acc) [])

end Value

end BuilderForge
