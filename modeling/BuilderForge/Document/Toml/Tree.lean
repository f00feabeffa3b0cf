import BuilderForge.Document.Basic
import BuilderForge.Document.Toml.Scalar
/-
  TOML tables under construction.

  Tables come about in four ways: by a header of their own, on the way to the
  table of another header, by a dotted key, and inline. How a table came about
  decides who may still add to it, and that is all there is to the rules on
  repeated tables: `enter` goes down to a table, `assign` and the two `open`
  functions say what may happen there.
-/

namespace BuilderForge.Document.Toml

/-- How a table came about. -/
inductive Origin where
  | header
  | passage
  | dotted
  | inline
  deriving DecidableEq, Repr

mutual

/-- A value. The tables of an array of tables are the newest one and those before it. -/
inductive Tree where
  | text (t : Text)
  | atom (a : Atom)
  | array (items : Forest)
  | table (origin : Origin) (entries : Entries)
  | tables (earlier : Forest) (newest : Entries)

/-- The values of an array. -/
inductive Forest where
  | nil
  | cons (t : Tree) (rest : Forest)

/-- The entries of a table. -/
inductive Entries where
  | nil
  | cons (key : Text) (value : Tree) (rest : Entries)

end

namespace Forest

/-- The values with one more at the end. -/
def push (t : Tree) : Forest → Forest
  | nil => cons t nil
  | cons u rest => cons u (rest.push t)

end Forest

namespace Entries

/-- The value at a key. -/
def find? (key : Text) : Entries → Option Tree
  | nil => none
  | cons k v rest => if k = key then some v else rest.find? key

/-- The entries with a value at a key: in place if the key is there, else at the end. -/
def put (key : Text) (value : Tree) : Entries → Entries
  | nil => cons key value nil
  | cons k v rest => if k = key then cons key value rest else cons k v (rest.put key value)

/-- Whether the way down to a table may pass through one of an origin. A dotted
key passes only through tables that have no header. -/
def mayPass (byDots : Bool) (origin : Origin) : Bool :=
  match origin with
  | .inline => false
  | .header => !byDots
  | .passage => true
  | .dotted => true

/-- Does something to the entries of the table at the end of a way down, making
the tables that are missing on the way. Of an array of tables the newest table
is the one to pass through. -/
def enter (byDots : Bool) (act : Origin → Entries → Option Entries) :
    List Text → Origin → Entries → Option Entries
  | [], origin, entries => act origin entries
  | key :: way, _, entries =>
    match entries.find? key with
    | none =>
      let made : Origin := if byDots then .dotted else .passage
      (enter byDots act way made nil).map fun es => entries.put key (.table made es)
    | some (.table origin es) =>
      if mayPass byDots origin then
        (enter byDots act way origin es).map fun es => entries.put key (.table origin es)
      else none
    | some (.tables earlier newest) =>
      (enter byDots act way .header newest).map fun es => entries.put key (.tables earlier es)
    | some _ => none

/-- Puts a value at a new key. A dotted key adds to tables of dotted keys
only, a plain key to any other table. -/
def putNew (isDotted : Bool) (key : Text) (value : Tree) (origin : Origin) (entries : Entries) :
    Option Entries :=
  if (origin = .dotted) ≠ isDotted then none
  else
    match entries.find? key with
    | none => some (entries.put key value)
    | some _ => none

/-- Gives a value to a key with dots, the way down being what stands before the last dot. -/
def assign (key : List Text) (value : Tree) (origin : Origin) (entries : Entries) :
    Option Entries :=
  match key.getLast? with
  | none => none
  | some last =>
    let way := key.dropLast
    enter true (putNew (!way.isEmpty) last value) way origin entries

/-- Opens the table of a header: a new one, or one that was only passed through. -/
def openTable (key : Text) (_ : Origin) (entries : Entries) : Option Entries :=
  match entries.find? key with
  | none => some (entries.put key (.table .header nil))
  | some (.table .passage es) => some (entries.put key (.table .header es))
  | some _ => none

/-- Opens the next table of an array of tables. -/
def openNext (key : Text) (_ : Origin) (entries : Entries) : Option Entries :=
  match entries.find? key with
  | none => some (entries.put key (.tables .nil nil))
  | some (.tables earlier newest) =>
    some (entries.put key (.tables (earlier.push (.table .header newest)) nil))
  | some _ => none

/-- Obeys a header: `next` says whether it opens the next table of an array. -/
def openHeader (next : Bool) (key : List Text) (entries : Entries) : Option Entries :=
  match key.getLast? with
  | none => none
  | some last =>
    enter false (if next then openNext last else openTable last) key.dropLast .header entries

/-- Gives a value to a key in the table of a header. -/
def assignUnder (header key : List Text) (value : Tree) (entries : Entries) : Option Entries :=
  enter false (assign key value) header .header entries

end Entries

/-! ## Trees as nodes -/

/-- The key under which a date or time stands in a table of its own. -/
def momentKey : Text := "$__toml_private_datetime".toList

/-- The table with one key. -/
def singleton (key : Text) (value : Node) : Node :=
  .table .mismatched (.member (.text key) value .mismatched (.ending .closed))

/-- The node of a value without quotes. -/
def Atom.toNode : Atom → Node
  | .bool b => .scalar .mismatched (.bool b)
  | .integer i => .scalar .mismatched (.integer i)
  | .float x => .scalar .mismatched (.float x)
  | .moment t => singleton momentKey (.text t)
  | .valueless => .flawed .mismatched (.fatal .mismatched)

/-- The members with one more, in the order of the keys. -/
def insertMember (key : Text) (value : Node) : Members → Members
  | .member (.text k) v after rest =>
    if k < key then .member (.text k) v after (insertMember key value rest)
    else .member (.text key) value .mismatched (.member (.text k) v after rest)
  | rest => .member (.text key) value .mismatched rest

mutual

/-- The node of a value. -/
def Tree.toNode : Tree → Node
  | .text t => .text t
  | .atom a => a.toNode
  | .array items => .list .mismatched (items.toItems (.ending .closed))
  | .table _ entries => .table .mismatched entries.toMembers
  | .tables earlier newest =>
    .list .mismatched
      (earlier.toItems
        (.item (.table .mismatched newest.toMembers) .mismatched (.ending .closed)))

/-- The items of an array, before others. -/
def Forest.toItems (more : Items) : Forest → Items
  | .nil => more
  | .cons t rest => .item t.toNode .mismatched (rest.toItems more)

/-- The members of a table in the order of their keys. -/
def Entries.toMembers : Entries → Members
  | .nil => .ending .closed
  | .cons key value rest => insertMember key value.toNode rest.toMembers

end

end BuilderForge.Document.Toml
