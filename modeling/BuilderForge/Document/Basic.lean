import BuilderForge.Text.Basic
import BuilderForge.Binary64.Basic
/-
  Documents: nested data as far as a text gives it.

  A document may break off or go wrong somewhere. Its tree then ends in a flaw,
  and whoever reads data out of the tree meets the flaw only if nothing before
  it, in the order of the text, was already not what was wanted. So every node
  keeps what a reader has to report on the spot: `opening` for one who cannot
  begin with such a node, `after` for one who wants a list or table to end.

  Data that nobody wants is skipped, not read, and skipping is less strict: a
  flaw says separately what it means for either.
-/

namespace BuilderForge

/-- Why no data came out of a document. -/
inductive Fault where
  /-- A byte cannot continue the text. `read` counts the bytes up to it, that one included. -/
  | misplaced (read : Nat)
  /-- The text ended too early. -/
  | ended
  /-- The text is well-formed and says something else than what was wanted. -/
  | mismatched
  deriving DecidableEq, Repr

namespace Document

/-- A place where a text goes wrong: what that means for reading, and for
skipping, which passes over some mistakes. -/
structure Flaw where
  reading : Fault
  skipping : Option Fault
  deriving DecidableEq, Repr

/-- The flaw that is the same for reading and for skipping. -/
def Flaw.fatal (f : Fault) : Flaw := ⟨f, some f⟩

/-- A value without parts, texts apart. -/
inductive Scalar where
  | null
  | bool (b : Bool)
  | integer (i : Int)
  | float (x : Binary64)

/-- A key of a table. -/
inductive Key where
  | text (t : Text)
  | flawed (f : Fault)

/-- How a list or table ends. -/
inductive Ending where
  | closed
  | broken (flaw : Flaw)

mutual

/-- A piece of data. The fault `keyless` of a table is what to report if the
table is empty and a key is wanted. A `misspelt` node begins like `null` and
goes on differently. -/
inductive Node where
  | scalar (opening : Fault) (s : Scalar)
  | text (t : Text)
  | list (opening : Fault) (items : Items)
  | table (keyless : Fault) (members : Members)
  | misspelt (opening : Fault) (f : Fault)
  | flawed (opening : Fault) (flaw : Flaw)

/-- The items of a list. -/
inductive Items where
  | ending (e : Ending)
  | item (value : Node) (after : Fault) (rest : Items)

/-- The members of a table. -/
inductive Members where
  | ending (e : Ending)
  | member (key : Key) (value : Node) (after : Fault) (rest : Members)

end

/-- What is reported of a node that is not of the wanted kind. -/
def Node.refuse : Node → Fault
  | .misspelt _ f => f
  | .flawed _ flaw => flaw.reading
  | _ => .mismatched

/-- What is reported of a node that cannot even begin a choice. -/
def Node.opening : Node → Fault
  | .scalar opening _ => opening
  | .list opening _ => opening
  | .misspelt opening _ => opening
  | .flawed opening _ => opening
  | .text _ => .mismatched
  | .table _ _ => .mismatched

/-- What reading meets at the end of a list or table. -/
def Ending.read : Ending → Except Fault Unit
  | .closed => .ok ()
  | .broken flaw => .error flaw.reading

/-- What skipping meets at the end of a list or table. -/
def Ending.skip : Ending → Except Fault Unit
  | .broken ⟨_, some f⟩ => .error f
  | _ => .ok ()

mutual

/-- Passes over a node. -/
def Node.skip : Node → Except Fault Unit
  | .scalar _ _ => .ok ()
  | .text _ => .ok ()
  | .list _ items => items.skip
  | .table _ members => members.skip
  | .misspelt _ f => .error f
  | .flawed _ ⟨_, some f⟩ => .error f
  | .flawed _ ⟨_, none⟩ => .ok ()

/-- Passes over the items of a list. -/
def Items.skip : Items → Except Fault Unit
  | .ending e => e.skip
  | .item value _ rest => do
    value.skip
    rest.skip

/-- Passes over the members of a table. -/
def Members.skip : Members → Except Fault Unit
  | .ending e => e.skip
  | .member _ value _ rest => do
    value.skip
    rest.skip

end

end Document

/-- A document: its tree, and what is wrong with the text after the tree. -/
structure Document where
  root : Document.Node
  trailing : Option Fault

end BuilderForge
