import BuilderForge.Text.Position
import BuilderForge.Document.Basic
/-
  Labels: the places in a source text that a report points at.

  A name is found where it stands between quotes: as it is, in either kind, or
  with its backslashes doubled, in double quotes. A fault is found where its
  last byte lies.
-/

namespace BuilderForge

/-- A stretch of a text, in bytes. -/
structure Span where
  offset : Nat
  length : Nat
  deriving DecidableEq, Repr

/-- A stretch of a text with a remark. -/
structure Label where
  text : Text
  span : Span
  deriving DecidableEq, Repr

namespace Label

/-! ## Quoted names -/

/-- The offsets of a pattern in a text whose first character has the offset
`offset`. The first `covered` characters belong to a pattern found before. -/
def occurrences (pattern : Text) (covered offset : Nat) : Text → List Nat
  | [] => []
  | c :: t =>
    match covered with
    | n + 1 => occurrences pattern n (offset + c.utf8Size) t
    | 0 =>
      if pattern.isPrefixOf (c :: t) then
        offset :: occurrences pattern (pattern.length - 1) (offset + c.utf8Size) t
      else occurrences pattern 0 (offset + c.utf8Size) t

/-- The name with its backslashes doubled. -/
def doubled (name : Text) : Text := name.flatMap fun c => if c = '\\' then [c, c] else [c]

/-- The stretches inside the quotes where a text stands between two of them. -/
def quotedSpans (quote : Char) (inner source : Text) : List Span :=
  (occurrences (quote :: inner ++ [quote]) 0 0 source).map fun o => ⟨o + 1, Text.byteSize inner⟩

/-- The spans without those that begin where the one before begins; `last` is
where the one before the first begins. -/
def distinct (last : Option Nat) : List Span → List Span
  | [] => []
  | s :: rest =>
    if some s.offset = last then distinct last rest else s :: distinct (some s.offset) rest

/-- The places of a name in a source, in their order. -/
def places (name source : Text) : List Span :=
  if name = [] then []
  else
    distinct none ((quotedSpans '"' name source ++ quotedSpans '"' (doubled name) source ++
      quotedSpans '\'' name source).mergeSort fun a b => a.offset ≤ b.offset)

/-- The remarks, each at its place; remarks without a place are dropped. -/
def attach (texts : List Text) (name source : Text) : List Label :=
  List.zipWith (fun t s => ⟨t, s⟩) texts (places name source)

/-! ## Faults -/

/-- The offset of the last byte of a fault. -/
def faultOffset? (source : Text) : Fault → Option Nat
  | .misplaced read => Text.offset? (Text.position read source) source
  | .ended => Text.offset? (Text.position (Text.byteSize source) source) source
  | .mismatched => none

/-- The label of a fault. -/
def ofFault (source : Text) (f : Fault) : List Label :=
  (faultOffset? source f).toList.map fun o => ⟨"parse error here".toList, ⟨o, 1⟩⟩

end Label

end BuilderForge
