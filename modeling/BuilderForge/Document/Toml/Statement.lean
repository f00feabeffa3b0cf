import BuilderForge.Document.Toml.Tree
/-
  TOML statements: headers and assignments, line by line.

  A statement either opens the table of a header or gives a value to a key in
  the table opened last. The bounds on nesting and on the number of keys are
  the length of the text, since each step takes at least one character.
-/

namespace BuilderForge.Document.Toml

mutual

/-- A value at the start of a text. -/
def value? (bound : Nat) (t : Text) : Option (Tree × Text) :=
  match bound, t with
  | 0, _ => none
  | _ + 1, [] => none
  | bound + 1, c :: r =>
    if c = '"' ∨ c = '\'' then (string? t).map fun s => (.text s.1, s.2)
    else if c = '[' then
      (skipTrivia false r).bind fun r =>
        match r with
        | ']' :: r => some (.array .nil, r)
        | r => (items? bound r).map fun f => (.array f.1, f.2)
    else if c = '\x7b' then
      (skipTrivia false r).bind fun r =>
        match r with
        | '\x7d' :: r => some (.table .inline .nil, r)
        | r => (entries? bound .nil r).map fun f => (.table .inline f.1, f.2)
    else
      match cutAtom t with
      | (word, rest) => (atom? word).map fun a => (.atom a, rest)

/-- The values of an array from the first one not yet read, with the bracket after them. -/
def items? (bound : Nat) (t : Text) : Option (Forest × Text) :=
  match bound with
  | 0 => none
  | bound + 1 => do
    let (value, rest) ← value? bound t
    match ← skipTrivia false rest with
    | ']' :: r => return (.cons value .nil, r)
    | ',' :: r =>
      match ← skipTrivia false r with
      | ']' :: r => return (.cons value .nil, r)
      | r => do
        let (rest, r) ← items? bound r
        return (.cons value rest, r)
    | _ => none

/-- The entries of an inline table after some entries, with the brace after them. -/
def entries? (bound : Nat) (entries : Entries) (t : Text) : Option (Entries × Text) :=
  match bound with
  | 0 => none
  | bound + 1 => do
    let (key, rest) ← key? t.length t
    match ← skipTrivia false rest with
    | '=' :: r => do
      let (value, rest) ← value? bound (← skipTrivia false r)
      let entries ← entries.assign key value .inline
      match ← skipTrivia false rest with
      | '\x7d' :: r => return (entries, r)
      | ',' :: r =>
        match ← skipTrivia false r with
        | '\x7d' :: r => return (entries, r)
        | r => entries? bound entries r
      | _ => none
    | _ => none

end

/-- A statement. -/
inductive Statement where
  | opening (next : Bool) (key : List Text)
  | assignment (key : List Text) (value : Tree)

/-- The key of a header with what closes the header after it. -/
def header? (next : Bool) (t : Text) : Option (Statement × Text) := do
  let (key, rest) ← key? t.length (skipGap t)
  match next, skipGap rest with
  | true, ']' :: ']' :: r => return (.opening true key, r)
  | false, ']' :: r => return (.opening false key, r)
  | _, _ => none

/-- The statement at the start of a line. -/
def statement? (t : Text) : Option (Statement × Text) :=
  match t with
  | '[' :: '[' :: r => header? true r
  | '[' :: r => header? false r
  | _ => do
    let (key, rest) ← key? t.length t
    match skipGap rest with
    | '=' :: r => do
      let (value, rest) ← value? (2 * t.length) (skipGap r)
      return (.assignment key value, rest)
    | _ => none

/-- The text after the rest of a line that holds no statement any more. -/
def endLine? (t : Text) : Option Text := do
  let rest ← match skipGap t with
    | '#' :: r => skipComment r
    | r => some r
  if rest = [] then some [] else newline? rest

/-- The statements of a text. There are no more lines than `bound`. -/
def statements? (bound : Nat) (t : Text) : Option (List Statement) :=
  match bound, skipGap t with
  | _, [] => some []
  | 0, _ => none
  | bound + 1, c :: r =>
    if c = '#' || (newline? (c :: r)).isSome then do
      statements? bound (← endLine? (c :: r))
    else do
      let (s, rest) ← statement? (c :: r)
      let more ← statements? bound (← endLine? rest)
      return s :: more

/-- Obeys statements; `header` is the one that was opened last. -/
def obey (header : List Text) (entries : Entries) : List Statement → Option Entries
  | [] => some entries
  | .opening next key :: more => do obey key (← entries.openHeader next key) more
  | .assignment key value :: more => do
    obey header (← entries.assignUnder header key value) more

/-- The text without a byte order mark at its start. -/
def dropMark : Text → Text
  | [] => []
  | c :: t => if c.toNat = 0xFEFF then t else c :: t

/-- The document that a text is, if it is TOML. -/
def document? (t : Text) : Option Document := do
  let t := dropMark t
  let entries ← obey [] .nil (← statements? (t.length + 1) t)
  return ⟨.table .mismatched entries.toMembers, none⟩

end BuilderForge.Document.Toml
