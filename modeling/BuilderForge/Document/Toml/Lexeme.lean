import BuilderForge.Text.Numeral
/-
  TOML lexemes: blanks, comments, keys and strings.

  A scan answers what it found and what is left of the text, or nothing if the
  text is not TOML. Control characters other than the tab are refused in
  comments and strings, and a carriage return stands only before a line feed.
-/

namespace BuilderForge.Document.Toml

/-- Whether a character is a blank inside a line. -/
def isGap (c : Char) : Bool := c = ' ' || c = '\t'

/-- Whether a character is refused in comments and strings. A line feed is one
of them; strings of several lines look for it first. -/
def isControl (c : Char) : Bool := (c.toNat < 0x20 && c ≠ '\t') || c.toNat = 0x7F

/-- The text after the blanks at its start. -/
def skipGap (t : Text) : Text := t.dropWhile isGap

/-- The text after a line end, if one begins it. -/
def newline? : Text → Option Text
  | '\n' :: t => some t
  | '\r' :: '\n' :: t => some t
  | _ => none

/-- The rest of the text from the end of a comment's line on. -/
def skipComment : Text → Option Text
  | [] => some []
  | c :: t =>
    if (newline? (c :: t)).isSome then some (c :: t)
    else if isControl c then none
    else skipComment t

/-- The text after the blanks, line ends and comments at its start. -/
def skipTrivia (inComment : Bool) : Text → Option Text
  | [] => some []
  | '\n' :: t => skipTrivia false t
  | '\r' :: '\n' :: t => skipTrivia false t
  | c :: t =>
    if inComment then if isControl c then none else skipTrivia true t
    else if isGap c then skipTrivia false t
    else if c = '#' then skipTrivia true t
    else some (c :: t)

/-! ## Escapes -/

/-- The character of a one-letter escape. -/
def shortEscape? (c : Char) : Option Char :=
  if c = '"' ∨ c = '\\' then some c
  else if c = 'b' then some (Char.ofNat 8)
  else if c = 't' then some '\t'
  else if c = 'n' then some '\n'
  else if c = 'f' then some (Char.ofNat 12)
  else if c = 'r' then some '\r'
  else if c = 'e' then some (Char.ofNat 27)
  else none

/-- The character that hexadecimal digits stand for. -/
def codeChar? (ds : Text) : Option Char :=
  let n := Numeral.value 16 ds
  if ds.all (Numeral.isDigitOf 16) ∧ n.isValidChar then some (Char.ofNat n) else none

/-- How many digits the escape of a letter has. -/
def escapeWidth? (c : Char) : Option Nat :=
  if c = 'x' then some 2 else if c = 'u' then some 4 else if c = 'U' then some 8 else none

/-- The character of an escape, given the text after its backslash, and how
many characters the escape has after the backslash. -/
def escape? : Text → Option (Char × Nat)
  | [] => none
  | c :: t =>
    match escapeWidth? c with
    | some width =>
      if (t.take width).length = width then
        (codeChar? (t.take width)).map fun x => (x, width + 1)
      else none
    | none => (shortEscape? c).map fun x => (x, 1)

/-! ## Strings -/

/-- Adds a character in front of a text that was found. -/
def push (c : Char) (found : Text × Text) : Text × Text := (c :: found.1, found.2)

/-- A string in double quotes, after the opening one. The first `covered`
characters belong to an escape. -/
def basic (covered : Nat) : Text → Option (Text × Text)
  | [] => none
  | c :: t =>
    match covered with
    | n + 1 => basic n t
    | 0 =>
      if c = '"' then some ([], t)
      else if c = '\\' then
        match escape? t with
        | some (x, width) => (basic width t).map (push x)
        | none => none
      else if isControl c then none
      else (basic 0 t).map (push c)

/-- A string in single quotes, after the opening one. -/
def literal : Text → Option (Text × Text)
  | [] => none
  | c :: t =>
    if c = '\'' then some ([], t)
    else if isControl c then none
    else (literal t).map (push c)

/-- The end of a string of several lines, after the three quotes that end it at
the earliest: up to two more quotes are part of the string. -/
def closing (quote : Char) (t : Text) : Text × Text :=
  let extra := ((t.take 2).takeWhile (· = quote)).length
  (List.replicate extra quote, t.drop extra)

/-- Whether blanks and a line end begin a text. -/
def breaksLine (t : Text) : Bool := (newline? (skipGap t)).isSome

/-- A string in three double quotes, after the opening ones. The first `covered`
characters belong to an escape; `inGap` says that a backslash at the end of a
line takes the blanks and line ends here away. -/
def multiBasic (covered : Nat) (inGap : Bool) : Text → Option (Text × Text)
  | [] => none
  | c :: t =>
    match covered with
    | n + 1 => multiBasic n inGap t
    | 0 =>
      if ['"', '"', '"'].isPrefixOf (c :: t) then some (closing '"' (t.drop 2))
      else if inGap && (isGap c || (newline? (c :: t)).isSome) then multiBasic 0 true t
      else if c = '\\' then
        if breaksLine t then multiBasic 0 true t
        else
          match escape? t with
          | some (x, width) => (multiBasic width false t).map (push x)
          | none => none
      else if isControl c && (newline? (c :: t)).isNone then none
      else (multiBasic 0 false t).map (push c)

/-- A string in three single quotes, after the opening ones. -/
def multiLiteral : Text → Option (Text × Text)
  | [] => none
  | c :: t =>
    if ['\'', '\'', '\''].isPrefixOf (c :: t) then some (closing '\'' (t.drop 2))
    else if isControl c && (newline? (c :: t)).isNone then none
    else (multiLiteral t).map (push c)

/-- The text after the line end that may follow three opening quotes. -/
def dropNewline (t : Text) : Text := (newline? t).getD t

/-- A string of any kind. -/
def string? : Text → Option (Text × Text)
  | '"' :: '"' :: '"' :: t => multiBasic 0 false (dropNewline t)
  | '\'' :: '\'' :: '\'' :: t => multiLiteral (dropNewline t)
  | '"' :: t => basic 0 t
  | '\'' :: t => literal t
  | _ => none

/-! ## Keys -/

/-- Whether a character may stand in a key without quotes. -/
def isBare (c : Char) : Bool := c.isAlphanum || c = '_' || c = '-'

/-- A key without dots. -/
def simpleKey? : Text → Option (Text × Text)
  | '"' :: t => basic 0 t
  | '\'' :: t => literal t
  | t =>
    let key := t.takeWhile isBare
    if key = [] then none else some (key, t.dropWhile isBare)

/-- Keys with dots between them. There are no more of them than `bound`. -/
def key? (bound : Nat) (t : Text) : Option (List Text × Text) :=
  match bound with
  | 0 => none
  | bound + 1 => do
    let (key, rest) ← simpleKey? t
    match skipGap rest with
    | '.' :: r => do
      let (keys, rest) ← key? bound (skipGap r)
      return (key :: keys, rest)
    | _ => return ([key], rest)

end BuilderForge.Document.Toml
