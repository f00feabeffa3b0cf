import BuilderForge.Php.Namespace
/-
  Lines of code, cut into string literals, class names written in full, and
  everything else.

  A literal runs from a quote to the next equal quote that no backslash stands
  before, or to the end of the line. A name begins with a separator that does
  not follow a label and goes on as far as labels and single separators go.
  Shortening the names of a line leaves the other pieces as they are.
-/

namespace BuilderForge.Php

/-- A piece of a line of code. -/
inductive Piece where
  | literal (s : Text)
  | name (s : Text)
  | other (c : Char)
  deriving DecidableEq, Repr

/-- A literal's characters after its opening quote, up to and with the closing
one, and what comes after it. -/
def cutLiteral (quote : Char) : Text → Text × Text
  | [] => ([], [])
  | [c] => ([c], [])
  | c :: d :: t =>
    if c = '\\' then
      match cutLiteral quote t with
      | (body, rest) => (c :: d :: body, rest)
    else if c = quote then ([c], d :: t)
    else
      match cutLiteral quote (d :: t) with
      | (body, rest) => (c :: body, rest)

/-- Whether a label can begin a text. -/
def startsLabel : Text → Bool
  | [] => false
  | c :: _ => Name.isLabelStart c

/-- The longest run of labels with single separators between them at the start
of a text, and what comes after it. -/
def cutName : Text → Text × Text
  | [] => ([], [])
  | c :: t =>
    if Name.isLabelChar c || (c = Name.separator && startsLabel t) then
      match cutName t with
      | (name, rest) => (c :: name, rest)
    else ([], c :: t)

theorem length_cutLiteral_le (quote : Char) (t : Text) : (cutLiteral quote t).2.length ≤ t.length := by
  fun_induction cutLiteral quote t <;> simp_all <;> omega

theorem length_cutName_le (t : Text) : (cutName t).2.length ≤ t.length := by
  fun_induction cutName t with
  | case1 => simp
  | case2 c t _ name rest h ih => simp_all; omega
  | case3 c t _ => simp

/-- The pieces of a text. `afterLabel` says whether a label character stands before it. -/
def cutPieces (afterLabel : Bool) : Text → List Piece
  | [] => []
  | c :: t =>
    if c = '\'' ∨ c = '"' then
      .literal (c :: (cutLiteral c t).1) :: cutPieces false (cutLiteral c t).2
    else if c = Name.separator && !afterLabel && startsLabel t then
      .name (c :: (cutName t).1) :: cutPieces true (cutName t).2
    else .other c :: cutPieces (Name.isLabelChar c) t
termination_by t => t.length
decreasing_by
  · exact Nat.lt_succ_of_le (length_cutLiteral_le c t)
  · exact Nat.lt_succ_of_le (length_cutName_le t)
  · exact Nat.lt_succ_self t.length

/-- The text of a piece, its name shortened. -/
def Piece.shorten (ns : Namespace) : Piece → Option Text
  | .literal s => some s
  | .name s => ns.shorten s
  | .other c => some [c]

/-- The line with every class name that is written in full shortened. There is
no answer if one of them has no short form. -/
def Namespace.shortenLine (ns : Namespace) (line : Text) : Option Text :=
  ((cutPieces false line).mapM (Piece.shorten ns)).map List.flatten

end BuilderForge.Php
