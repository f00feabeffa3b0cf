import BuilderForge.Declaration.Basic
/-
  Annotations: the type that a doc comment gives to a property.

  An annotation is the tag `@var`, at least one blank, and a word on the same
  spot. A tag that something else follows, or nothing before the end of the
  line, is passed over, and the next one counts.
-/

namespace BuilderForge.Annotation

/-- The tag before the type. -/
def tag : Text := "@var".toList

/-- What comes after each occurrence of the tag. -/
def remainders : Text → List Text
  | [] => []
  | c :: t =>
    match tag.isPrefixOf? (c :: t) with
    | some rest => rest :: remainders t
    | none => remainders t

/-- Whether a character separates the tag from its word. -/
def isGap (c : Char) : Bool := c = ' ' || c = '\t'

/-- The word of a tag, given what comes after the tag. -/
def word? (rest : Text) : Option Text :=
  match rest with
  | [] => none
  | c :: _ =>
    let word := (rest.dropWhile isGap).takeWhile fun d => !Text.isBlank d
    if Text.isBlank c && word ≠ [] then some word else none

/-- The first word that a tag of the doc comment has. -/
def find? (doc : Text) : Option Text := (remainders doc).findSome? word?

end BuilderForge.Annotation
