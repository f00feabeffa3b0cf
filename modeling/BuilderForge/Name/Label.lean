import BuilderForge.Name.Qualified
/-
  Labels, and the words of PHP that are no free names.

  A label begins with a letter or an underscore and goes on with letters,
  digits and underscores; every character outside ASCII counts as a letter. A
  class name is a list of labels whose last one is not reserved. A type list
  is a list of alternatives, each a keyword or a class name, and says nothing
  about reserved words, since the type keywords are among them.
-/

namespace BuilderForge.Name

/-- Whether a label may begin with `c`. -/
def isLabelStart (c : Char) : Bool := c.isAlpha || c = '_' || 0x80 ≤ c.toNat

/-- Whether `c` may stand in a label after its first character. -/
def isLabelChar (c : Char) : Bool := c.isAlphanum || c = '_' || 0x80 ≤ c.toNat

/-- Whether a text is a label. -/
def isLabel : Text → Bool
  | [] => false
  | c :: t => isLabelStart c && t.all isLabelChar

/-- Whether a text is a non-empty list of labels with separators between them. -/
def isPath (t : Text) : Bool := (Text.pieces separator t).all isLabel

/-- The words that cannot name a class, in lower case: names of types, relative
references to a class, and keywords of the language. -/
def reservedWords : List Text :=
  ["array", "bool", "callable", "false", "float", "int", "iterable", "mixed", "never", "null",
   "object", "string", "true", "void",
   "parent", "self", "static",
   "abstract", "and", "as", "break", "case", "catch", "class", "clone", "const", "continue",
   "declare", "default", "do", "echo", "else", "elseif", "empty", "enddeclare", "endfor",
   "endforeach", "endif", "endswitch", "endwhile", "enum", "eval", "exit", "extends", "final",
   "finally", "fn", "for", "foreach", "function", "global", "goto", "if", "implements",
   "include", "instanceof", "insteadof", "interface", "isset", "list", "match", "namespace",
   "new", "or", "print", "private", "protected", "public", "readonly", "require", "return",
   "switch", "throw", "trait", "try", "unset", "use", "var", "while", "xor",
   "yield"].map String.toList

/-- Whether a word cannot name a class, in any case of its letters. -/
def isReserved (t : Text) : Bool := reservedWords.contains (Text.fold t)

/-- The type keywords, in lower case. They mean the same in every namespace. -/
def typeKeywords : List Text :=
  ["array", "bool", "callable", "false", "float", "int", "iterable", "mixed", "never", "null",
   "object", "parent", "self", "static", "string", "true", "void"].map String.toList

/-- Whether a word is a type keyword, in any case of its letters. -/
def isTypeKeyword (t : Text) : Bool := typeKeywords.contains (Text.fold t)

/-- Whether a text is one alternative of a type: a path, blanks around it and
one separator in front allowed. -/
def isAlternative (t : Text) : Bool := isPath (stripSeparator (Text.trim t))

/-- Whether a text is a list of alternatives with bars between them. -/
def isTypeList (t : Text) : Bool := (Text.pieces '|' t).all isAlternative

end BuilderForge.Name
