import BuilderForge.Code.Writer
import BuilderForge.Php.Line
/-
  Pages: the PHP file of a namespace.

  A layout decides the indentation and the number of blank lines between
  members; the order of the parts, the short names and the wrapping of long
  parameter lists are the same for all layouts. Every function here has no
  answer exactly when a name on the page has no short form.
-/

namespace BuilderForge.Php

/-- The choices that differ between pages of the same code. -/
structure Layout where
  indentation : Code.Indent
  spacing : Nat
  deriving DecidableEq, Repr

/-- Parameter lists of more bytes are written with one parameter to a line. -/
def wrapSize : Nat := 120

/-- Whether a type accepts `null` by its own keyword. -/
def acceptsNull (name : Text) : Bool :=
  Text.fold name = "mixed".toList || Text.fold name = "null".toList

/-- The keyword of a visibility. -/
def keyword : Visibility → Text
  | .publicAccess => "public".toList
  | .protectedAccess => "protected".toList
  | .privateAccess => "private".toList

namespace Namespace

/-- A type as it is written inside the namespace. -/
def typeText (ns : Namespace) (ty : TypeHint) : Option Text :=
  ((Text.pieces '|' ty.name).mapM fun part => ns.shorten (Text.trim part)).map fun parts =>
    let joined := Text.join ['|'] parts
    if ty.nullable && !acceptsNull ty.name then
      if ty.isUnion then joined ++ "|null".toList else '?' :: joined
    else joined

/-- A parameter in a parameter list. -/
def parameterText (ns : Namespace) (p : Parameter) : Option Text := do
  let type ← match p.type with
    | some ty => (ns.typeText ty).map fun t => t ++ [' ']
    | none => some []
  let default := match p.default with
    | some code => " = ".toList ++ code
    | none => []
  return type ++ '$' :: p.name ++ default

/-- The end of a method's head. -/
def returnText (ns : Namespace) (m : Method) : Option Text :=
  match m.returns with
  | some ty => (ns.typeText ty).map fun t => ':' :: ' ' :: t
  | none => some []

/-- A line of a method's body; blank lines are written without characters. -/
def bodyLine (ns : Namespace) (s : Text) : Option Code.Fragment :=
  if Text.trim s = [] then some .blank else (ns.shortenLine s).map .line

/-- Lines of parameters, a comma after each but the last. -/
def parameterLines : List Text → List Code.Fragment
  | [] => []
  | [p] => [.line p]
  | p :: q :: ps => .line (p ++ [',']) :: parameterLines (q :: ps)

/-- A method's head up to its parameter list. -/
def methodHead (m : Method) : Text :=
  (if m.isFinal then "final ".toList else []) ++ keyword m.visibility ++ " function ".toList ++ m.name

/-- Whether a parameter list is written with one parameter to a line. -/
def isWrapped (params : List Text) : Bool :=
  1 < params.length && wrapSize < Text.byteSize (Text.join [',', ' '] params)

/-- The code of a method. -/
def methodCode (ns : Namespace) (m : Method) : Option (List Code.Fragment) := do
  let params ← m.params.mapM ns.parameterText
  let returns ← ns.returnText m
  let body ← m.body.mapM ns.bodyLine
  if isWrapped params then
    return [.line (methodHead m ++ ['(']), .indent (parameterLines params),
      .block (')' :: returns ++ [' ', '\x7b']) body (some ['\x7d'])]
  else
    return [.line (methodHead m ++ '(' :: Text.join [',', ' '] params ++ ')' :: returns),
      .block ['\x7b'] body (some ['\x7d'])]

/-- The code of a property. -/
def propertyCode (p : Property) : Code.Fragment :=
  .line (keyword p.visibility ++ " $".toList ++ p.name ++ [';'])

/-- The code of the methods, each with the spacing before it unless it is the
first member. -/
def methodsCode (ns : Namespace) (spacing : Nat) :
    Bool → List Method → Option (List Code.Fragment)
  | _, [] => some []
  | isFirst, m :: ms => do
    let code ← ns.methodCode m
    let rest ← ns.methodsCode spacing false ms
    return (if isFirst then [] else List.replicate spacing .blank) ++ code ++ rest

/-- The head of a class. -/
def classHead (ns : Namespace) (c : Class) : Option Text := do
  let interfaces ← c.implements.mapM ns.shorten
  return "class ".toList ++ c.name ++
    (if c.implements = [] then [] else " implements ".toList ++ Text.join [',', ' '] interfaces)

/-- The code of a class. -/
def classCode (ns : Namespace) (spacing : Nat) (c : Class) : Option (List Code.Fragment) := do
  let head ← ns.classHead c
  let methods ← ns.methodsCode spacing (c.properties = []) c.methods
  return [.line head, .block ['\x7b'] (c.properties.map propertyCode ++ methods) (some ['\x7d'])]

/-- The code of the classes, a blank line between any two. -/
def classesCode (ns : Namespace) (spacing : Nat) : List Class → Option (List Code.Fragment)
  | [] => some []
  | [c] => ns.classCode spacing c
  | c :: d :: cs => do
    let code ← ns.classCode spacing c
    let rest ← ns.classesCode spacing (d :: cs)
    return code ++ .blank :: rest

/-- The opening of a page, the namespace and the imports. -/
def preamble (ns : Namespace) : List Code.Fragment :=
  [.line "<?php".toList, .blank] ++
  (if ns.name = [] then [] else [.line ("namespace ".toList ++ ns.name ++ [';']), .blank]) ++
  (if ns.imports = [] then []
   else ns.importedNames.map (fun n => .line ("use ".toList ++ n ++ [';'])) ++ [.blank])

/-- The code of a page. -/
def pageCode (ns : Namespace) (spacing : Nat) : Option (List Code.Fragment) :=
  (ns.classesCode spacing ns.classes).map fun classes => ns.preamble ++ classes

/-- The page of a namespace. -/
def page (ns : Namespace) (layout : Layout) : Option Text :=
  (ns.pageCode layout.spacing).map fun code =>
    ((Code.Writer.start layout.indentation).emitAll code).text

end Namespace

end BuilderForge.Php
