import BuilderForge.Declaration.Basic
/-
  PHP classes: methods, properties, and the table of a class's methods.

  PHP compares method names without regard to the case of A to Z, so a class
  has one method for each folded name. Adding a method whose name is taken
  replaces the old one where it stands; a new name goes to the end.
-/

namespace BuilderForge.Php

/-- A parameter as it is printed; `default` is PHP source text. -/
structure Parameter where
  name : Text
  type : Option TypeHint
  default : Option Text
  deriving DecidableEq, Repr

/-- A method. The lines of its body write class names in full, with a separator
in front; they are shortened when the method is printed. -/
structure Method where
  name : Text
  visibility : Visibility
  isFinal : Bool
  params : List Parameter
  returns : Option TypeHint
  body : List Text
  deriving DecidableEq, Repr

/-- A property without a default. -/
structure Property where
  name : Text
  visibility : Visibility
  deriving DecidableEq, Repr

/-- A class. `implements` lists its interfaces in full. -/
structure Class where
  name : Text
  implements : List Text
  properties : List Property
  methods : List Method

/-- The method with lines added at the end of its body. -/
def Method.addBody (m : Method) (code : Text) : Method :=
  { m with body := m.body ++ Text.lines code }

/-- The methods of a class after one more is added. -/
def putMethod (m : Method) : List Method → List Method
  | [] => [m]
  | n :: rest =>
    if Text.sameFolded n.name m.name then m :: rest else n :: putMethod m rest

namespace Class

/-- A class without members. -/
def named (name : Text) : Class := ⟨name, [], [], []⟩

/-- The class with a method added. -/
def addMethod (c : Class) (m : Method) : Class :=
  { c with methods := putMethod m c.methods }

/-- The class with methods added, the first one first. -/
def addMethods (c : Class) (ms : List Method) : Class := ms.foldl addMethod c

/-- The method of a name. -/
def method? (c : Class) (name : Text) : Option Method :=
  c.methods.find? fun m => Text.sameFolded m.name name

end Class

end BuilderForge.Php
