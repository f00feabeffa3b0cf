import BuilderForge.Command.Grammar
import BuilderForge.Manifest.Style
/-
  Arguments: what a list of arguments asks for.

  Arguments are read from the left, and the first one that decides ends the
  reading: a wrong one refuses the whole command line, a request for help or
  for the version is granted whatever comes after it. A switch is given once at
  most, apart from verbosity, which the program and its subcommand have each.
-/

namespace BuilderForge.Command

/-- A subcommand with its arguments. -/
inductive Invocation where
  | generate (config : Text) (output : Option Text) (style : Option Style) (dryRun : Bool)
  | check (config : Text)
  | init (directory : Text)
  | completions (shell : Shell)

/-- Why arguments make no invocation. -/
inductive Stop where
  | refused
  | help (about : Option Subcommand)
  | version
  deriving DecidableEq, Repr

/-- The values given so far. A flag has the empty value. -/
abbrev Given := List (Topic × Text)

/-- The value given on a topic. -/
def Given.value? (given : Given) (topic : Topic) : Option Text :=
  (given.find? fun g => g.1 = topic).map Prod.snd

/-- Whether a text can be the value on a topic. A path is not empty. -/
def isAllowed (topic : Topic) (value : Text) : Bool :=
  match topic with
  | .config => value ≠ []
  | .output => value ≠ []
  | .directory => value ≠ []
  | .style => (Style.ofText? value).isSome
  | .shell => (Shell.ofName? value).isSome
  | _ => true

/-- Takes a value on a topic. -/
def accept (about : Option Subcommand) (given : Given) (topic : Topic) (value : Text) :
    Except Stop Given :=
  if topic = .help then .error (.help about)
  else if topic = .version then .error .version
  else if (given.value? topic).isSome || !isAllowed topic value then .error .refused
  else .ok ((topic, value) :: given)

/-! ## Switches -/

/-- Whether an argument is written as a switch. A dash alone is a value. -/
def isSwitch : Text → Bool
  | '-' :: _ :: _ => true
  | _ => false

/-- The argument after which there are no more switches. -/
def endMark : Text := ['-', '-']

/-- What stands before the first equals sign, and after it if there is one. -/
def cutEquals : Text → Text × Option Text
  | [] => ([], none)
  | c :: t =>
    if c = '=' then ([], some t)
    else
      match cutEquals t with
      | (name, value) => (c :: name, value)

/-- Reads a switch that is written as a word. The answer has a topic if its
value is still to come. -/
def readWord (about : Option Subcommand) (switches : List Switch) (given : Given) (t : Text) :
    Except Stop (Given × Option Topic) :=
  match cutEquals t with
  | (word, value) =>
    match switches.find? fun s => s.word = word, value with
    | none, _ => .error .refused
    | some ⟨topic, _, _, some _, _⟩, some v => (accept about given topic v).map fun g => (g, none)
    | some ⟨topic, _, _, some _, _⟩, none => .ok (given, some topic)
    | some ⟨_, _, _, none, _⟩, some _ => .error .refused
    | some ⟨topic, _, _, none, _⟩, none => (accept about given topic []).map fun g => (g, none)

/-- The value that is written right after a letter, one equals sign apart. -/
def attached : Text → Text
  | '=' :: t => t
  | t => t

/-- Reads switches that are written as letters, of which the last one may have
a value. -/
def readLetters (about : Option Subcommand) (switches : List Switch) (given : Given) :
    Text → Except Stop (Given × Option Topic)
  | [] => .ok (given, none)
  | c :: t =>
    match switches.find? fun s => s.letter = some c with
    | none => .error .refused
    | some ⟨topic, _, _, some _, _⟩ =>
      if t = [] then .ok (given, some topic)
      else (accept about given topic (attached t)).map fun g => (g, none)
    | some ⟨topic, _, _, none, _⟩ =>
      match accept about given topic [] with
      | .ok g => readLetters about switches g t
      | .error e => .error e

/-- Reads an argument that is written as a switch. -/
def readSwitch (about : Option Subcommand) (switches : List Switch) (given : Given) :
    Text → Except Stop (Given × Option Topic)
  | '-' :: '-' :: t => readWord about switches given t
  | '-' :: t => readLetters about switches given t
  | _ => .error .refused

/-! ## Subcommands -/

/-- Reads the arguments of a subcommand. `awaited` is the topic whose value has
to come next, `ended` says that there are no more switches. -/
def readArguments (s : Subcommand) (given : Given) (awaited : Option Topic) (ended : Bool) :
    List Text → Except Stop Given
  | [] => if awaited.isSome then .error .refused else .ok given
  | a :: rest =>
    match awaited with
    | some topic =>
      if isSwitch a then .error .refused
      else do readArguments s (← accept (some s) given topic a) none ended rest
    | none =>
      if !ended && a = endMark then readArguments s given none true rest
      else if !ended && isSwitch a then do
        let (given, awaited) ← readSwitch (some s) s.switches given a
        readArguments s given awaited ended rest
      else
        match s.operand? with
        | none => .error .refused
        | some operand => do
          readArguments s (← accept (some s) given operand.topic a) none ended rest

/-- The invocation of a subcommand with values. -/
def invocation (s : Subcommand) (given : Given) : Except Stop Invocation :=
  let config := (given.value? .config).getD defaultConfig
  match s with
  | .generate =>
    .ok (.generate config (given.value? .output) ((given.value? .style).bind Style.ofText?)
      (given.value? .dryRun).isSome)
  | .check => .ok (.check config)
  | .init => .ok (.init ((given.value? .directory).getD defaultDirectory))
  | .completions =>
    match (given.value? .shell).bind Shell.ofName? with
    | some shell => .ok (.completions shell)
    | none => .error .refused

/-- What a request for help with further arguments leads to. -/
def helpOn : List Text → Stop
  | [] => .help none
  | [name] =>
    match Subcommand.ofName? name with
    | some s => .help (some s)
    | none => if name = helpName then .help none else .refused
  | _ => .refused

/-- Reads the arguments of the program. -/
def readProgram (given : Given) : List Text → Except Stop Invocation
  | [] => .error .refused
  | a :: rest =>
    if a ≠ endMark ∧ isSwitch a then do
      let (given, _) ← readSwitch none programSwitches given a
      readProgram given rest
    else if a = helpName then .error (helpOn rest)
    else
      match Subcommand.ofName? a with
      | none => .error .refused
      | some s => do invocation s (← readArguments s [] none false rest)

/-- The invocation that arguments ask for. -/
def Invocation.ofArguments (args : List Text) : Except Stop Invocation := readProgram [] args

end BuilderForge.Command
