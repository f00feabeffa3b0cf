import BuilderForge.Text.Basic
/-
  The grammar of the command line: subcommands, their switches and operands.

  A switch is a flag or takes a value. Every subcommand also has the switches
  for verbosity and help, and the program itself has those and one for its
  version. The grammar is data, from which arguments are read and the help and
  the shell completions are written.
-/

namespace BuilderForge.Command

/-- What an argument says something about. -/
inductive Topic where
  | config
  | output
  | style
  | dryRun
  | verbose
  | help
  | version
  | directory
  | shell
  deriving DecidableEq, Repr

/-- A switch; `value` names its value if it takes one. -/
structure Switch where
  topic : Topic
  letter : Option Char
  word : Text
  value : Option Text
  summary : Text

/-- An argument that stands for itself. -/
structure Operand where
  topic : Topic
  name : Text
  isRequired : Bool
  summary : Text

/-- The subcommands. -/
inductive Subcommand where
  | generate
  | check
  | init
  | completions
  deriving DecidableEq, Repr

/-- The name of the program. -/
def programName : Text := "builders".toList

/-- The version of the program. -/
def programVersion : Text := "0.3.0".toList

/-- The name of the subcommand that shows help. -/
def helpName : Text := "help".toList

/-- The manifest that is read if no other is named. -/
def defaultConfig : Text := "builders.toml".toList

/-- The directory that a starter manifest is written to if no other is named. -/
def defaultDirectory : Text := ['.']

/-- The switch for more output. -/
def verboseSwitch : Switch :=
  ⟨.verbose, some 'v', "verbose".toList, none, "Show debug output".toList⟩

/-- The switch for help. -/
def helpSwitch : Switch := ⟨.help, some 'h', "help".toList, none, "Print help".toList⟩

/-- The switch for the version of the program. -/
def versionSwitch : Switch := ⟨.version, some 'V', "version".toList, none, "Print version".toList⟩

/-- The switch that names the manifest. -/
def configSwitch : Switch :=
  ⟨.config, some 'c', "config".toList, some "CONFIG".toList,
   "Path to builders.toml (defaults to ./builders.toml)".toList⟩

/-- The switch that names the directory to write to. -/
def outputSwitch : Switch :=
  ⟨.output, some 'o', "output".toList, some "OUTPUT".toList,
   "Output directory (defaults to generator.output, relative to the manifest)".toList⟩

/-- The switch that names a style. -/
def styleSwitch : Switch :=
  ⟨.style, none, "printer".toList, some "PRINTER".toList,
   "Output layout, overriding generator.printer (psr or nette)".toList⟩

/-- The switch that keeps the program from writing. -/
def dryRunSwitch : Switch :=
  ⟨.dryRun, none, "dry-run".toList, none,
   "Preview generated code without writing to disk".toList⟩

/-- The switches of the program itself. -/
def programSwitches : List Switch := [verboseSwitch, helpSwitch, versionSwitch]

namespace Subcommand

/-- All subcommands. -/
def all : List Subcommand := [generate, check, init, completions]

/-- The name of a subcommand. -/
def name : Subcommand → Text
  | generate => "generate".toList
  | check => "check".toList
  | init => "init".toList
  | completions => "completions".toList

/-- What a subcommand does. -/
def summary : Subcommand → Text
  | generate => "Generate builder classes from builders.toml".toList
  | check => "Validate builders.toml without generating code".toList
  | init => "Create a starter builders.toml".toList
  | completions => "Generate shell completions".toList

/-- The subcommand of a name. -/
def ofName? (t : Text) : Option Subcommand := all.find? fun s => s.name = t

/-- The switches of a subcommand. -/
def switches : Subcommand → List Switch
  | generate =>
    [configSwitch, outputSwitch, styleSwitch, dryRunSwitch, verboseSwitch, helpSwitch]
  | check => [configSwitch, verboseSwitch, helpSwitch]
  | init => [verboseSwitch, helpSwitch]
  | completions => [verboseSwitch, helpSwitch]

/-- The operand of a subcommand, if it has one. -/
def operand? : Subcommand → Option Operand
  | init =>
    some ⟨.directory, "DIR".toList, false, "Directory to create builders.toml in".toList⟩
  | completions =>
    some ⟨.shell, "SHELL".toList, true, "Shell to generate completions for".toList⟩
  | _ => none

end Subcommand

/-! ## Shells -/

/-- The shells that completions are written for. -/
inductive Shell where
  | bash
  | elvish
  | fish
  | powershell
  | zsh
  deriving DecidableEq, Repr

namespace Shell

/-- All shells. -/
def all : List Shell := [bash, elvish, fish, powershell, zsh]

/-- The name of a shell. -/
def name : Shell → Text
  | bash => "bash".toList
  | elvish => "elvish".toList
  | fish => "fish".toList
  | powershell => "powershell".toList
  | zsh => "zsh".toList

/-- The shell of a name. -/
def ofName? (t : Text) : Option Shell := all.find? fun s => s.name = t

end Shell

end BuilderForge.Command
