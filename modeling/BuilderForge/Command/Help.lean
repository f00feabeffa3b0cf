import BuilderForge.Command.Grammar
/-
  Help, and completions for shells, both written from the grammar.
-/

namespace BuilderForge.Command

/-- The texts with a line end after each. -/
def unlines (ls : List Text) : Text := ls.flatMap fun l => l ++ ['\n']

/-! ## Help -/

/-- A text with blanks after it, up to a width. -/
def padTo (width : Nat) (t : Text) : Text := t ++ List.replicate (width - t.length) ' '

/-- A line that explains a term. -/
def entryLine (term summary : Text) : Text := "  ".toList ++ padTo 26 term ++ summary

/-- How a switch is written. -/
def Switch.form (s : Switch) : Text :=
  (match s.letter with
    | some c => ['-', c, ',', ' ']
    | none => "    ".toList) ++
  '-' :: '-' :: s.word ++
  (match s.value with
    | some v => " <".toList ++ v ++ ['>']
    | none => [])

/-- How an operand is written. -/
def Operand.form (o : Operand) : Text :=
  if o.isRequired then '<' :: o.name ++ ['>'] else '[' :: o.name ++ [']']

/-- The section on switches. -/
def switchLines (ss : List Switch) : List Text :=
  [[], "Options:".toList] ++ ss.map fun s => entryLine s.form s.summary

/-- What the program is for. -/
def programSummary : Text := "Generate fluent builder classes for PHP entities".toList

/-- The line on how the program is called. -/
def programUsage : Text := "Usage: ".toList ++ programName ++ " [OPTIONS] <COMMAND>".toList

/-- Help on the program. -/
def programHelp : Text :=
  unlines ([programSummary, [], programUsage, [], "Commands:".toList] ++
    (Subcommand.all.map fun s => entryLine s.name s.summary) ++
    [entryLine helpName "Print this message or the help of the given subcommand".toList] ++
    switchLines programSwitches)

/-- The line on how a subcommand is called. -/
def Subcommand.usage (s : Subcommand) : Text :=
  "Usage: ".toList ++ programName ++ ' ' :: s.name ++ " [OPTIONS]".toList ++
  (match s.operand? with
    | some o => ' ' :: o.form
    | none => [])

/-- Help on a subcommand. -/
def Subcommand.help (s : Subcommand) : Text :=
  unlines ([s.summary, [], s.usage] ++
    (match s.operand? with
      | some o => [[], "Arguments:".toList, entryLine o.form o.summary]
      | none => []) ++
    switchLines s.switches)

/-- Help on a subcommand, or on the program. -/
def helpText : Option Subcommand → Text
  | some s => s.help
  | none => programHelp

/-- The answer to the question for the version. -/
def versionText : Text := unlines [programName ++ ' ' :: programVersion]

/-! ## Completions -/

/-- The names that may stand where a subcommand does. -/
def subcommandNames : List Text := Subcommand.all.map Subcommand.name ++ [helpName]

/-- The words of switches, each once, as they are typed. -/
def switchWords : List Text :=
  ([programSwitches, Subcommand.generate.switches].flatten.map fun s => '-' :: '-' :: s.word).eraseDups

/-- A text between single quotes. -/
def singleQuoted (t : Text) : Text := '\'' :: t ++ ['\'']

/-- Everything that can be completed, with blanks between. -/
def completionWords : Text := Text.join [' '] (subcommandNames ++ switchWords)

/-- A script that makes a shell complete the names of the subcommands and switches. -/
def Shell.script : Shell → Text
  | bash =>
    unlines ["complete -o default -W ".toList ++ singleQuoted completionWords ++ ' ' :: programName]
  | elvish =>
    unlines ["set edit:completion:arg-completer[".toList ++ programName ++ "] = \x7b|@words|".toList,
      "  put ".toList ++ completionWords,
      ['\x7d']]
  | fish =>
    unlines (subcommandNames.map (fun n =>
      "complete -c ".toList ++ programName ++ " -n __fish_use_subcommand -f -a ".toList ++ n) ++
      switchWords.map (fun w => "complete -c ".toList ++ programName ++ " -l ".toList ++ w.drop 2))
  | powershell =>
    unlines ["Register-ArgumentCompleter -Native -CommandName ".toList ++ singleQuoted programName ++
        " -ScriptBlock \x7b".toList,
      "  param($word)".toList,
      "  @(".toList ++ Text.join [',', ' '] ((subcommandNames ++ switchWords).map singleQuoted) ++
        ") -like \"$word*\"".toList,
      ['\x7d']]
  | zsh =>
    unlines ["#compdef ".toList ++ programName,
      "compadd -- ".toList ++ completionWords]

end BuilderForge.Command
