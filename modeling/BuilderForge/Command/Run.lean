import BuilderForge.Command.Arguments
import BuilderForge.Command.Help
import BuilderForge.Command.Starter
import BuilderForge.Manifest.File
/-
  Runs of the program.

  A run reads one file at most, decides on the files to write, writes them, and
  then says something. What it reads is `input?`, what it decides is a
  reaction, and the reply of the reaction depends on what became of the files.
  `run` does all of it on a tree.
-/

namespace BuilderForge.Command

/-- The code with which a run ends. -/
inductive Status where
  | success
  | failure
  | misuse
  deriving DecidableEq, Repr

/-- The number of a status. -/
def Status.code : Status → Nat
  | success => 0
  | failure => 1
  | misuse => 2

/-- What a run leaves behind for its caller. -/
structure Outcome where
  status : Status
  output : Text
  errors : Text

/-- Files to write, and what to say when that has been done. -/
structure Reaction where
  outputs : List Output
  reply : List Written → Text

/-! ## What is said -/

/-- The heading of a preview. -/
def rule (title : Text) : Text := "── ".toList ++ title ++ " ──".toList

/-- What is said of a valid manifest. -/
def checkReply (config : Text) (m : Manifest) : Text :=
  unlines ([
    "✓ ".toList ++ config ++ " is valid".toList,
    [],
    "  marker:  ".toList ++ m.settings.effectiveMarker,
    "  printer: ".toList ++ m.settings.style.text,
    [],
    "  ".toList ++ Numeral.ofNat m.entities.length ++
      (if m.entities.length = 1 then " entity:" else " entities:").toList] ++
    m.entities.map fun e =>
      "    ".toList ++ e.qualifiedName ++
      if (m.builder e).isWanted then " -> ".toList ++ (m.builder e).name
      else " (skipped: ".toList ++ Skipped.isBuilder ++ [')'])

/-- What is said when files are only previewed. -/
def previewReply (previews : List Preview) : Text :=
  unlines (previews.flatMap (fun p => [rule p.path, p.content]) ++
    [rule "Summary".toList,
     Numeral.ofNat previews.length ++ " files would be generated".toList])

/-- What is said when files have been written. -/
def generateReply (directory : Text) (previews : List Preview) (skipped : List Skipped) : Text :=
  unlines (["Generated: ".toList ++ directory ++ ['/']] ++
    (previews.map fun p => "  + ".toList ++ p.path) ++
    (if skipped.isEmpty then []
     else [[], "Skipped:".toList] ++
       skipped.map fun s => "  - ".toList ++ s.name ++ " (".toList ++ s.reason ++ [')']))

/-- What is said of the starter manifest. -/
def initReply (path : Text) : List Written → Text
  | [.skipped] => unlines [path ++ " already exists, leaving it untouched".toList]
  | _ =>
    unlines ["Created ".toList ++ path, [], "Next steps:".toList,
      "  builders check -c ".toList ++ path, "  builders generate -c ".toList ++ path]

/-- What is said on errors of a report. -/
def reportText (r : Report) : Text :=
  unlines (["error: ".toList ++ r.cause.message] ++
    r.cause.help?.toList.map fun h => "help: ".toList ++ h)

/-! ## What is done -/

/-- The directory that files go to: the one that is asked for, else the one
that the manifest names next to itself, else that of the manifest. -/
def outputDirectory (config : Text) (asked named : Option Text) : Text :=
  match asked with
  | some directory => directory
  | none =>
    let base := match Path.parent? config with
      | some (c :: t) => c :: t
      | _ => Path.here
    match named with
    | some directory => Path.join base directory
    | none => base

namespace Invocation

/-- The file to read. -/
def input? : Invocation → Option Text
  | generate config _ _ _ => some config
  | check config => some config
  | _ => none

/-- What follows from the bytes of the file that was read. -/
def react (i : Invocation) (bytes : Option (List UInt8)) : Except Report Reaction :=
  match i with
  | generate config asked style dryRun => do
    let m ← Manifest.ofFile config bytes
    let style := style.getD m.settings.style
    if dryRun then return ⟨[], fun _ => previewReply (m.previews style)⟩
    else
      let directory := outputDirectory config asked m.settings.output
      return ⟨m.outputs style directory,
        fun _ => generateReply directory (m.previews style) m.skipped⟩
  | check config => do
    let m ← Manifest.ofFile config bytes
    return ⟨[], fun _ => checkReply config m⟩
  | init directory =>
    let path := Path.join directory defaultConfig
    return ⟨[⟨path, starterManifest, true⟩], initReply path⟩
  | completions shell => return ⟨[], fun _ => shell.script⟩

end Invocation

/-- The outcome of a command line that is no invocation. -/
def Stop.outcome : Stop → Outcome
  | .refused => ⟨.misuse, [], unlines [programUsage]⟩
  | .help about => ⟨.success, helpText about, []⟩
  | .version => ⟨.success, versionText, []⟩

/-- The outcome when a manifest could not be had. -/
def Outcome.ofReport (r : Report) : Outcome := ⟨.failure, [], reportText r⟩

/-- The outcome when files were to be written. -/
def Outcome.ofWritten (reply : List Written → Text) : Except WriteFault (List Written) → Outcome
  | .ok written => ⟨.success, reply written, []⟩
  | .error f => ⟨.failure, [], unlines ["error: ".toList ++ f.message]⟩

/-- A run of the program on a tree. -/
def run (args : List Text) (t : Tree) : Tree × Outcome :=
  match Invocation.ofArguments args with
  | .error stop => (t, stop.outcome)
  | .ok i =>
    match i.react (i.input?.bind t.read?) with
    | .error r => (t, Outcome.ofReport r)
    | .ok reaction =>
      match Output.writeAll reaction.outputs t with
      | (t, result) => (t, Outcome.ofWritten reaction.reply result)

end BuilderForge.Command
