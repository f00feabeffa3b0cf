import BuilderForge.Command.Run
import BuilderForge.Proofs.LargerManifests
import BuilderForge.Proofs.Overwriting
/-
  What is said of a manifest, and what is done with it.

  Whether an entity gets a builder is asked when the files are made, when the
  skipped entities are listed and when a manifest is checked, each time of the
  full name. A separator is no part of what the name of a builder ends in, so the
  short name decides (`isEligible_eq`), and every entity is accounted for once
  (`Accounts`). A run into an empty directory leaves the files that were planned
  there and no others (`HaveCome.holds`). So what a check lists, what a dry run
  prints and what a run writes go together: `reports_agree`.
-/

namespace BuilderForge

open BuilderForge.Command (Invocation Outcome run unlines)
open BuilderForge.Path (segments follow)

/-! ## Entities that are builders -/

/-- What has no separator ends a text if it ends what follows a separator. -/
theorem Text.suffix_append_sep_iff {sep : Char} {s before after : Text} (hs : sep ∉ s) :
    s <:+ before ++ sep :: after ↔ s <:+ after := by
  have hafter : after <:+ before ++ sep :: after :=
    (List.suffix_cons sep after).trans (List.suffix_append before _)
  constructor
  · intro h
    obtain hsub | hsub := List.suffix_or_suffix_of_suffix h (List.suffix_append before (sep :: after))
    · refine (List.suffix_cons_iff.1 hsub).resolve_left fun heq => hs ?_
      rw [heq]
      exact List.mem_cons_self
    · exact absurd (hsub.subset List.mem_cons_self) hs
  · intro h
    exact h.trans hafter

/-- What has no separator ends a name if it ends the short name. -/
theorem Name.suffix_iff_short {s : Text} (hs : separator ∉ s) (name : Text) :
    s <:+ name ↔ s <:+ short name := by
  have hstrip : s <:+ name ↔ s <:+ stripSeparator name := by
    obtain heq | heq := stripSeparator_cases name
    · rw [heq]
    · have hsuffix : s <:+ [] ++ separator :: stripSeparator name ↔ s <:+ stripSeparator name :=
        Text.suffix_append_sep_iff hs
      conv_lhs => rw [heq]
      exact hsuffix
  rw [hstrip]
  obtain ⟨-, ⟨-, hname⟩ | hname⟩ := split_spec name
  · rw [hname]
  · rw [hname]
    exact Text.suffix_append_sep_iff hs

/-- Whether the short name of an entity ends like that of a builder. -/
def Entity.isBuilder (e : Entity) : Bool :=
  "Builder".toList.isSuffixOf e.shortName || "BuilderMethods".toList.isSuffixOf e.shortName

theorem Builder.isEligible_eq (e : Entity) : isEligible e.name = !e.isBuilder := by
  have hsuffix : ∀ s : Text, Name.separator ∉ s → s.isSuffixOf e.name = s.isSuffixOf e.shortName := by
    intro s hs
    rw [Bool.eq_iff_iff, List.isSuffixOf_iff_suffix, List.isSuffixOf_iff_suffix]
    exact Name.suffix_iff_short hs e.name
  rw [isEligible, Entity.isBuilder, hsuffix suffix (by decide), hsuffix _ (by decide), Bool.or_comm]
  rfl

namespace Manifest

variable {m : Manifest}

theorem isWanted_builder (m : Manifest) (e : Entity) : (m.builder e).isWanted = !e.isBuilder :=
  Builder.isEligible_eq e

theorem preview?_eq (m : Manifest) (style : Style) (e : Entity) : m.preview? style e =
    if e.isBuilder then none else some ⟨(m.builder e).path, (m.builder e).page style.layout⟩ := by
  rw [preview?, Builder.page?, isWanted_builder]
  cases e.isBuilder <;> rfl

/-- The files are those of the entities that are no builders, in their order. -/
theorem previews_eq (m : Manifest) (style : Style) :
    m.previews style = (m.entities.filter fun e => !e.isBuilder).map fun e =>
      ⟨(m.builder e).path, (m.builder e).page style.layout⟩ := by
  rw [previews, ← List.filterMap_eq_map, List.filterMap_filter]
  refine List.filterMap_congr fun e _ => ?_
  rw [preview?_eq]
  cases e.isBuilder <;> rfl

theorem skipped_eq (m : Manifest) :
    m.skipped = (m.entities.filter Entity.isBuilder).map fun e =>
      ⟨e.qualifiedName, Skipped.isBuilder⟩ := by
  have hwanted : (fun e => !(m.builder e).isWanted) = Entity.isBuilder := by
    funext e
    rw [isWanted_builder, Bool.not_not]
  rw [skipped, hwanted]

/-- The files that a run is to write, in the style that is asked for if there is one. -/
def planned (m : Manifest) (override : Option Style) : List Preview :=
  m.previews (override.getD m.settings.style)

/-- Whether the file of an entity's builder is among those of the manifest. -/
def HasPreview (m : Manifest) (style : Style) (e : Entity) : Prop :=
  (m.builder e).path ∈ (m.previews style).map Preview.path

instance (m : Manifest) (style : Style) (e : Entity) : Decidable (m.HasPreview style e) :=
  inferInstanceAs (Decidable (_ ∈ _))

/-- That every entity either has a file or is skipped. -/
structure Accounts (m : Manifest) (style : Style) : Prop where
  /-- Both lists are in the order of the entities. -/
  previews : m.previews style = (m.entities.filter fun e => !e.isBuilder).map fun e =>
    ⟨((m.builder e).name.map fun c => if c = '\\' then '/' else c) ++ ".php".toList,
      (m.builder e).page style.layout⟩
  skipped : m.skipped = (m.entities.filter Entity.isBuilder).map fun e =>
    ⟨e.qualifiedName, "class is a builder itself".toList⟩
  /-- An entity is in one of them and not in the other. -/
  hasPreview_iff : ∀ e ∈ m.entities, m.HasPreview style e ↔ e.isBuilder = false
  isSkipped_iff : ∀ e ∈ m.entities, e.qualifiedName ∈ m.skipped.map Skipped.name ↔ e.isBuilder

theorem accounts (hm : m.isValid) (style : Style) : m.Accounts style where
  previews := m.previews_eq style
  skipped := m.skipped_eq
  hasPreview_iff e he := by
    rw [HasPreview, previews_eq, List.map_map, List.mem_map]
    constructor
    · intro h
      obtain ⟨f, hf, hpath⟩ := h
      obtain ⟨hf, hbuilder⟩ := List.mem_filter.1 hf
      -- the path says which entity it is
      have hfold := (isWellFormed_builder hm hf).fold_qualifiedName_eq (isWellFormed_builder hm he)
        (congrArg Text.fold hpath)
      cases eq_of_fold_qualifiedName hm hf he hfold
      rwa [Bool.not_eq_true'] at hbuilder
    · intro h
      exact ⟨e, List.mem_filter.2 ⟨he, by rw [h]; rfl⟩, rfl⟩
  isSkipped_iff e he := by
    rw [skipped_eq, List.map_map, List.mem_map]
    constructor
    · intro h
      obtain ⟨f, hf, hname⟩ := h
      obtain ⟨hf, hbuilder⟩ := List.mem_filter.1 hf
      cases eq_of_qualifiedName hm hf he hname
      exact hbuilder
    · intro h
      exact ⟨e, List.mem_filter.2 ⟨he, h⟩, rfl⟩

end Manifest

/-- What a file is read as is valid. -/
theorem Manifest.isValid_of_ofFile {m : Manifest} {path : Text} {bytes : Option (List UInt8)}
    (h : Manifest.ofFile path bytes = .ok m) : m.isValid := by
  unfold Manifest.ofFile at h
  split at h
  · exact isValid_of_ofSource h
  · cases h

/-! ## A run into an empty directory -/

/-- Whether the files below a location are those of a list of previews. -/
def Tree.Holds (t : Tree) (l : Location) (ps : List Preview) : Prop :=
  ∀ way bytes, t.entry? (l ++ way) = some (.file bytes) ↔
    ∃ p ∈ ps, way = segments p.path ∧ bytes = Text.encode p.content

/-- A path that goes down by names leads below the location to which it goes first. -/
theorem Tree.destination_of_goesBy {t : Tree} {q : Text} {l : Location} {way : List Text}
    (h : t.GoesBy q l way) (hway : ∀ s ∈ way, Path.IsName s) : t.destination q = l ++ way := by
  obtain ⟨-, before, hsegments, hwalk⟩ := h
  rw [destination, hsegments, Path.follow_append, ← eq_follow_of_walk hwalk, Path.follow_names hway]

/-- Files that have come to their places below an empty directory are all that is there. -/
theorem Output.HaveCome.holds {t done : Tree} {dir : Text} {l : Location} {ps : List Preview}
    (h : HaveCome (ps.map (Preview.output dir)) t done) (hbase : t.base? dir = some l)
    (hl : t.isDirectory l) (hempty : t.below l = []) (hbelow : ∀ p ∈ ps, Path.IsBelow p.path) :
    done.Holds l ps := by
  have hplace : ∀ p ∈ ps, t.destination (p.output dir).path = l ++ segments p.path := fun p hp =>
    Tree.destination_of_goesBy
      (Tree.goesBy_join hbase hl (hbelow p hp).relative (hbelow p hp).plain) (hbelow p hp).names
  have hfile : ∀ p ∈ ps, done.entry? (l ++ segments p.path) =
      some (.file (Text.encode p.content)) := by
    intro p hp
    have hplaced := (h.placed _ (List.mem_map_of_mem hp)).file
    rwa [h.alters.destination_eq, hplace p hp] at hplaced
  intro way bytes
  constructor
  · intro hthere
    by_contra hnone
    have huntouched := (h.alters.untouched (l ++ way) ?_ bytes).1 hthere
    · by_cases hway : way = []
      · rw [hway, List.append_nil, of_decide_eq_true hl] at huntouched
        cases huntouched
      · rw [Tree.entry?_of_below_eq_nil hempty hway] at huntouched
        cases huntouched
    · intro htouched
      obtain ⟨o, ho, heq⟩ := htouched
      obtain ⟨p, hp, rfl⟩ := List.mem_map.1 ho
      rw [hplace p hp] at heq
      have hbytes := hfile p hp
      rw [← heq, hthere] at hbytes
      cases hbytes
      exact hnone ⟨p, hp, List.append_cancel_left heq, rfl⟩
  · intro hmem
    obtain ⟨p, hp, rfl, rfl⟩ := hmem
    exact hfile p hp

/-! ## Runs -/

namespace Command

/-- What a check says before it comes to the entities. -/
def checkHeading (config : Text) (m : Manifest) : List Text :=
  ["✓ ".toList ++ config ++ " is valid".toList, [],
    "  marker:  ".toList ++ m.settings.effectiveMarker, "  printer: ".toList ++ m.settings.style.text, [],
    "  ".toList ++ Numeral.ofNat m.entities.length ++
      (if m.entities.length = 1 then " entity:" else " entities:").toList]

/-- What a check says of an entity that has a file or not. -/
def checkLine (m : Manifest) (style : Style) (e : Entity) : Text :=
  "    ".toList ++ e.qualifiedName ++
    if m.HasPreview style e then " -> ".toList ++ (m.builder e).name
    else " (skipped: class is a builder itself)".toList

theorem checkReply_eq {m : Manifest} (hm : m.isValid) (style : Style) (config : Text) :
    checkReply config m = unlines (checkHeading config m ++ m.entities.map (checkLine m style)) := by
  have hreason : " (skipped: ".toList ++ Skipped.isBuilder ++ [')'] =
      " (skipped: class is a builder itself)".toList := rfl
  have hlines : (m.entities.map fun e => "    ".toList ++ e.qualifiedName ++
      if (m.builder e).isWanted then " -> ".toList ++ (m.builder e).name
      else " (skipped: ".toList ++ Skipped.isBuilder ++ [')']) = m.entities.map (checkLine m style) := by
    refine List.map_congr_left fun e he => ?_
    have hwanted : (m.builder e).isWanted = true ↔ m.HasPreview style e := by
      rw [(m.accounts hm style).hasPreview_iff e he, m.isWanted_builder, Bool.not_eq_true']
    exact congrArg _ (if_congr hwanted rfl hreason)
  rw [checkReply, hlines]
  rfl

variable {args : List Text} {config : Text} {asked : Option Text} {override : Option Style} {t : Tree}
  {m : Manifest}

/-- A run does and says what the reaction to its input is. -/
theorem run_of_react {i : Invocation} {reaction : Reaction} {done : Tree}
    {result : Except WriteFault (List Written)} (hargs : Invocation.ofArguments args = .ok i)
    (hreact : i.react (i.input?.bind t.read?) = .ok reaction)
    (hdone : Output.writeAll reaction.outputs t = (done, result)) :
    run args t = (done, Outcome.ofWritten reaction.reply result) := by
  rw [run, hargs]
  dsimp only
  rw [hreact]
  dsimp only
  rw [hdone]

theorem run_check (hargs : Invocation.ofArguments args = .ok (.check config))
    (hfile : Manifest.ofFile config (t.read? config) = .ok m) :
    run args t = (t, ⟨.success, checkReply config m, []⟩) := by
  have hreact : (Invocation.check config).react (t.read? config) =
      .ok ⟨[], fun _ => checkReply config m⟩ := by
    rw [Invocation.react, hfile]
    rfl
  exact run_of_react hargs hreact rfl

theorem run_dry (hargs : Invocation.ofArguments args = .ok (.generate config asked override true))
    (hfile : Manifest.ofFile config (t.read? config) = .ok m) :
    run args t = (t, ⟨.success, previewReply (m.planned override), []⟩) := by
  have hreact : (Invocation.generate config asked override true).react (t.read? config) =
      .ok ⟨[], fun _ => previewReply (m.planned override)⟩ := by
    rw [Invocation.react, hfile]
    rfl
  exact run_of_react hargs hreact rfl

/-- A dry run changes nothing, whatever there is to be read. -/
theorem run_dry_fst (hargs : Invocation.ofArguments args = .ok (.generate config asked override true))
    (t : Tree) : (run args t).1 = t := by
  cases hfile : Manifest.ofFile config (t.read? config) with
  | ok m => rw [run_dry hargs hfile]
  | error r =>
    have hreact : (Invocation.generate config asked override true).react (t.read? config) =
        .error r := by
      rw [Invocation.react, hfile]
      rfl
    rw [run, hargs]
    dsimp only [Invocation.input?, Option.bind_some]
    rw [hreact]

theorem run_generate (hargs : Invocation.ofArguments args = .ok (.generate config asked override false))
    (hfile : Manifest.ofFile config (t.read? config) = .ok m) {dir : Text}
    (hdir : outputDirectory config asked m.settings.output = dir) {done : Tree}
    {result : Except WriteFault (List Written)}
    (hdone : Output.writeAll ((m.planned override).map (Preview.output dir)) t = (done, result)) :
    run args t = (done, Outcome.ofWritten
      (fun _ => generateReply dir (m.planned override) m.skipped) result) := by
  have hreact : (Invocation.generate config asked override false).react (t.read? config) =
      .ok ⟨(m.planned override).map (Preview.output dir),
        fun _ => generateReply dir (m.planned override) m.skipped⟩ := by
    rw [Invocation.react, hfile, ← hdir]
    rfl
  exact run_of_react hargs hreact hdone

/-- A successful run into an empty directory leaves the planned files there. -/
theorem holds_run (hm : m.isValid)
    (hargs : Invocation.ofArguments args = .ok (.generate config asked override false))
    (hfile : Manifest.ofFile config (t.read? config) = .ok m)
    (hstatus : (run args t).2.status = .success) {dir : Text}
    (hdir : outputDirectory config asked m.settings.output = dir) {l : Location}
    (hbase : t.base? dir = some l) (hl : t.isDirectory l) (hempty : t.below l = []) :
    (run args t).1.Holds l (m.planned override) ∧
      (run args t).2.output = generateReply dir (m.planned override) m.skipped := by
  obtain ⟨done, result, written, rest, hdone, hsplit, hcome, hresult⟩ :=
    Manifest.writeAll_previews hm (override.getD m.settings.style) dir t
  rw [run_generate hargs hfile hdir hdone] at hstatus ⊢
  obtain ⟨⟨ws, rfl⟩, rfl⟩ | ⟨⟨f, rfl⟩, -⟩ := hresult
  · rw [List.append_nil] at hsplit
    rw [← hsplit] at hcome
    refine ⟨Output.HaveCome.holds hcome hbase hl hempty fun p hp => ?_, rfl⟩
    exact Manifest.isBelow_of_mem_previews hm hp
  · cases hstatus

end Command

/-- The files of a valid manifest and its skipped entities account for all of its
entities, and those whose short name ends like that of a builder are skipped. A
check lists the builders of the entities that have files. A dry run changes
nothing and prints the paths and the contents of the files that a successful run
leaves in an empty directory, in which there is nothing else then. -/
theorem reports_agree {m : Manifest} (hm : m.isValid) :
    (∀ style, m.Accounts style) ∧
    (∀ style args config t, Invocation.ofArguments args = .ok (.check config) →
      Manifest.ofFile config (t.read? config) = .ok m →
      run args t = (t, ⟨.success,
        unlines (Command.checkHeading config m ++ m.entities.map (Command.checkLine m style)), []⟩)) ∧
    (∀ args config asked override t,
      Invocation.ofArguments args = .ok (.generate config asked override true) →
      (run args t).1 = t ∧
      (Manifest.ofFile config (t.read? config) = .ok m → (run args t).2 = ⟨.success, unlines
        ((m.planned override).flatMap (fun p => ["── ".toList ++ p.path ++ " ──".toList, p.content]) ++
          ["── Summary ──".toList,
            Numeral.ofNat (m.planned override).length ++ " files would be generated".toList]), []⟩)) ∧
    ∀ args config asked override t l,
      Invocation.ofArguments args = .ok (.generate config asked override false) →
      Manifest.ofFile config (t.read? config) = .ok m → (run args t).2.status = .success →
      t.base? (Command.outputDirectory config asked m.settings.output) = some l →
      t.isDirectory l → t.below l = [] →
      (run args t).1.Holds l (m.planned override) ∧
        (run args t).2.output = Command.generateReply
          (Command.outputDirectory config asked m.settings.output) (m.planned override) m.skipped := by
  refine ⟨fun style => m.accounts hm style, ?_, ?_, ?_⟩
  · intro style args config t hargs hfile
    rw [Command.run_check hargs hfile, Command.checkReply_eq hm style]
  · intro args config asked override t hargs
    refine ⟨Command.run_dry_fst hargs t, fun hfile => ?_⟩
    rw [Command.run_dry hargs hfile]
    rfl
  · intro args config asked override t l hargs hfile hstatus hbase hl hempty
    exact Command.holds_run hm hargs hfile hstatus rfl hbase hl hempty

/-- A manifest with an entity and one that is a builder, and an empty directory. -/
def cellar : Tree :=
  ⟨[], Limits.usual,
    [(["builders.toml".toList], .file (Text.encode
      "[[entities]]\nname = \"App\\\\Album\"\n[[entities]]\nname = \"\\\\MyBuilder\"\n".toList)),
     (["out".toList], .directory)]⟩

theorem reports_agree_cellar : ∃ m : Manifest, m.isValid ∧
    Manifest.ofFile "builders.toml".toList (cellar.read? "builders.toml".toList) = .ok m ∧
    m.Accounts .nette ∧
    (run ["generate".toList, "--dry-run".toList] cellar).1 = cellar ∧
    (run ["generate".toList, "-o".toList, "out".toList] cellar).2.status = .success ∧
    (run ["generate".toList, "-o".toList, "out".toList] cellar).1.Holds ["out".toList]
      (m.planned none) := by
  have hsome : (Manifest.ofFile "builders.toml".toList
      (cellar.read? "builders.toml".toList)).toOption.isSome := by decide +kernel
  obtain ⟨m, hfile⟩ : ∃ m, Manifest.ofFile "builders.toml".toList
      (cellar.read? "builders.toml".toList) = .ok m := by
    cases hread : Manifest.ofFile "builders.toml".toList (cellar.read? "builders.toml".toList) with
    | error r =>
      rw [hread] at hsome
      cases hsome
    | ok m => exact ⟨m, rfl⟩
  have hm := Manifest.isValid_of_ofFile hfile
  have hdry : Invocation.ofArguments ["generate".toList, "--dry-run".toList] =
      .ok (.generate "builders.toml".toList none none true) := rfl
  have hargs : Invocation.ofArguments ["generate".toList, "-o".toList, "out".toList] =
      .ok (.generate "builders.toml".toList (some "out".toList) none false) := rfl
  have hstatus : (run ["generate".toList, "-o".toList, "out".toList] cellar).2.status = .success := by
    decide +kernel
  have hbase : cellar.base? "out".toList = some ["out".toList] := by decide
  obtain ⟨haccounts, -, hrehearsal, hrun⟩ := reports_agree hm
  obtain ⟨hunchanged, -⟩ := hrehearsal _ _ _ _ cellar hdry
  obtain ⟨hholds, -⟩ := hrun _ _ _ _ cellar _ hargs hfile hstatus hbase (by decide) (by decide)
  exact ⟨m, hm, hfile, haccounts .nette, hunchanged, hstatus, hholds⟩

end BuilderForge
