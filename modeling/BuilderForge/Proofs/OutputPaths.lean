import Mathlib.Data.List.Basic
import BuilderForge.Proofs.Validity
import BuilderForge.Proofs.Writing
/-
  The files of a valid manifest, under a directory.

  The path of a builder's file has a segment for each label of the namespace and
  one for the file (`segments_path`). Labels have neither slashes nor dots, and
  the last segment has a dot, so no such path leads through another one. Up to
  case the segments say what the entity is called, and entities of a valid
  manifest are called differently. The files therefore never get into each
  other's way: `fills_directory`.
-/

namespace BuilderForge

open BuilderForge.Path (segments slash IsName)

theorem Text.toLower_eq_slash {c : Char} : c.toLower = slash ↔ c = slash := by
  have hslash : slash.toNat = 47 := rfl
  rw [← Char.toNat_inj, ← Char.toNat_inj, Text.toNat_toLower]
  split <;> omega

theorem Path.isName_of_isLabel {s : Text} (h : Name.isLabel s) : IsName s := by
  have hdot : Name.isLabelChar '.' = false := by decide
  have hfree : '.' ∉ s := by
    intro hc
    rw [Name.isLabelChar_of_mem h hc] at hdot
    cases hdot
  refine ⟨?_, ?_, ?_⟩
  · intro heq
    rw [heq] at h
    cases h
  · intro heq
    exact hfree (heq ▸ List.mem_cons_self)
  · intro heq
    exact hfree (heq ▸ List.mem_cons_self)

namespace Builder

variable {b b' : Builder}

/-! ## Segments -/

/-- The directories of a builder's file, one for each label of the namespace. -/
def directories (b : Builder) : List Text :=
  if b.entity.scope = [] then [] else Text.pieces Name.separator b.entity.scope

/-- The name of a builder's file. -/
def fileName (b : Builder) : Text := b.shortName ++ ".php".toList

theorem IsWellFormed.isLabel_builderName (hb : b.IsWellFormed) : Name.isLabel b.shortName :=
  Name.isLabel_append (Name.isLabel_short hb.entity) (by decide)

theorem IsWellFormed.isLabel_of_mem_directories (hb : b.IsWellFormed) :
    ∀ s ∈ b.directories, Name.isLabel s := by
  intro s hs
  unfold directories at hs
  split at hs
  · cases hs
  · rename_i hscope
    exact List.all_eq_true.1 (hb.isPath_scope.resolve_left hscope) s hs

theorem IsWellFormed.segments_path (hb : b.IsWellFormed) :
    segments b.path = b.directories ++ [b.fileName] := by
  have hlabel := hb.isLabel_builderName
  have hslash : ∀ {t : Text}, Name.isPath t → slash ∉ t := fun h hc =>
    absurd (Name.isNameChar_of_mem h hc) (by decide)
  have hshort : (b.shortName.map fun c => if c = Name.separator then '/' else c) = b.shortName :=
    Text.map_replace_of_notMem '/' (Name.separator_notMem_of_isLabel hlabel)
  have hfile : slash ∉ b.fileName := by
    rw [fileName, List.mem_append, not_or]
    exact ⟨hslash (Name.isPath_of_isLabel hlabel), by decide⟩
  unfold path name Name.qualify directories segments
  by_cases hscope : b.entity.scope = []
  · rw [if_pos hscope, if_pos hscope, hshort]
    exact Text.pieces_of_not_mem hfile
  · rw [if_neg hscope, if_neg hscope, List.map_append, List.map_cons, if_pos rfl, hshort,
      List.append_assoc]
    show Text.pieces slash (_ ++ slash :: b.fileName) = _
    rw [Text.pieces_append_sep, Text.pieces_of_not_mem hfile]
    exact congrArg (· ++ [b.fileName])
      (Text.pieces_replace (hslash (hb.isPath_scope.resolve_left hscope)))

theorem isName_fileName (b : Builder) : IsName b.fileName := by
  have hlength : 4 ≤ b.fileName.length := by
    rw [fileName, List.length_append]
    exact Nat.le_add_left _ _
  refine ⟨?_, ?_, ?_⟩ <;> intro heq <;> rw [heq] at hlength <;> exact absurd hlength (by decide)

/-- The path of a builder's file leads down by names. -/
theorem IsWellFormed.isBelow_path (hb : b.IsWellFormed) : Path.IsBelow b.path := by
  have hsegments := hb.segments_path
  have hnames : ∀ s ∈ segments b.path, IsName s := by
    intro s hs
    rw [hsegments] at hs
    obtain hs | hs := List.mem_append.1 hs
    · exact Path.isName_of_isLabel (hb.isLabel_of_mem_directories s hs)
    · rw [List.mem_singleton.1 hs]
      exact b.isName_fileName
  refine ⟨?_, hnames, ?_⟩
  · rw [Bool.eq_false_iff]
    intro habsolute
    obtain ⟨s, rest, hempty⟩ := Path.isAbsolute_iff.1 habsolute
    exact (hnames [] (hempty ▸ List.mem_cons_self)).1 rfl
  · intro hnull
    obtain heq | ⟨s, hs, hnull⟩ := Path.mem_segments_of_mem hnull
    · exact absurd heq (by decide)
    -- neither a label nor the name of the file has such a character
    · have hlabel : ∀ t, Name.isLabel t → Char.ofNat 0 ∉ t := fun t ht hc =>
        absurd (Name.isLabelChar_of_mem ht hc) (by decide)
      rw [hsegments] at hs
      obtain hs | hs := List.mem_append.1 hs
      · exact hlabel s (hb.isLabel_of_mem_directories s hs) hnull
      · rw [List.mem_singleton.1 hs, fileName] at hnull
        obtain hnull | hnull := List.mem_append.1 hnull
        · exact hlabel _ hb.isLabel_builderName hnull
        · exact absurd hnull (by decide)

/-! ## Different files -/

/-- A path that begins with another one is the other one, since the name of a
file has a dot and a label has none. -/
theorem IsWellFormed.segments_eq_of_prefix (hb : b.IsWellFormed) (hb' : b'.IsWellFormed)
    (h : segments b.path <+: segments b'.path) : segments b.path = segments b'.path := by
  by_contra hne
  rw [hb.segments_path, hb'.segments_path] at h hne
  have hbegins := proper_prefix_concat_iff.1 ⟨h, hne⟩
  have hmem : b.fileName ∈ b'.directories :=
    hbegins.subset (List.mem_append_right _ List.mem_cons_self)
  have hdot : '.' ∈ b.fileName := List.mem_append_right _ (by decide)
  exact absurd (Name.isLabelChar_of_mem (hb'.isLabel_of_mem_directories _ hmem) hdot) (by decide)

/-- The directories say what the namespace is called. -/
theorem fold_scope_eq (b : Builder) :
    Text.fold b.entity.scope = Text.join [Name.separator] (b.directories.map Text.fold) := by
  unfold directories
  split
  · rename_i hscope
    rw [hscope]
    rfl
  · have hfold : (Text.pieces Name.separator b.entity.scope).map Text.fold =
        Text.pieces Name.separator (Text.fold b.entity.scope) :=
      (Text.pieces_map fun c _ => Php.toLower_eq_separator).symm
    rw [hfold, Text.join_pieces]

/-- Up to case the path says what the entity is called. -/
theorem IsWellFormed.fold_qualifiedName_eq (hb : b.IsWellFormed) (hb' : b'.IsWellFormed)
    (h : Text.fold b.path = Text.fold b'.path) :
    Text.fold b.entity.qualifiedName = Text.fold b'.entity.qualifiedName := by
  have hsegments : (segments b.path).map Text.fold = (segments b'.path).map Text.fold := by
    have hfold : ∀ t : Text, (segments t).map Text.fold = segments (Text.fold t) := fun t =>
      (Text.pieces_map fun c _ => Text.toLower_eq_slash).symm
    rw [hfold, hfold, h]
  rw [hb.segments_path, hb'.segments_path, List.map_append, List.map_append] at hsegments
  obtain ⟨hdirectories, hfile⟩ := List.append_inj' hsegments rfl
  have hshort : Text.fold b.entity.shortName = Text.fold b'.entity.shortName := by
    have hname : Text.fold b.fileName = Text.fold b'.fileName := List.singleton_inj.1 hfile
    simp only [fileName, shortName, Text.fold_append] at hname
    exact List.append_cancel_right (List.append_cancel_right hname)
  calc Text.fold b.entity.qualifiedName
      = Name.qualify (Text.fold b.entity.scope) (Text.fold b.entity.shortName) := by
        rw [← Name.fold_qualify]
        exact congrArg Text.fold (Name.qualify_scope_short hb.entity).symm
    _ = Name.qualify (Text.fold b'.entity.scope) (Text.fold b'.entity.shortName) := by
        rw [fold_scope_eq, hdirectories, ← fold_scope_eq, hshort]
    _ = Text.fold b'.entity.qualifiedName := by
        rw [← Name.fold_qualify]
        exact congrArg Text.fold (Name.qualify_scope_short hb'.entity)

end Builder

namespace Manifest

/-! ## The files of a manifest -/

/-- Every file of a valid manifest is that of a well-formed builder. -/
theorem exists_of_mem_previews {m : Manifest} (hm : m.isValid) {style : Style} {p : Preview}
    (hp : p ∈ m.previews style) :
    ∃ b : Builder, b.IsWellFormed ∧ p.path = b.path := by
  obtain ⟨e, he, hpreview⟩ := List.mem_filterMap.1 hp
  obtain ⟨content, -, rfl⟩ := Option.map_eq_some_iff.1 hpreview
  exact ⟨m.builder e, isWellFormed_builder hm he, rfl⟩

theorem isBelow_of_mem_previews {m : Manifest} (hm : m.isValid) {style : Style} {p : Preview}
    (hp : p ∈ m.previews style) : Path.IsBelow p.path := by
  obtain ⟨b, hb, hpath⟩ := exists_of_mem_previews hm hp
  rw [hpath]
  exact hb.isBelow_path

/-- The paths of different files are different, also in another case. -/
theorem pairwise_fold_path {m : Manifest} (hm : m.isValid) (style : Style) :
    ((m.previews style).map fun p => Text.fold p.path).Nodup := by
  have hdistinct := (entityViolations_eq_nil_iff.1 (isValid_iff.1 hm).2).2
  rw [List.Nodup, List.pairwise_map] at hdistinct
  rw [List.Nodup, List.pairwise_map, previews, List.pairwise_filterMap]
  refine hdistinct.imp_of_mem ?_
  intro e f he hf hne p hp q hq
  obtain ⟨content, -, rfl⟩ := Option.map_eq_some_iff.1 hp
  obtain ⟨content', -, rfl⟩ := Option.map_eq_some_iff.1 hq
  intro heq
  exact hne ((isWellFormed_builder hm he).fold_qualifiedName_eq (isWellFormed_builder hm hf) heq)

theorem pairwise_apart {m : Manifest} (hm : m.isValid) (style : Style) :
    ((m.previews style).map Preview.path).Pairwise Path.Apart := by
  have hnodup := pairwise_fold_path hm style
  rw [List.Nodup, List.pairwise_map] at hnodup
  rw [List.pairwise_map]
  refine hnodup.imp_of_mem ?_
  intro p q hp hq hne
  obtain ⟨b, hb, hpath⟩ := exists_of_mem_previews hm hp
  obtain ⟨b', hb', hpath'⟩ := exists_of_mem_previews hm hq
  rw [hpath, hpath'] at hne ⊢
  have hsegments : segments b.path ≠ segments b'.path := by
    intro heq
    have hpaths := congrArg (Text.join [slash]) heq
    rw [segments, segments, Text.join_pieces, Text.join_pieces] at hpaths
    exact hne (congrArg Text.fold hpaths)
  exact ⟨fun h => hsegments (hb.segments_eq_of_prefix hb' h),
    fun h => hsegments (hb'.segments_eq_of_prefix hb h).symm⟩

end Manifest

/-- The files of a valid manifest have different paths, also in another case;
each leads down by names, and none is a directory of another. So written into
an empty directory they are there afterwards, with the directories above them,
and nothing else is there or has changed anywhere. -/
theorem fills_directory {m : Manifest} (hm : m.isValid) (style : Style) :
    ((m.previews style).map fun p => Text.fold p.path).Nodup ∧
    (∀ p ∈ m.previews style, Path.IsBelow p.path) ∧
    (∀ p ∈ m.previews style, ∀ q ∈ m.previews style, ∀ rest, q.path ≠ p.path ++ slash :: rest) ∧
    ∀ (t : Tree) (dir : Text) (l : Location), t.limits = Limits.unlimited → t.base? dir = some l →
      t.isDirectory l → t.below l = [] →
      ∃ done, m.generate style dir t = (done, .ok ((m.previews style).map Preview.path)) ∧
        (∀ way e, (way, e) ∈ done.below l ↔
          ∃ p ∈ m.previews style, Leaves (segments p.path) (Text.encode p.content) way e) ∧
        ∀ k, ¬ l <+: k → done.entry? k = t.entry? k := by
  have hbelow : ∀ p ∈ m.previews style, Path.IsBelow p.path := by
    intro p hp
    obtain ⟨b, hb, hpath⟩ := Manifest.exists_of_mem_previews hm hp
    rw [hpath]
    exact hb.isBelow_path
  refine ⟨Manifest.pairwise_fold_path hm style, hbelow, ?_, ?_⟩
  · intro p hp q hq rest heq
    obtain ⟨b, hb, hpath⟩ := Manifest.exists_of_mem_previews hm hp
    obtain ⟨b', hb', hpath'⟩ := Manifest.exists_of_mem_previews hm hq
    rw [hpath, hpath'] at heq
    have hsplit : segments b'.path = segments b.path ++ segments rest := by
      rw [segments, heq, Text.pieces_append_sep]
      rfl
    have hsame := hb.segments_eq_of_prefix hb' ⟨segments rest, hsplit.symm⟩
    rw [← hsame, List.self_eq_append_right] at hsplit
    exact Text.pieces_ne_nil slash rest hsplit
  · intro t dir l hlimits hbase hl hempty
    obtain ⟨done, hdone, hadds⟩ := writeAll_of_fits hlimits hbase hl hbelow
      (Manifest.pairwise_apart hm style)
      fun p _ => Tree.fits_of_below_eq_nil hl hempty (Text.pieces_ne_nil _ _)
    refine ⟨done, ?_, ?_, ?_⟩
    · rw [Manifest.generate, Manifest.outputs, hdone]
    · intro way e
      rw [hadds.listed l (Tree.isListed_of_below_eq_nil hempty) way e, hadds.entry?_iff]
      constructor
      · intro h
        obtain ⟨hway, hentry | ⟨n, hn, hleaves⟩⟩ := h
        · rw [Tree.entry?_of_below_eq_nil hempty hway] at hentry
          cases hentry
        · cases List.append_cancel_left hn
          exact hleaves
      · intro h
        obtain ⟨p, hp, hleaves⟩ := h
        exact ⟨hleaves.ne_nil (Text.pieces_ne_nil _ _), .inr ⟨way, rfl, p, hp, hleaves⟩⟩
    · intro k hk
      apply Option.ext
      intro e
      rw [hadds.entry?_iff]
      refine or_iff_left fun h => ?_
      obtain ⟨n, rfl, -⟩ := h
      exact hk (List.prefix_append l n)

/-- Two entities, the second one in a namespace below that of the first. -/
def shelf : Manifest :=
  ⟨Settings.default, [⟨"App\\Album".toList, [], []⟩, ⟨"App\\Model\\Song".toList, [], []⟩]⟩

/-- A tree with an empty directory and nothing else. -/
def emptyShelf : Tree := ⟨[], Limits.unlimited, [(["out".toList], .directory)]⟩

theorem fills_directory_shelf : shelf.isValid ∧ emptyShelf.limits = Limits.unlimited ∧
    emptyShelf.base? "./out/".toList = some ["out".toList] ∧
    emptyShelf.isDirectory ["out".toList] ∧ emptyShelf.below ["out".toList] = [] ∧
    ∃ done, shelf.generate .psr "./out/".toList emptyShelf = (done, .ok
        ["App/AlbumBuilderMethods.php".toList, "App/Model/SongBuilderMethods.php".toList]) ∧
      (["App".toList, "Model".toList], .directory) ∈ done.below ["out".toList] := by
  have hvalid : shelf.isValid := by decide
  have hbase : emptyShelf.base? "./out/".toList = some ["out".toList] := by decide
  have hdirectory : emptyShelf.isDirectory ["out".toList] := by decide
  have hempty : emptyShelf.below ["out".toList] = [] := by decide
  have hpaths : (shelf.previews .psr).map Preview.path =
      ["App/AlbumBuilderMethods.php".toList, "App/Model/SongBuilderMethods.php".toList] := rfl
  obtain ⟨-, -, -, hfills⟩ := fills_directory hvalid .psr
  obtain ⟨done, hdone, hbelow, -⟩ := hfills emptyShelf _ _ rfl hbase hdirectory hempty
  rw [hpaths] at hdone
  refine ⟨hvalid, rfl, hbase, hdirectory, hempty, done, hdone, (hbelow _ _).2 ?_⟩
  obtain ⟨p, hp, hpath⟩ := List.mem_map.1
    (hpaths ▸ List.mem_cons_of_mem _ List.mem_cons_self :
      "App/Model/SongBuilderMethods.php".toList ∈ (shelf.previews .psr).map Preview.path)
  refine ⟨p, hp, ?_⟩
  rw [hpath]
  exact .directory (by decide) (by decide) (by decide)

end BuilderForge
