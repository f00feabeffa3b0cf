import BuilderForge.Command.Run
import BuilderForge.Proofs.Overwriting
import BuilderForge.Proofs.RootedTrees
/-
  Outputs that are written only if they are missing.

  Whether an output is missing is asked before the directories above it are made,
  and two dots lead out of a directory only if it is there. So a path may lead
  nowhere at first, and to a file once its directories have been made: it comes
  back through a missing directory. `keeps_files_iff` says that this is the only
  way in which such an output replaces a file, and that it does not happen to
  paths without two dots.
-/

namespace BuilderForge

open BuilderForge.Tree (Alters)
open BuilderForge.Path (segments IsName follow Enters)

/-- Whether the files of a tree are in another one, with the same bytes. -/
def Tree.FilesKept (t t' : Tree) : Prop :=
  ∀ l bytes, t.entry? l = some (.file bytes) → t'.entry? l = some (.file bytes)

namespace Output

/-- Whether the path of an output goes through a missing directory and comes back
to a file that holds something else. -/
structure ComesBack (o : Output) (t : Tree) : Prop where
  path : t.isPath o.path
  name : ∃ name, (segments o.path).getLast? = some name ∧ IsName name ∧ t.isName name
  /-- No file is in the way of the directories, -/
  way : t.IsOpen (t.start o.path) (segments o.path).dropLast
  /-- and one of them is missing. -/
  missing : ∃ k r, Enters (t.start o.path) (segments o.path).dropLast k r ∧ t.entry? (k ++ [r]) = none
  /-- Where the path leads is a file all the same. -/
  file : ∃ bytes, t.entry? (t.destination o.path) = some (.file bytes) ∧ bytes ≠ Text.encode o.content

variable {o : Output} {t : Tree}

/-! ## One output -/

theorem write_of_reaches (ho : o.onlyIfMissing) (h : t.reaches o.path) : o.write t = (t, .ok .skipped) := by
  rw [write, ho, h]
  rfl

theorem write_of_not_reaches (h : t.reaches o.path = false) : o.write t = o.overwrite t := by
  rw [write, h, Bool.and_false]
  rfl

/-- An output that is skipped changes nothing. -/
theorem write_eq_self_of_skipped (h : (o.write t).2 = .ok .skipped) : (o.write t).1 = t := by
  unfold write at h ⊢
  split
  · rfl
  · rename_i hwrite
    rw [if_neg hwrite] at h
    have hstep := o.overwrites t
    generalize o.overwrite t = outcome at hstep h
    cases hstep with
    | failed _ => cases h
    | written _ _ _ => cases h

/-- A path that comes back leads nowhere before its directories are made. -/
theorem ComesBack.reaches_eq (h : o.ComesBack t) : t.reaches o.path = false := by
  obtain ⟨name, hlast, -, -⟩ := h.name
  obtain ⟨k, r, henters, hmissing⟩ := h.missing
  rw [Tree.reaches, Tree.locate, if_pos h.path, ← List.dropLast_append_getLast? name hlast,
    Tree.walk_append]
  cases hwalk : t.walk (t.start o.path) (segments o.path).dropLast with
  | none => rfl
  | some d =>
    have hthere := Tree.isSome_of_walk hwalk henters
    rw [hmissing] at hthere
    cases hthere

/-- An output that comes back is written over the file. -/
theorem ComesBack.entry?_write (h : o.ComesBack t) (ht : t.IsRooted) :
    Tree.entry? (o.write t).1 (t.destination o.path) = some (.file (Text.encode o.content)) := by
  obtain ⟨name, hlast, hname, hkept⟩ := h.name
  obtain ⟨bytes, hfile, -⟩ := h.file
  have hsplit := (List.dropLast_append_getLast? name hlast).symm
  obtain ⟨made, hmade⟩ : ∃ made, t.makeDirectories (t.start o.path) (segments o.path).dropLast =
      (made, true) := ⟨_, Prod.ext rfl (Tree.makeDirectories_snd_iff.2 h.way)⟩
  have halters := Tree.makeDirectories_alters t (t.start o.path) (segments o.path).dropLast
  rw [hmade] at halters
  have hfree : made.isDirectory (t.destination o.path) = false := by
    rw [Tree.isDirectory, (halters.untouched _ not_false bytes).2 hfile]
    rfl
  have htarget := Tree.target?_of_makeDirectories ht hsplit hname h.path hkept hmade hfree
  rw [write_of_not_reaches h.reaches_eq, overwrite, Tree.makeDirectory_parent hsplit hname h.path, hmade]
  dsimp only
  rw [Tree.writeFile?, htarget]
  dsimp only [Option.map_some]
  rw [Tree.entry?_put (Tree.ne_nil_of_not_isDirectory hfree), if_pos rfl]

/-- A file that is replaced is one to which the path came back. -/
theorem comesBack_of_changed (ho : o.onlyIfMissing) (ht : t.IsRooted) {l : Location} {bytes : List UInt8}
    (hl : t.entry? l = some (.file bytes))
    (hchanged : Tree.entry? (o.write t).1 l ≠ some (.file bytes)) :
    l = t.destination o.path ∧ o.ComesBack t := by
  have hreaches : t.reaches o.path = false := by
    by_contra hreaches
    rw [Bool.not_eq_false] at hreaches
    rw [write_of_reaches ho hreaches] at hchanged
    exact hchanged hl
  rw [write_of_not_reaches hreaches] at hchanged
  have hstep := o.overwrites t
  generalize o.overwrite t = outcome at hstep hchanged
  cases hstep with
  | failed halters => exact absurd ((halters.untouched l not_false bytes).2 hl) hchanged
  | written halters hplaced hmade =>
    have hdestination : l = t.destination o.path := by
      by_contra hne
      exact hchanged ((halters.untouched l hne bytes).2 hl)
    subst hdestination
    obtain ⟨before, name, -, hsplit, hname, hpath, hkept, -⟩ :=
      Tree.target?_eq_some_iff.1 hplaced.target
    rw [halters.isPath_eq] at hpath
    rw [Tree.isName, halters.limits] at hkept
    rw [Tree.makeDirectory_parent hsplit hname hpath, Tree.makeDirectories_snd_iff] at hmade
    have hdropLast : (segments o.path).dropLast = before := by rw [hsplit, List.dropLast_concat]
    refine ⟨rfl, ⟨hpath, ⟨name, ?_, hname, hkept⟩, hdropLast ▸ hmade, ?_, bytes, hl, ?_⟩⟩
    · rw [hsplit, List.getLast?_concat]
    · -- if nothing was missing, the path led to the file, and it was skipped
      by_contra hmissing
      have hthere : ∀ k r, Enters (t.start o.path) before k r → t.isDirectory (k ++ [r]) := by
        intro k r henters
        refine (hmade k r henters).resolve_right fun hfree => hmissing ⟨k, r, ?_, hfree.1⟩
        rwa [hdropLast]
      have hfree : t.isDirectory (t.destination o.path) = false := by
        rw [Tree.isDirectory, hl]
        rfl
      have htarget := Tree.target?_of_enters ht hsplit hname hpath hkept hthere hfree
      rw [Tree.reaches, Tree.locate_of_target? htarget (by rw [hl]; rfl)] at hreaches
      cases hreaches
    · intro hsame
      have hfile := hplaced.file
      rw [halters.destination_eq, ← hsame] at hfile
      exact hchanged hfile

/-- Without two dots no path comes back. -/
theorem ComesBack.up_mem (h : o.ComesBack t) (ht : t.IsRooted) : Path.up ∈ segments o.path := by
  by_contra hup
  obtain ⟨name, hlast, hname, -⟩ := h.name
  obtain ⟨k, r, henters, hmissing⟩ := h.missing
  obtain ⟨bytes, hfile, -⟩ := h.file
  have hsplit := (List.dropLast_append_getLast? name hlast).symm
  rw [Tree.destination, hsplit, Path.follow_append, Path.follow_name hname, follow] at hfile
  have hthere := Tree.isDirectory_of_enters ht (fun hmem => hup (List.dropLast_subset _ hmem))
    (by rw [hfile]; rfl) henters
  rw [Tree.isDirectory, hmissing] at hthere
  cases hthere

theorem isRooted_write (ht : t.IsRooted) (o : Output) : (o.write t).1.IsRooted := by
  unfold write
  split
  · exact ht
  have hmade := ht.makeDirectory ((Path.parent? o.path).getD [])
  unfold overwrite
  dsimp only
  split
  · rename_i heq
    rwa [heq] at hmade
  rename_i heq
  rw [heq] at hmade
  split
  · rename_i hwrite
    obtain ⟨l, htarget, rfl⟩ := Option.map_eq_some_iff.1 hwrite
    exact hmade.putFile htarget _
  · exact hmade

/-- Whatever becomes of an output, at most the file that its path leads to has other bytes. -/
theorem write_alters (o : Output) (t : Tree) :
    Alters t (o.write t).1 fun l => l = t.destination o.path := by
  unfold write
  split
  · exact (Alters.refl t).mono fun _ h => h.elim
  · have hstep := o.overwrites t
    generalize o.overwrite t = outcome at hstep ⊢
    cases hstep with
    | failed halters => exact halters.mono fun _ h => h.elim
    | written halters _ _ => exact halters

/-! ## One output after the other -/

/-- The tree after outputs have been written one after the other, whatever
becomes of each. -/
def treeAfter (os : List Output) (t : Tree) : Tree := os.foldl (fun t o => (o.write t).1) t

theorem treeAfter_concat (os : List Output) (o : Output) (t : Tree) :
    treeAfter (os ++ [o]) t = (o.write (treeAfter os t)).1 := by
  rw [treeAfter, List.foldl_append]
  rfl

theorem isRooted_treeAfter (ht : t.IsRooted) (os : List Output) : (treeAfter os t).IsRooted := by
  induction os using List.reverseRecOn with
  | nil => exact ht
  | append_singleton os o ih =>
    rw [treeAfter_concat]
    exact isRooted_write ih o

theorem treeAfter_alters (os : List Output) (t : Tree) :
    Alters t (treeAfter os t) fun l => ∃ o ∈ os, l = t.destination o.path := by
  induction os using List.reverseRecOn with
  | nil => exact (Alters.refl t).mono fun _ h => h.elim
  | append_singleton os o ih =>
    rw [treeAfter_concat]
    refine (ih.trans (o.write_alters (treeAfter os t))).mono fun l hl => ?_
    obtain ⟨o', ho', rfl⟩ | rfl := hl
    · exact ⟨o', List.mem_append_left [o] ho', rfl⟩
    · exact ⟨o, List.mem_append_right os (List.mem_singleton_self o), ih.destination_eq o.path⟩

/-- All files are kept unless a path comes back to one of them. -/
theorem filesKept_of_not_comesBack (ht : t.IsRooted) {os : List Output}
    (hos : ∀ o ∈ os, o.onlyIfMissing)
    (h : ∀ done o, done ++ [o] <+: os → o.ComesBack (treeAfter done t) →
      ∀ bytes, t.entry? ((treeAfter done t).destination o.path) ≠ some (.file bytes))
    {done : List Output} (hdone : done <+: os) : t.FilesKept (treeAfter done t) := by
  induction done using List.reverseRecOn with
  | nil => exact fun _ _ hl => hl
  | append_singleton done o ih =>
    intro l bytes hl
    have hkept := ih ((List.prefix_append done [o]).trans hdone) l bytes hl
    have ho := hos o (hdone.subset (List.mem_append_right done (List.mem_singleton_self o)))
    rw [treeAfter_concat]
    by_contra hchanged
    obtain ⟨rfl, hback⟩ := comesBack_of_changed ho (isRooted_treeAfter ht done) hkept hchanged
    exact h done o hdone hback bytes hl

/-- A file to which a path came back is not kept. -/
theorem ComesBack.not_filesKept (ht : t.IsRooted) {done : List Output}
    (hback : o.ComesBack (treeAfter done t)) {bytes : List UInt8}
    (hfile : t.entry? ((treeAfter done t).destination o.path) = some (.file bytes))
    (hkept : t.FilesKept (treeAfter done t)) : ¬ t.FilesKept (treeAfter (done ++ [o]) t) := by
  intro hafter
  have hbytes := hafter _ bytes hfile
  rw [treeAfter_concat, hback.entry?_write (isRooted_treeAfter ht done)] at hbytes
  obtain ⟨bytes', hbefore, hne⟩ := hback.file
  rw [hkept _ bytes hfile] at hbefore
  cases hbefore
  cases hbytes
  exact hne rfl

end Output

open BuilderForge.Output (treeAfter)

/-- Outputs that are written only if they are missing keep all files that there
were, after each of them, exactly if no path of theirs comes back to such a file.
Paths without two dots never do. In any case no file is removed, and an output
that is skipped changes nothing. -/
theorem keeps_files_iff {t : Tree} (ht : t.IsRooted) {os : List Output}
    (hos : ∀ o ∈ os, o.onlyIfMissing) :
    ((∀ done, done <+: os → t.FilesKept (treeAfter done t)) ↔
      ∀ done o, done ++ [o] <+: os → o.ComesBack (treeAfter done t) →
        ∀ bytes, t.entry? ((treeAfter done t).destination o.path) ≠ some (.file bytes)) ∧
    ((∀ o ∈ os, Path.up ∉ segments o.path) →
      ∀ done, done <+: os → t.FilesKept (treeAfter done t)) ∧
    (∀ l bytes, t.entry? l = some (.file bytes) →
      ∃ bytes', Tree.entry? (treeAfter os t) l = some (.file bytes')) ∧
    ∀ done o, done ++ [o] <+: os → (o.write (treeAfter done t)).2 = .ok .skipped →
      treeAfter (done ++ [o]) t = treeAfter done t := by
  refine ⟨⟨fun hkept done o hdone hback bytes hfile => ?_, fun h done hdone => ?_⟩,
    fun hup done hdone => ?_, (Output.treeAfter_alters os t).file, fun done o _ hskipped => ?_⟩
  · have hbefore := hkept done ((List.prefix_append done [o]).trans hdone)
    exact hback.not_filesKept ht hfile hbefore (hkept _ hdone)
  · exact Output.filesKept_of_not_comesBack ht hos h hdone
  · refine Output.filesKept_of_not_comesBack ht hos (fun first o hfirst hback => ?_) hdone
    have ho := hfirst.subset (List.mem_append_right first (List.mem_singleton_self o))
    exact absurd (hback.up_mem (Output.isRooted_treeAfter ht first)) (hup o ho)
  · rw [Output.treeAfter_concat]
    exact Output.write_eq_self_of_skipped hskipped

/-- A home directory with a manifest in it. -/
def home : Tree := ⟨[], Limits.usual, [(["builders.toml".toList], .file [0x23, 0x0A])]⟩

theorem keeps_files_iff_home : home.IsRooted ∧
    ∀ done, done <+: [⟨"./builders.toml".toList, Command.starterManifest, true⟩,
        ⟨"new//builders.toml".toList, Command.starterManifest, true⟩] →
      home.FilesKept (treeAfter done home) := by
  have hrooted : home.IsRooted := Tree.isRooted_of_entries rfl (by decide)
  have hos : ∀ o ∈ [Output.mk "./builders.toml".toList Command.starterManifest true,
      Output.mk "new//builders.toml".toList Command.starterManifest true], o.onlyIfMissing = true := by
    decide
  obtain ⟨-, hkept, -⟩ := keeps_files_iff hrooted hos
  exact ⟨hrooted, hkept (by decide)⟩

/-- The starter manifest replaces the manifest to which its path comes back. -/
theorem not_keeps_files_home : home.IsRooted ∧
    (Output.write ⟨"new/../builders.toml".toList, Command.starterManifest, true⟩ home).2 =
      .ok .written ∧
    ¬ home.FilesKept
      (treeAfter [⟨"new/../builders.toml".toList, Command.starterManifest, true⟩] home) ∧
    (Command.run ["init".toList, "new/..".toList] home).1.read? "builders.toml".toList =
      some (Text.encode Command.starterManifest) := by
  refine ⟨Tree.isRooted_of_entries rfl (by decide), by decide +kernel, ?_, by decide +kernel⟩
  intro h
  have hkept := h ["builders.toml".toList] [0x23, 0x0A] rfl
  revert hkept
  decide +kernel

end BuilderForge
