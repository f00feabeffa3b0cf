import Mathlib.Data.List.Basic
import BuilderForge.Manifest.File
import BuilderForge.Proofs.Alterations
/-
  Writing files where there are none.

  A file leaves itself and the directories above it (`Leaves`). If there is
  nothing in its way, writing it adds exactly what it leaves
  (`overwrite_of_fits`). A written file is in the way of another one only if one
  of the two ways begins with the other, so files whose ways stand apart can be
  written one after the other, and together they add what each of them leaves
  (`writeAll_of_fits`).
-/

namespace BuilderForge

/-- What a file leaves at and above its way: the file, and directories. -/
inductive Leaves (way : List Text) (bytes : List UInt8) : List Text → Entry → Prop where
  | file : Leaves way bytes way (.file bytes)
  | directory {n : List Text} (hne : n ≠ []) (hbegins : n <+: way) (hproper : n ≠ way) :
    Leaves way bytes n .directory

theorem Leaves.ne_nil {way : List Text} {bytes : List UInt8} {n : List Text} {e : Entry}
    (h : Leaves way bytes n e) (hway : way ≠ []) : n ≠ [] := by
  cases h with
  | file => exact hway
  | directory hne _ _ => exact hne

namespace Tree

open BuilderForge.Path (segments isAbsolute IsName)

/-- Whether there is nothing in the way of a file below a location. -/
def Fits (t : Tree) (l : Location) (way : List Text) : Prop :=
  t.entry? (l ++ way) = none ∧
    ∀ n, n <+: way → n ≠ way → ∀ bytes, t.entry? (l ++ n) ≠ some (.file bytes)

/-- In an empty directory everything fits. -/
theorem fits_of_below_eq_nil {t : Tree} {l : Location} (hl : t.isDirectory l) (h : t.below l = [])
    {way : List Text} (hway : way ≠ []) : t.Fits l way := by
  refine ⟨entry?_of_below_eq_nil h hway, ?_⟩
  intro n _ _ bytes hfile
  by_cases hn : n = []
  · rw [hn, List.append_nil, of_decide_eq_true hl] at hfile
    cases hfile
  · rw [entry?_of_below_eq_nil h hn] at hfile
    cases hfile

/-- What one file leaves is not in the way of another one that stands apart. -/
theorem fits_of_adds {t t' : Tree} {l : Location} {way other : List Text} {bytes : List UInt8}
    (h : Adds t t' fun k e => ∃ n, k = l ++ n ∧ Leaves way bytes n e) (hfits : t.Fits l other)
    (hapart : ¬ way <+: other ∧ ¬ other <+: way) : t'.Fits l other := by
  obtain ⟨hfree, hfiles⟩ := hfits
  constructor
  · rw [Option.eq_none_iff_forall_ne_some]
    intro e he
    obtain he | ⟨n, hn, hleaves⟩ := (h.entry?_iff _ _).1 he
    · rw [hfree] at he
      cases he
    · cases List.append_cancel_left hn
      cases hleaves with
      | file => exact hapart.1 List.prefix_rfl
      | directory _ hbegins _ => exact hapart.2 hbegins
  · intro n hbegins hproper file hfile
    obtain hfile | ⟨k, hk, hleaves⟩ := (h.entry?_iff _ _).1 hfile
    · exact hfiles n hbegins hproper file hfile
    · cases List.append_cancel_left hk
      cases hleaves
      exact hapart.1 hbegins

end Tree

open BuilderForge.Tree (Adds)

theorem proper_prefix_concat_iff {n names : List Text} {name : Text} :
    n <+: names ++ [name] ∧ n ≠ names ++ [name] ↔ n <+: names := by
  constructor
  · intro h
    exact (List.prefix_concat_iff.1 h.1).resolve_left h.2
  · intro h
    refine ⟨h.trans (List.prefix_append names [name]), fun heq => ?_⟩
    have hlength := h.length_le
    rw [heq, List.length_append, List.length_singleton] at hlength
    omega

/-- The directories that a file leaves are those on the way to its name. -/
theorem leaves_concat_iff {names : List Text} {name : Text} {bytes : List UInt8} {n : List Text}
    {e : Entry} : Leaves (names ++ [name]) bytes n e ↔
      (e = .directory ∧ n ≠ [] ∧ n <+: names) ∨ n = names ++ [name] ∧ e = .file bytes := by
  constructor
  · intro h
    cases h with
    | file => exact .inr ⟨rfl, rfl⟩
    | directory hne hbegins hproper =>
      exact .inl ⟨rfl, hne, proper_prefix_concat_iff.1 ⟨hbegins, hproper⟩⟩
  · intro h
    obtain ⟨rfl, hne, hbegins⟩ | ⟨rfl, rfl⟩ := h
    · obtain ⟨hbegins, hproper⟩ := proper_prefix_concat_iff.2 hbegins
      exact .directory hne hbegins hproper
    · exact .file

/-- Writing a file where nothing is in its way adds what the file leaves. -/
theorem Output.overwrite_of_fits {o : Output} {t : Tree} {l : Location} {way : List Text}
    (hlimits : t.limits = Limits.unlimited) (hl : t.isDirectory l) (hgoes : t.GoesBy o.path l way)
    (hway : way ≠ []) (hnames : ∀ s ∈ way, Path.IsName s) (hfits : t.Fits l way) :
    ∃ done, o.overwrite t = (done, .ok .written) ∧
      Adds t done fun k e => ∃ n, k = l ++ n ∧ Leaves way (Text.encode o.content) n e := by
  obtain ⟨names, name, rfl⟩ := (List.eq_nil_or_concat' way).resolve_left hway
  obtain ⟨hplain, before, hsegments, hwalk⟩ := hgoes
  obtain ⟨hnone, hfiles⟩ := hfits
  rw [← List.append_assoc] at hsegments hnone
  have hname : Path.IsName name := hnames name (List.mem_append_right names List.mem_cons_self)
  have hpath : t.isPath o.path :=
    Tree.isPath_of_unlimited hlimits (Tree.ne_nil_of_segments hsegments hname) hplain
  have hnames' : ∀ s ∈ names, Path.IsName s := fun s hs => hnames s (List.mem_append_left _ hs)
  -- the directories above the file
  obtain ⟨made, hmade, hadds⟩ : ∃ made, t.makeDirectories l names = (made, true) ∧
      Adds t made fun k e => e = .directory ∧ Tree.IsOnWay l names k := by
    apply Tree.makeDirectories_names hlimits hnames'
    intro k hk
    obtain ⟨n, -, hn, rfl⟩ := hk
    obtain ⟨hbegins, hproper⟩ := proper_prefix_concat_iff.2 hn
    exact hfiles n hbegins hproper
  have hparent : t.makeDirectory ((Path.parent? o.path).getD []) = (made, true) := by
    rw [Tree.makeDirectory_parent hsegments hname hpath, Tree.makeDirectories_walk hwalk hl, hmade]
  have hdirectories : ∀ n, n <+: names → made.isDirectory (l ++ n) := by
    intro n hn
    by_cases hnil : n = []
    · rw [hnil, List.append_nil]
      exact hadds.isDirectory hl
    · exact decide_eq_true ((hadds.entry?_iff _ _).2 (.inr ⟨rfl, n, hnil, hn, rfl⟩))
  -- the file itself
  have hfree : made.entry? (l ++ names ++ [name]) = none := by
    rw [Option.eq_none_iff_forall_ne_some]
    intro e he
    obtain he | ⟨-, n, -, hbegins, heq⟩ := (hadds.entry?_iff _ _).1 he
    · rw [hnone] at he
      cases he
    · rw [List.append_assoc] at heq
      exact (proper_prefix_concat_iff.2 hbegins).2 (List.append_cancel_left heq).symm
  have hstart : made.walk (made.start o.path) (before ++ names) = some (l ++ names) := by
    have hhere : made.walk (made.start o.path) before = some l := by
      rw [Tree.start, hadds.workplace]
      exact Tree.walk_of_grows hadds.grows hwalk
    rw [Tree.walk_append, hhere]
    exact Tree.walk_names hnames' hdirectories
  have htarget : made.target? o.path = some (l ++ names ++ [name]) := by
    apply Tree.target?_eq_some_iff.2
    refine ⟨before ++ names, name, l ++ names, hsegments, hname, ?_, ?_, hstart,
      hdirectories names List.prefix_rfl, rfl, ?_⟩
    · rw [Tree.isPath, hadds.limits]
      exact hpath
    · rw [Tree.isName, hadds.limits, hlimits]
      rfl
    · rw [Tree.isDirectory, hfree]
      rfl
  refine ⟨made.put (l ++ names ++ [name]) (.file (Text.encode o.content)), ?_, ?_⟩
  · have hwrite : made.writeFile? o.path (Text.encode o.content) =
        some (made.put (l ++ names ++ [name]) (.file (Text.encode o.content))) := by
      rw [Tree.writeFile?, htarget]
      rfl
    unfold overwrite
    dsimp only
    rw [hparent]
    dsimp only
    rw [hwrite]
  · refine (hadds.trans (.put _ hfree)).congr fun k e => or_congr_right ?_
    simp only [leaves_concat_iff]
    constructor
    · intro h
      obtain ⟨rfl, n, hne, hbegins, rfl⟩ | ⟨rfl, rfl⟩ := h
      · exact ⟨n, rfl, .inl ⟨rfl, hne, hbegins⟩⟩
      · exact ⟨names ++ [name], List.append_assoc .., .inr ⟨rfl, rfl⟩⟩
    · intro h
      obtain ⟨n, rfl, ⟨rfl, hne, hbegins⟩ | ⟨rfl, rfl⟩⟩ := h
      · exact .inl ⟨rfl, n, hne, hbegins, rfl⟩
      · exact .inr ⟨(List.append_assoc ..).symm, rfl⟩

/-! ## Several files -/

/-- Whether a path leads down from a directory by names, and can be one of a file system. -/
structure Path.IsBelow (p : Text) : Prop where
  relative : isAbsolute p = false
  names : ∀ s ∈ segments p, IsName s
  plain : Char.ofNat 0 ∉ p

/-- Whether neither of two paths is the other or leads through it. -/
def Path.Apart (p q : Text) : Prop := ¬ segments p <+: segments q ∧ ¬ segments q <+: segments p

/-- Files whose paths stand apart are written one after the other where nothing
is in the way of any of them, and add what each of them leaves. -/
theorem writeAll_of_fits {dir : Text} {l : Location} {ps : List Preview} {t : Tree}
    (hlimits : t.limits = Limits.unlimited) (hbase : t.base? dir = some l) (hl : t.isDirectory l)
    (hbelow : ∀ p ∈ ps, Path.IsBelow p.path) (hapart : (ps.map Preview.path).Pairwise Path.Apart)
    (hfits : ∀ p ∈ ps, t.Fits l (Path.segments p.path)) :
    ∃ done, Output.writeAll (ps.map fun p => ⟨Path.join dir p.path, p.content, false⟩) t =
        (done, .ok (ps.map fun _ => .written)) ∧
      Adds t done fun k e => ∃ n, k = l ++ n ∧
        ∃ p ∈ ps, Leaves (Path.segments p.path) (Text.encode p.content) n e := by
  induction ps generalizing t with
  | nil => exact ⟨t, rfl, (Adds.refl t).congr fun k e => by simp⟩
  | cons p ps ih =>
    obtain ⟨hrelative, hnames, hplain⟩ := hbelow p List.mem_cons_self
    rw [List.map_cons, List.pairwise_cons] at hapart
    obtain ⟨first, hfirst, hadds⟩ := Output.overwrite_of_fits
      (o := ⟨Path.join dir p.path, p.content, false⟩) hlimits hl
      (Tree.goesBy_join hbase hl hrelative hplain) (Text.pieces_ne_nil _ _) hnames
      (hfits p List.mem_cons_self)
    obtain ⟨done, hdone, hadds'⟩ := ih (hadds.limits.trans hlimits)
      (Tree.base?_of_grows hadds.grows hbase) (hadds.isDirectory hl)
      (fun q hq => hbelow q (List.mem_cons_of_mem p hq)) hapart.2
      (fun q hq => Tree.fits_of_adds hadds (hfits q (List.mem_cons_of_mem p hq))
        (hapart.1 q.path (List.mem_map_of_mem hq)))
    refine ⟨done, ?_, ?_⟩
    · rw [List.map_cons, Output.writeAll, Output.write, Bool.false_and,
        if_neg Bool.false_ne_true, hfirst]
      dsimp only
      rw [hdone]
      rfl
    · refine (hadds.trans hadds').congr fun k e => or_congr_right ?_
      constructor
      · intro h
        obtain ⟨n, hk, hleaves⟩ | ⟨n, hk, q, hq, hleaves⟩ := h
        · exact ⟨n, hk, p, List.mem_cons_self, hleaves⟩
        · exact ⟨n, hk, q, List.mem_cons_of_mem p hq, hleaves⟩
      · intro h
        obtain ⟨n, hk, q, hq, hleaves⟩ := h
        obtain rfl | hq := List.mem_cons.1 hq
        · exact .inl ⟨n, hk, hleaves⟩
        · exact .inr ⟨n, hk, q, hq, hleaves⟩

end BuilderForge
