import Mathlib.Data.List.Basic
import BuilderForge.Proofs.Alterations
import BuilderForge.Proofs.OutputPaths
/-
  Writing files into any tree.

  Writing over whatever is there either fails and touches no file, or puts the
  output in its place and touches this one location (`Output.overwrites`). An
  output in its place stays there while other locations are touched, and to write
  it again changes nothing (`IsPlaced`). From this comes what writing outputs one
  after the other does if they lie at different locations (`writeAll_spec`): those
  before the first fault are in their places, and nothing else has been touched.

  The files of a valid manifest lie at different locations below any directory,
  so this says what a run does to any tree, wherever it stops, and that a second
  run after a successful one changes nothing: `writes_until_fault`.
-/

namespace BuilderForge

open BuilderForge.Tree (Alters)

namespace Output

/-- Whether an output is in its place, so that writing it again changes nothing. -/
structure IsPlaced (o : Output) (t : Tree) : Prop where
  directory : t.makeDirectory ((Path.parent? o.path).getD []) = (t, true)
  target : t.target? o.path = some (t.destination o.path)
  file : t.entry? (t.destination o.path) = some (.file (Text.encode o.content))

namespace IsPlaced

variable {o : Output} {t t' : Tree}

theorem overwrite_eq (h : o.IsPlaced t) : o.overwrite t = (t, .ok .written) := by
  have hne := Tree.ne_nil_of_not_isDirectory (Tree.isDirectory_of_target? h.target)
  have hwrite : t.writeFile? o.path (Text.encode o.content) = some t := by
    rw [Tree.writeFile?, h.target, Option.map_some, Tree.put_eq_self hne h.file]
  unfold overwrite
  dsimp only
  rw [h.directory]
  dsimp only
  rw [hwrite]

theorem locate_eq (h : o.IsPlaced t) : t.locate o.path = some (t.destination o.path) :=
  Tree.locate_of_target? h.target (by rw [h.file]; rfl)

theorem read?_eq (h : o.IsPlaced t) : t.read? o.path = some (Text.encode o.content) := by
  rw [Tree.read?, h.locate_eq, Option.bind_some, h.file]

/-- An output stays in its place as long as this is not touched. -/
theorem of_alters (h : o.IsPlaced t) {touched : Location → Prop} (halters : Alters t t' touched)
    (hfree : ¬ touched (t.destination o.path)) : o.IsPlaced t' := by
  have hfile := (halters.untouched _ hfree _).2 h.file
  refine ⟨Tree.makeDirectory_again h.directory halters, ?_, ?_⟩
  · rw [halters.destination_eq]
    apply Tree.target?_of_alters halters h.target
    rw [Tree.isDirectory, hfile]
    rfl
  · rw [halters.destination_eq]
    exact hfile

end IsPlaced

/-- What becomes of a tree in which an output is written over whatever is there:
nothing, as far as files go, or the output is in its place. -/
inductive Overwrites (o : Output) (t : Tree) : Tree × Except WriteFault Written → Prop where
  | failed {done : Tree} {f : WriteFault} (h : Alters t done fun _ => False) :
    Overwrites o t (done, .error f)
  | written {done : Tree} (h : Alters t done fun l => l = t.destination o.path)
    (hplaced : o.IsPlaced done)
    (hmade : (t.makeDirectory ((Path.parent? o.path).getD [])).2 = true) :
    Overwrites o t (done, .ok .written)

theorem overwrites (o : Output) (t : Tree) : o.Overwrites t (o.overwrite t) := by
  unfold overwrite
  dsimp only
  have hmade := Tree.makeDirectory_alters t ((Path.parent? o.path).getD [])
  split
  · rename_i made heq
    rw [heq] at hmade
    exact .failed hmade
  rename_i made heq
  rw [heq] at hmade
  split
  · rename_i done hwrite
    obtain ⟨l, htarget, rfl⟩ := Option.map_eq_some_iff.1 hwrite
    have hfree := Tree.isDirectory_of_target? htarget
    have hdestination := Tree.eq_destination_of_target? htarget
    have hput := Alters.putFile hfree (Text.encode o.content)
    have hfile : Tree.entry? (made.put l (.file (Text.encode o.content))) l =
        some (.file (Text.encode o.content)) := by
      rw [Tree.entry?_put (Tree.ne_nil_of_not_isDirectory hfree), if_pos rfl]
    have hplace : Tree.destination (made.put l (.file (Text.encode o.content))) o.path = l := by
      rw [hput.destination_eq, hdestination]
    refine .written ((hmade.trans hput).mono ?_) ⟨Tree.makeDirectory_again heq hput, ?_, ?_⟩
      (congrArg Prod.snd heq)
    · intro k hk
      rw [hk.resolve_left id, hdestination, hmade.destination_eq]
    · rw [hplace]
      apply Tree.target?_of_alters hput htarget
      rw [Tree.isDirectory, hfile]
      rfl
    · rw [hplace]
      exact hfile
  · exact .failed hmade

/-! ## Several outputs -/

/-- Whether outputs have come to their places in a tree and nothing else has been touched. -/
structure HaveCome (os : List Output) (t done : Tree) : Prop where
  placed : ∀ o ∈ os, o.IsPlaced done
  alters : Alters t done fun l => ∃ o ∈ os, l = t.destination o.path

namespace HaveCome

variable {o : Output} {os : List Output} {t first done : Tree}

theorem nil (h : Alters t done fun _ => False) : HaveCome [] t done :=
  ⟨fun _ ho => absurd ho List.not_mem_nil, h.mono fun _ hl => hl.elim⟩

/-- An output comes to its place, and then others come to other places. -/
theorem cons (halters : Alters t first fun l => l = t.destination o.path) (hplaced : o.IsPlaced first)
    (h : HaveCome os first done) (hapart : ∀ o' ∈ os, t.destination o.path ≠ t.destination o'.path) :
    HaveCome (o :: os) t done := by
  constructor
  · intro o' ho'
    obtain rfl | ho' := List.mem_cons.1 ho'
    · refine hplaced.of_alters h.alters fun htouched => ?_
      obtain ⟨other, hother, heq⟩ := htouched
      rw [halters.destination_eq, halters.destination_eq] at heq
      exact hapart other hother heq
    · exact h.placed o' ho'
  · refine (halters.trans h.alters).mono fun l hl => ?_
    obtain rfl | ⟨o', ho', rfl⟩ := hl
    · exact ⟨o, List.mem_cons_self, rfl⟩
    · exact ⟨o', List.mem_cons_of_mem o ho', halters.destination_eq o'.path⟩

end HaveCome

/-- Outputs at different locations are written up to the first fault. -/
theorem writeAll_spec {os : List Output} {t : Tree} (hover : ∀ o ∈ os, o.onlyIfMissing = false)
    (hapart : (os.map fun o => t.destination o.path).Nodup) :
    ∃ done result written rest, writeAll os t = (done, result) ∧ os = written ++ rest ∧
      HaveCome written t done ∧
      ((∃ ws, result = .ok ws) ∧ rest = [] ∨ (∃ f, result = .error f) ∧ rest ≠ []) := by
  induction os generalizing t with
  | nil => exact ⟨t, _, [], [], rfl, rfl, .nil (Alters.refl t), .inl ⟨⟨[], rfl⟩, rfl⟩⟩
  | cons o os ih =>
    rw [List.map_cons, List.nodup_cons] at hapart
    have hwrite : o.write t = o.overwrite t := by
      rw [write, hover o List.mem_cons_self, Bool.false_and]
      rfl
    rw [writeAll, hwrite]
    have hstep := o.overwrites t
    generalize o.overwrite t = outcome at hstep ⊢
    cases hstep with
    | failed halters =>
      exact ⟨_, _, [], o :: os, rfl, rfl, .nil halters, .inr ⟨⟨_, rfl⟩, List.cons_ne_nil o os⟩⟩
    | @written first halters hplaced _ =>
      have hsame : (os.map fun o => first.destination o.path) =
          os.map fun o => t.destination o.path :=
        List.map_congr_left fun o _ => halters.destination_eq o.path
      obtain ⟨done, result, written, rest, hdone, rfl, hcome, hresult⟩ :=
        ih (t := first) (fun o' ho' => hover o' (List.mem_cons_of_mem o ho')) (hsame ▸ hapart.2)
      have hcome' : HaveCome (o :: written) t done := by
        refine .cons halters hplaced hcome fun o' ho' heq => hapart.1 ?_
        rw [heq]
        exact List.mem_map_of_mem (List.mem_append_left rest ho')
      dsimp only
      rw [hdone]
      obtain ⟨⟨ws, rfl⟩, hrest⟩ | ⟨⟨f, rfl⟩, hrest⟩ := hresult
      · exact ⟨done, _, o :: written, rest, rfl, rfl, hcome', .inl ⟨⟨_, rfl⟩, hrest⟩⟩
      · exact ⟨done, _, o :: written, rest, rfl, rfl, hcome', .inr ⟨⟨f, rfl⟩, hrest⟩⟩

/-- Outputs that are in their places are written without a change. -/
theorem writeAll_of_isPlaced {os : List Output} {t : Tree} (hover : ∀ o ∈ os, o.onlyIfMissing = false)
    (h : ∀ o ∈ os, o.IsPlaced t) : ∃ ws, writeAll os t = (t, .ok ws) := by
  induction os with
  | nil => exact ⟨[], rfl⟩
  | cons o os ih =>
    obtain ⟨ws, hws⟩ := ih (fun o' ho' => hover o' (List.mem_cons_of_mem o ho'))
      fun o' ho' => h o' (List.mem_cons_of_mem o ho')
    refine ⟨.written :: ws, ?_⟩
    rw [writeAll, write, hover o List.mem_cons_self, Bool.false_and, if_neg Bool.false_ne_true,
      (h o List.mem_cons_self).overwrite_eq]
    dsimp only
    rw [hws]

end Output

/-! ## The files of a manifest -/

/-- The output of a preview below a directory. -/
def Preview.output (dir : Text) (p : Preview) : Output := ⟨Path.join dir p.path, p.content, false⟩

theorem Preview.onlyIfMissing_output {dir : Text} {ps : List Preview} :
    ∀ o ∈ ps.map (output dir), o.onlyIfMissing = false := by
  intro o ho
  obtain ⟨p, -, rfl⟩ := List.mem_map.1 ho
  rfl

/-- The files of a valid manifest lie at different locations below any directory. -/
theorem Manifest.nodup_destinations {m : Manifest} (hm : m.isValid) (style : Style) (dir : Text)
    (t : Tree) : ((m.previews style).map fun p => t.destination (p.output dir).path).Nodup := by
  obtain ⟨base, hbase⟩ := t.exists_destination_join dir
  have hapart := pairwise_apart hm style
  rw [List.pairwise_map] at hapart
  rw [List.Nodup, List.pairwise_map]
  refine hapart.imp_of_mem ?_
  intro p q hp hq hpq heq
  have hbelow := isBelow_of_mem_previews hm hp
  have hbelow' := isBelow_of_mem_previews hm hq
  rw [Preview.output, Preview.output, hbase _ hbelow.relative, hbase _ hbelow'.relative,
    Path.follow_names hbelow.names, Path.follow_names hbelow'.names] at heq
  exact hpq.1 (List.append_cancel_left heq ▸ List.prefix_rfl)

/-- The files of a valid manifest are written up to the first fault. -/
theorem Manifest.writeAll_previews {m : Manifest} (hm : m.isValid) (style : Style) (dir : Text)
    (t : Tree) : ∃ done result written rest,
      Output.writeAll ((m.previews style).map (Preview.output dir)) t = (done, result) ∧
      m.previews style = written ++ rest ∧
      Output.HaveCome (written.map (Preview.output dir)) t done ∧
      ((∃ ws, result = .ok ws) ∧ rest = [] ∨ (∃ f, result = .error f) ∧ rest ≠ []) := by
  have hapart := nodup_destinations hm style dir t
  obtain ⟨done, result, came, left, hdone, hsplit, hcome, hresult⟩ :=
    Output.writeAll_spec Preview.onlyIfMissing_output (by rw [List.map_map]; exact hapart)
  obtain ⟨written, rest, hbegins, rfl, rfl⟩ := List.map_eq_append_iff.1 hsplit
  refine ⟨done, result, written, rest, hdone, hbegins, hcome, ?_⟩
  rwa [List.map_eq_nil_iff, ne_eq, List.map_eq_nil_iff] at hresult

/-- What there is after some files of a plan have been written below a directory
and others have not. -/
structure Tree.IsWrittenUpTo (t done : Tree) (dir : Text) (written rest : List Preview) : Prop where
  /-- Each written file holds what it should. -/
  content : ∀ p ∈ written, done.read? (Path.join dir p.path) = some (Text.encode p.content)
  /-- Every other file was there before with the same bytes, and is there still. -/
  kept : ∀ l, (∀ p ∈ written, done.locate (Path.join dir p.path) ≠ some l) → ∀ bytes,
    done.entry? l = some (.file bytes) ↔ t.entry? l = some (.file bytes)
  /-- This goes for the files that have not been written, if there are any. -/
  unwritten : ∀ p ∈ rest, ∀ l, done.locate (Path.join dir p.path) = some l → ∀ bytes,
    done.entry? l = some (.file bytes) ↔ t.entry? l = some (.file bytes)
  /-- No file is removed, and no directory is. -/
  file : ∀ l bytes, t.entry? l = some (.file bytes) → ∃ bytes', done.entry? l = some (.file bytes')
  directory : ∀ l, t.isDirectory l → done.isDirectory l
  /-- Where a path led, it leads still. -/
  locate : ∀ p l, t.locate p = some l → done.locate p = some l

theorem Output.HaveCome.isWrittenUpTo {t done : Tree} {dir : Text} {written rest : List Preview}
    (h : HaveCome (written.map (Preview.output dir)) t done)
    (hapart : ((written ++ rest).map fun p => t.destination (p.output dir).path).Nodup) :
    t.IsWrittenUpTo done dir written rest := by
  have hplaced : ∀ p ∈ written, (p.output dir).IsPlaced done := fun p hp =>
    h.placed _ (List.mem_map_of_mem hp)
  refine ⟨fun p hp => (hplaced p hp).read?_eq, ?_, ?_, h.alters.file, h.alters.directory,
    fun p l => Tree.locate_of_grows h.alters.toGrows⟩
  · intro l hl
    apply h.alters.untouched l
    intro htouched
    obtain ⟨o, ho, rfl⟩ := htouched
    obtain ⟨p, hp, rfl⟩ := List.mem_map.1 ho
    apply hl p hp
    rw [← h.alters.destination_eq]
    exact (hplaced p hp).locate_eq
  · -- a file that was not written lies elsewhere than those that were
    intro q hq l hl
    apply h.alters.untouched l
    intro htouched
    obtain ⟨o, ho, heq⟩ := htouched
    obtain ⟨p, hp, rfl⟩ := List.mem_map.1 ho
    rw [Tree.eq_destination_of_locate hl, h.alters.destination_eq] at heq
    rw [List.map_append] at hapart
    exact (List.nodup_append.1 hapart).2.2 _ (List.mem_map_of_mem hp) _ (List.mem_map_of_mem hq)
      heq.symm

/-- Generating writes the files of a manifest in their order, up to the first
fault, into whatever tree there is. All files that are not written are as they
were. After a run without a fault a second one says the same and changes nothing. -/
theorem writes_until_fault {m : Manifest} (hm : m.isValid) (style : Style) (dir : Text) (t : Tree) :
    ∃ done result written rest, m.generate style dir t = (done, result) ∧
      m.previews style = written ++ rest ∧ t.IsWrittenUpTo done dir written rest ∧
      (result = .ok ((m.previews style).map Preview.path) ∧ rest = [] ∧
          m.generate style dir done = (done, result) ∨
        (∃ f, result = .error f) ∧ rest ≠ []) := by
  obtain ⟨done, result, written, rest, hdone, hsplit, hcome, hresult⟩ :=
    Manifest.writeAll_previews hm style dir t
  have hwritten := hcome.isWrittenUpTo (hsplit ▸ Manifest.nodup_destinations hm style dir t)
  have houtputs : m.outputs style dir = (m.previews style).map (Preview.output dir) := rfl
  rw [Manifest.generate, houtputs, hdone]
  obtain ⟨⟨ws, rfl⟩, hrest⟩ | ⟨⟨f, rfl⟩, hrest⟩ := hresult
  · have hplaced : ∀ o ∈ (m.previews style).map (Preview.output dir), o.IsPlaced done := by
      rw [hsplit, hrest, List.append_nil]
      exact hcome.placed
    obtain ⟨ws', hagain⟩ := Output.writeAll_of_isPlaced Preview.onlyIfMissing_output hplaced
    refine ⟨done, _, written, rest, rfl, hsplit, hwritten, .inl ⟨rfl, hrest, ?_⟩⟩
    rw [Manifest.generate, houtputs, hagain]
  · exact ⟨done, _, written, rest, rfl, hsplit, hwritten, .inr ⟨⟨f, rfl⟩, hrest⟩⟩

/-- A tree with an old file where the first file of the shelf goes, and a file
that is in the way of the second one. -/
def blockedShelf : Tree :=
  ⟨["home".toList], Limits.usual,
    [(["home".toList], .directory), (["home".toList, "App".toList], .directory),
     (["home".toList, "App".toList, "AlbumBuilderMethods.php".toList], .file [0x3F]),
     (["home".toList, "App".toList, "Model".toList], .file [0x21])]⟩

theorem writes_until_fault_shelf : shelf.isValid ∧ ∃ done written rest,
    shelf.generate .nette "new/../".toList blockedShelf =
      (done, .error (.directory "new/../App/Model".toList)) ∧
    shelf.previews .nette = written ++ rest ∧ rest ≠ [] ∧
    blockedShelf.IsWrittenUpTo done "new/../".toList written rest := by
  have hvalid : shelf.isValid := by decide
  have hfault : (shelf.generate .nette "new/../".toList blockedShelf).2 =
      .error (.directory "new/../App/Model".toList) := by decide +kernel
  obtain ⟨done, result, written, rest, hrun, hsplit, hwritten, hresult⟩ :=
    writes_until_fault hvalid .nette "new/../".toList blockedShelf
  rw [hrun] at hfault
  dsimp only at hfault
  subst hfault
  obtain ⟨hok, -, -⟩ | ⟨-, hrest⟩ := hresult
  · cases hok
  · exact ⟨hvalid, done, written, rest, hrun, hsplit, hrest, hwritten⟩

end BuilderForge
