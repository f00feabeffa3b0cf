import Mathlib.Data.List.Basic
import BuilderForge.Proofs.Overwriting
import BuilderForge.Proofs.RootedTrees
import BuilderForge.Proofs.Utf8
/-
  One write over whatever is there.

  A write makes the directories on the way of its path and puts the file at the
  end of it. The first part may stop anywhere and the second part may fail, so
  `MakesWay` says what is true at every stage: a location holds what it held, or
  a directory where there was nothing and the path goes through. When the file
  has been put, its own location is the one exception: `write_changes_one_file`.

  In a rooted tree the write succeeds exactly if the path is one of a file whose
  way can be made (`Takes`): no file is in the way, no name is too long, and
  neither the tree nor the way itself has a directory where the file should be.
-/

namespace BuilderForge

open BuilderForge.Path (segments IsName follow Enters)
open BuilderForge.Tree (Alters)

/-- A name that segments go through is where segments at their start lead. -/
theorem Path.Enters.exists_prefix {l k : Location} {r : Text} {ss : List Text} (h : Enters l ss k r) :
    ∃ n, n <+: ss ∧ follow l n = k ++ [r] := by
  induction h with
  | @now l s ss hs => exact ⟨[s], ⟨ss, rfl⟩, follow_name hs l []⟩
  | @later l k s r ss _ ih =>
    obtain ⟨n, hn, hfollow⟩ := ih
    refine ⟨s :: n, (List.prefix_cons_inj s).2 hn, ?_⟩
    rw [← hfollow, ← follow_append]
    rfl

namespace Tree

/-- Whether a path leads to a location or goes through it: segments at its start
lead there, if everything is there that they name. -/
def GoesThrough (t : Tree) (p : Text) (l : Location) : Prop :=
  ∃ ss, ss <+: segments p ∧ follow (t.start p) ss = l

/-- Whether a tree holds what another one holds, except at the touched locations
and except for directories where there was nothing and the path goes through. -/
structure MakesWay (t t' : Tree) (p : Text) (touched : Location → Prop) : Prop where
  workplace : t'.workplace = t.workplace
  limits : t'.limits = t.limits
  elsewhere : ∀ l, ¬ touched l → t'.entry? l = t.entry? l ∨
    t.entry? l = none ∧ t'.entry? l = some .directory ∧ t.GoesThrough p l

/-- Whether the file of a path can be written. -/
structure Takes (t : Tree) (p : Text) : Prop where
  path : t.isPath p
  name : ∃ name, (segments p).getLast? = some name ∧ IsName name ∧ t.isName name
  /-- Directories can be made where there are none on the way, -/
  way : t.IsOpen (t.start p) (segments p).dropLast
  /-- and there is none where the way ends, before they are made or after that. -/
  free : t.isDirectory (t.destination p) = false
  apart : ∀ k r, Enters (t.start p) (segments p).dropLast k r → k ++ [r] ≠ t.destination p

/-! ## The way -/

/-- What making directories puts into a tree lies where the segments go through a name. -/
theorem exists_enters_of_makeDirectories {t : Tree} {l m : Location} {ss : List Text}
    (hfree : t.entry? m = none) (hthere : (Tree.entry? (t.makeDirectories l ss).1 m).isSome) :
    ∃ k r, Enters l ss k r ∧ k ++ [r] = m := by
  induction ss generalizing t l with
  | nil =>
    rw [makeDirectories, hfree] at hthere
    cases hthere
  | cons s ss ih =>
    -- the rest of the way begins where the first segment leads
    have hlater : ∀ t₁ : Tree, t₁.entry? m = none →
        (Tree.entry? (t₁.makeDirectories (follow l [s]) ss).1 m).isSome →
        ∃ k r, Enters l (s :: ss) k r ∧ k ++ [r] = m := by
      intro t₁ hfree₁ hthere₁
      obtain ⟨k, r, henters, heq⟩ := ih hfree₁ hthere₁
      exact ⟨k, r, .later henters, heq⟩
    obtain hs | rfl | hs := Path.segment_cases s
    · rw [makeDirectories_stay hs] at hthere
      refine hlater t hfree ?_
      rwa [Path.follow_stay hs]
    · exact hlater t hfree hthere
    · by_cases hm : m = l ++ [s]
      · exact ⟨l, s, .now hs, hm.symm⟩
      have hdown : follow l [s] = l ++ [s] := Path.follow_name hs l []
      rw [hdown] at hlater
      rw [makeDirectories, if_neg (not_or.2 ⟨hs.1, hs.2.1⟩), if_neg hs.2.2] at hthere
      split at hthere
      · rename_i hmissing
        split at hthere
        · refine hlater _ ?_ hthere
          rw [entry?_put (ne_of_entry?_eq_none hmissing).1, if_neg hm, hfree]
        · rw [hfree] at hthere
          cases hthere
      · exact hlater t hfree hthere
      · rw [hfree] at hthere
        cases hthere

/-- The parent of a path is empty, the root, or a path that begins with segments of it. -/
theorem parent?_cases {p q : Text} (h : Path.parent? p = some q) : q = [] ∨ q = [Path.slash] ∨
    segments q <+: segments p ∧ Path.isAbsolute q = Path.isAbsolute p := by
  unfold Path.parent? at h
  split at h
  · cases h
  have hkept : (Path.trimEnd true (segments p)).dropLast <+: segments p :=
    (List.dropLast_prefix _).trans (Path.trimEnd_spec true (segments p)).1
  split at h
  · cases h
    split
    · exact .inr (.inl rfl)
    · exact .inl rfl
  · rename_i hne
    cases h
    obtain ⟨hsegments, habsolute⟩ := segments_join_trimEnd hkept hne
    refine .inr (.inr ⟨?_, habsolute⟩)
    rw [hsegments]
    exact (Path.trimEnd_spec true _).1.trans hkept

/-- Making the parent of a path puts something where the path goes through only. -/
theorem goesThrough_of_makeDirectory {t : Tree} {p : Text} {l : Location} (hfree : t.entry? l = none)
    (hthere : (Tree.entry? (t.makeDirectory ((Path.parent? p).getD [])).1 l).isSome) :
    t.GoesThrough p l := by
  have hunchanged : (t.makeDirectory ((Path.parent? p).getD [])).1 ≠ t := by
    intro heq
    rw [heq, hfree] at hthere
    cases hthere
  cases hparent : Path.parent? p with
  | none =>
    rw [hparent] at hunchanged
    exact absurd rfl hunchanged
  | some q =>
    rw [hparent, Option.getD_some] at hthere hunchanged
    unfold makeDirectory at hthere hunchanged
    split at hthere
    · rename_i hnil
      rw [if_pos hnil] at hunchanged
      exact absurd rfl hunchanged
    rename_i hne
    rw [if_neg hne] at hunchanged
    split at hthere
    · rename_i hpath
      rw [if_pos hpath] at hunchanged
      obtain hnil | rfl | ⟨hsegments, habsolute⟩ := parent?_cases hparent
      · exact absurd hnil hne
      · exact absurd rfl hunchanged
      · obtain ⟨k, r, henters, rfl⟩ := exists_enters_of_makeDirectories hfree hthere
        obtain ⟨n, hn, hfollow⟩ := henters.exists_prefix
        refine ⟨n, hn.trans hsegments, ?_⟩
        rw [← hfollow, start, start, habsolute]
    · rename_i hpath
      rw [if_neg hpath] at hunchanged
      exact absurd rfl hunchanged

/-- What has come where nothing is touched is a directory. -/
theorem Alters.makesWay {t t' : Tree} {touched : Location → Prop} (h : Alters t t' touched) {p : Text}
    (hway : ∀ l, t.entry? l = none → t'.entry? l = some .directory → t.GoesThrough p l) :
    t.MakesWay t' p touched := by
  refine ⟨h.workplace, h.limits, fun l hl => ?_⟩
  cases hentry : t.entry? l with
  | some e =>
    cases e with
    | directory => exact .inl (of_decide_eq_true (h.directory l (decide_eq_true hentry)))
    | file bytes => exact .inl ((h.untouched l hl bytes).2 hentry)
  | none =>
    cases hentry' : t'.entry? l with
    | none => exact .inl rfl
    | some e =>
      cases e with
      | directory => exact .inr ⟨rfl, rfl, hway l hentry hentry'⟩
      | file bytes =>
        rw [h.untouched l hl bytes, hentry] at hentry'
        cases hentry'

end Tree

namespace Output

/-- The directories that come with an output are on the way of its path. -/
theorem goesThrough_of_overwrite {o : Output} {t : Tree} {l : Location} (hfree : t.entry? l = none)
    (hthere : Tree.entry? (o.overwrite t).1 l = some .directory) : t.GoesThrough o.path l := by
  apply Tree.goesThrough_of_makeDirectory hfree
  unfold overwrite at hthere
  dsimp only at hthere
  split at hthere
  · rename_i made heq
    rw [heq, hthere]
    rfl
  rename_i made heq
  rw [heq]
  split at hthere
  · rename_i done hwrite
    obtain ⟨k, htarget, rfl⟩ := Option.map_eq_some_iff.1 hwrite
    rw [Tree.entry?_put (Tree.ne_nil_of_not_isDirectory (Tree.isDirectory_of_target? htarget))]
      at hthere
    split at hthere
    · cases hthere
    · rw [hthere]
      rfl
  · rw [hthere]
    rfl

/-- In a rooted tree a write succeeds exactly if its file can be written. -/
theorem overwrite_eq_written_iff {o : Output} {t : Tree} (ht : t.IsRooted) :
    (o.overwrite t).2 = .ok .written ↔ t.Takes o.path := by
  constructor
  · intro h
    have hstep := o.overwrites t
    generalize o.overwrite t = outcome at hstep h
    cases hstep with
    | failed _ => cases h
    | @written done halters hplaced hmade =>
      obtain ⟨before, name, -, hsplit, hname, hpath, hkept, -⟩ :=
        Tree.target?_eq_some_iff.1 hplaced.target
      have hmade' := hplaced.directory
      rw [Tree.makeDirectory_parent hsplit hname hpath] at hmade'
      have hfree := Tree.isDirectory_of_target? hplaced.target
      rw [halters.destination_eq] at hfree
      rw [halters.isPath_eq] at hpath
      rw [Tree.isName, halters.limits] at hkept
      rw [Tree.makeDirectory_parent hsplit hname hpath, Tree.makeDirectories_snd_iff] at hmade
      have hdropLast : (segments o.path).dropLast = before := by rw [hsplit, List.dropLast_concat]
      refine ⟨hpath, ⟨name, ?_, hname, hkept⟩, hdropLast ▸ hmade, ?_, ?_⟩
      · rw [hsplit, List.getLast?_concat]
      · by_contra hthere
        rw [Bool.not_eq_false] at hthere
        rw [halters.directory _ hthere] at hfree
        cases hfree
      · intro k r henters heq
        rw [hdropLast] at henters
        have hthere := Tree.isDirectory_of_makeDirectories hmade'
          (by rwa [Tree.start, halters.workplace])
        rw [heq, hfree] at hthere
        cases hthere
  · intro h
    obtain ⟨name, hlast, hname, hkept⟩ := h.name
    have hsplit := (List.dropLast_append_getLast? name hlast).symm
    obtain ⟨made, hmade⟩ : ∃ made, t.makeDirectories (t.start o.path) (segments o.path).dropLast =
        (made, true) := ⟨_, Prod.ext rfl (Tree.makeDirectories_snd_iff.2 h.way)⟩
    have halters := Tree.makeDirectories_alters t (t.start o.path) (segments o.path).dropLast
    rw [hmade] at halters
    have hfree : made.isDirectory (t.destination o.path) = false := by
      by_contra hthere
      rw [Bool.not_eq_false] at hthere
      cases hentry : t.entry? (t.destination o.path) with
      | none =>
        have hsome : (Tree.entry? (t.makeDirectories (t.start o.path) (segments o.path).dropLast).1
            (t.destination o.path)).isSome := by
          rw [hmade, of_decide_eq_true hthere]
          rfl
        obtain ⟨k, r, henters, heq⟩ := Tree.exists_enters_of_makeDirectories hentry hsome
        exact h.apart k r henters heq
      | some e =>
        cases e with
        | directory =>
          have hbefore := h.free
          rw [Tree.isDirectory, hentry] at hbefore
          cases hbefore
        | file bytes =>
          rw [Tree.isDirectory, (halters.untouched _ not_false bytes).2 hentry] at hthere
          cases hthere
    have htarget := Tree.target?_of_makeDirectories ht hsplit hname h.path hkept hmade hfree
    rw [overwrite, Tree.makeDirectory_parent hsplit hname h.path, hmade]
    dsimp only
    rw [Tree.writeFile?, htarget]
    rfl

end Output

/-- A write over whatever is there puts the content at the end of its path, and
nothing else changes but that directories come where there was nothing on the
way; or it is refused, and then only the directories may have come. In a rooted
tree it is written exactly if the path takes a file. -/
theorem write_changes_one_file (t : Tree) (p content : Text) :
    ∃ done result, Output.write ⟨p, content, false⟩ t = (done, result) ∧
      (result = .ok .written ∧ (done.read? p).bind Text.decode? = some content ∧
          done.locate p = some (t.destination p) ∧ t.isDirectory (t.destination p) = false ∧
          t.MakesWay done p (fun l => l = t.destination p) ∨
        (∃ f, result = .error f) ∧ t.MakesWay done p fun _ => False) ∧
      (t.IsRooted → (result = .ok .written ↔ t.Takes p)) := by
  have hway := fun l => Output.goesThrough_of_overwrite (o := ⟨p, content, false⟩) (t := t) (l := l)
  have hiff := Output.overwrite_eq_written_iff (o := ⟨p, content, false⟩) (t := t)
  have hstep := Output.overwrites ⟨p, content, false⟩ t
  have hwrite : Output.write ⟨p, content, false⟩ t = Output.overwrite ⟨p, content, false⟩ t := rfl
  rw [hwrite]
  generalize Output.overwrite ⟨p, content, false⟩ t = outcome at hway hiff hstep ⊢
  cases hstep with
  | failed halters => exact ⟨_, _, rfl, .inr ⟨⟨_, rfl⟩, halters.makesWay hway⟩, hiff⟩
  | @written done halters hplaced _ =>
    have hdestination := halters.destination_eq p
    have hfree := Tree.isDirectory_of_target? hplaced.target
    refine ⟨_, _, rfl, .inl ⟨rfl, ?_, ?_, ?_, halters.makesWay hway⟩, hiff⟩
    · rw [hplaced.read?_eq]
      exact Text.decode?_encode content
    · rw [← hdestination]
      exact hplaced.locate_eq
    · by_contra hthere
      rw [Bool.not_eq_false] at hthere
      rw [← hdestination] at hthere
      rw [halters.directory _ hthere] at hfree
      cases hfree

end BuilderForge
