import Mathlib.Data.List.Induction
import BuilderForge.Proofs.Alterations
/-
  Ways through a rooted tree.

  In a rooted tree everything lies in a directory, and paths begin in one. What
  segments go through on their way are names in locations (`Path.Enters`), and
  these decide everything: directories can be made there if each of the names is
  a directory or can become one (`makeDirectories_snd_iff`), and the segments lead
  on if all of them are directories (`walk_of_enters`). So where its directories
  have been made, a path wants its file (`target?_of_makeDirectories`). Without two
  dots the names lie one below the other, and none of them is missing if there is
  anything at the end of the way (`isDirectory_of_enters`).
-/

namespace BuilderForge

namespace Path

/-- Whether segments that lead from a location go through a name, for which they
are in `k`. -/
inductive Enters : Location → List Text → Location → Text → Prop where
  | now {l : Location} {s : Text} {ss : List Text} (hs : IsName s) : Enters l (s :: ss) l s
  | later {l k : Location} {s r : Text} {ss : List Text} (h : Enters (follow l [s]) ss k r) :
    Enters l (s :: ss) k r

theorem not_enters_nil {l k : Location} {r : Text} : ¬ Enters l [] k r := by
  intro h
  cases h

theorem enters_name_iff {l k : Location} {s r : Text} {ss : List Text} (hs : IsName s) :
    Enters l (s :: ss) k r ↔ k = l ∧ r = s ∨ Enters (l ++ [s]) ss k r := by
  have hfollow : follow l [s] = l ++ [s] := follow_name hs l []
  constructor
  · intro h
    cases h with
    | now _ => exact .inl ⟨rfl, rfl⟩
    | later h => exact .inr (hfollow ▸ h)
  · intro h
    obtain ⟨rfl, rfl⟩ | h := h
    · exact .now hs
    · exact .later (hfollow.symm ▸ h)

theorem enters_stay_iff {l k : Location} {s r : Text} {ss : List Text} (hs : s = [] ∨ s = here) :
    Enters l (s :: ss) k r ↔ Enters l ss k r := by
  have hfollow : follow l [s] = l := follow_stay hs l []
  constructor
  · intro h
    cases h with
    | now hname => exact absurd hs (not_or.2 ⟨hname.1, hname.2.1⟩)
    | later h => exact hfollow ▸ h
  · intro h
    exact .later (hfollow.symm ▸ h)

theorem enters_up_iff {l k : Location} {r : Text} {ss : List Text} :
    Enters l (up :: ss) k r ↔ Enters l.dropLast ss k r := by
  constructor
  · intro h
    cases h with
    | now hname => exact absurd rfl hname.2.2
    | later h => exact h
  · intro h
    exact .later h

/-- A segment says nothing, goes up, or is a name. -/
theorem segment_cases (s : Text) : (s = [] ∨ s = here) ∨ s = up ∨ IsName s := by
  by_cases hstay : s = [] ∨ s = here
  · exact .inl hstay
  · obtain ⟨hne, hhere⟩ := not_or.1 hstay
    by_cases hup : s = up
    · exact .inr (.inl hup)
    · exact .inr (.inr ⟨hne, hhere, hup⟩)

/-- Without two dots segments lead down. -/
theorem prefix_follow {l : Location} {ss : List Text} (hup : up ∉ ss) : l <+: follow l ss := by
  induction ss generalizing l with
  | nil => exact List.prefix_rfl
  | cons s ss ih =>
    rw [List.mem_cons, not_or] at hup
    obtain hs | hs | hs := segment_cases s
    · rw [follow_stay hs]
      exact ih hup.2
    · exact absurd hs.symm hup.1
    · rw [follow_name hs]
      exact (List.prefix_append l [s]).trans (ih hup.2)

/-- Without two dots every name that segments go through is above the place where they lead. -/
theorem Enters.prefix_follow {l k : Location} {r : Text} {ss : List Text} (h : Enters l ss k r)
    (hup : up ∉ ss) : k ++ [r] <+: follow l ss := by
  induction h with
  | now hs =>
    rw [follow_name hs]
    exact Path.prefix_follow fun hmem => hup (List.mem_cons_of_mem _ hmem)
  | @later l k s r ss _ ih =>
    have hfollow : follow l (s :: ss) = follow (follow l [s]) ss := follow_append l [s] ss
    rw [hfollow]
    exact ih fun hmem => hup (List.mem_cons_of_mem _ hmem)

end Path

namespace Tree

open BuilderForge.Path (segments IsName follow Enters)

/-! ## Rooted trees -/

/-- Whether everything in a tree lies in a directory, and paths begin in one. -/
structure IsRooted (t : Tree) : Prop where
  workplace : t.isDirectory t.workplace
  parent : ∀ l, (t.entry? l).isSome → t.isDirectory l.dropLast

/-- It is enough that each entry lies in a directory. -/
theorem isRooted_of_entries {t : Tree} (hworkplace : t.isDirectory t.workplace)
    (h : ∀ x ∈ t.entries, t.isDirectory x.1.dropLast) : t.IsRooted := by
  refine ⟨hworkplace, fun l hl => ?_⟩
  by_cases hnil : l = []
  · rw [hnil]
    rfl
  · rw [entry?_of_ne_nil t hnil, Option.isSome_map, List.find?_isSome] at hl
    obtain ⟨x, hx, hkey⟩ := hl
    rw [← of_decide_eq_true hkey]
    exact h x hx

namespace IsRooted

variable {t : Tree}

theorem dropLast (h : t.IsRooted) {l : Location} (hl : t.isDirectory l) : t.isDirectory l.dropLast :=
  h.parent l (by rw [of_decide_eq_true hl]; rfl)

theorem start (h : t.IsRooted) (p : Text) : t.isDirectory (t.start p) := by
  unfold Tree.start
  split
  · rfl
  · exact h.workplace

/-- Everything above a location is a directory. -/
theorem isDirectory_of_append (h : t.IsRooted) {k way : Location} (hway : way ≠ [])
    (hl : (t.entry? (k ++ way)).isSome) : t.isDirectory k := by
  induction way using List.reverseRecOn with
  | nil => exact absurd rfl hway
  | append_singleton way s ih =>
    have hparent := h.parent _ hl
    rw [← List.append_assoc, List.dropLast_concat] at hparent
    by_cases hnil : way = []
    · rwa [hnil, List.append_nil] at hparent
    · exact ih hnil (by rw [of_decide_eq_true hparent]; rfl)

/-- A tree stays rooted if something is put into a directory. -/
theorem put (h : t.IsRooted) {l : Location} {e : Entry} {touched : Location → Prop} (hne : l ≠ [])
    (halters : Alters t (t.put l e) touched) (hl : t.isDirectory l.dropLast) : (t.put l e).IsRooted := by
  refine ⟨halters.directory _ h.workplace, fun k hk => ?_⟩
  rw [entry?_put hne] at hk
  split at hk
  · rename_i heq
    rw [heq]
    exact halters.directory _ hl
  · exact halters.directory _ (h.parent k hk)

end IsRooted

/-! ## Making the directories of a path -/

/-- Whether directories can be made where segments lead: each name that they go
through is a directory, or missing and short enough. -/
def IsOpen (t : Tree) (l : Location) (ss : List Text) : Prop :=
  ∀ k r, Enters l ss k r → t.isDirectory (k ++ [r]) ∨ t.entry? (k ++ [r]) = none ∧ t.isName r

/-- A directory that is made leaves the rest of the way as open as it was. -/
theorem isOpen_put_iff {t : Tree} {l : Location} {s : Text} (h : t.entry? (l ++ [s]) = none)
    (hname : t.isName s) {m : Location} {ss : List Text} :
    IsOpen (t.put (l ++ [s]) .directory) m ss ↔ t.IsOpen m ss := by
  have hput := entry?_put (t := t) (ne_of_entry?_eq_none h).1 .directory
  refine forall_congr' fun k => forall_congr' fun r => imp_congr_right fun _ => ?_
  by_cases heq : k ++ [r] = l ++ [s]
  · obtain ⟨rfl, hr⟩ := List.append_inj' heq rfl
    cases hr
    have hthere : isDirectory (t.put (k ++ [s]) .directory) (k ++ [s]) := by
      rw [isDirectory, hput, if_pos rfl]
      rfl
    exact iff_of_true (.inl hthere) (.inr ⟨h, hname⟩)
  · rw [isDirectory, hput, if_neg heq]
    exact Iff.rfl

theorem isOpen_name_iff {t : Tree} {l : Location} {s : Text} {ss : List Text} (hs : IsName s) :
    t.IsOpen l (s :: ss) ↔
      (t.isDirectory (l ++ [s]) ∨ t.entry? (l ++ [s]) = none ∧ t.isName s) ∧
        t.IsOpen (l ++ [s]) ss := by
  constructor
  · intro h
    exact ⟨h l s (.now hs), fun k r henters => h k r ((Path.enters_name_iff hs).2 (.inr henters))⟩
  · intro h k r henters
    obtain ⟨rfl, rfl⟩ | henters := (Path.enters_name_iff hs).1 henters
    · exact h.1
    · exact h.2 k r henters

theorem makeDirectories_snd_iff {t : Tree} {l : Location} {ss : List Text} :
    (t.makeDirectories l ss).2 = true ↔ t.IsOpen l ss := by
  induction ss generalizing t l with
  | nil => exact iff_of_true rfl fun k r h => absurd h Path.not_enters_nil
  | cons s ss ih =>
    obtain hs | rfl | hs := Path.segment_cases s
    · rw [makeDirectories_stay hs, ih]
      simp only [IsOpen, Path.enters_stay_iff hs]
    · have hup : t.makeDirectories l (Path.up :: ss) = t.makeDirectories l.dropLast ss := rfl
      rw [hup, ih]
      simp only [IsOpen, Path.enters_up_iff]
    · rw [isOpen_name_iff hs]
      cases hentry : t.entry? (l ++ [s]) with
      | none =>
        have hfree : t.isDirectory (l ++ [s]) = false := by
          rw [isDirectory, hentry]
          rfl
        cases hname : t.isName s with
        | false =>
          rw [makeDirectories, if_neg (not_or.2 ⟨hs.1, hs.2.1⟩), if_neg hs.2.2, hentry]
          simp [hname, hfree]
        | true =>
          rw [makeDirectories_missing hs hentry hname, ih, isOpen_put_iff hentry hname]
          simp
      | some e =>
        cases e with
        | file bytes =>
          rw [makeDirectories, if_neg (not_or.2 ⟨hs.1, hs.2.1⟩), if_neg hs.2.2, hentry]
          simp [isDirectory, hentry]
        | directory =>
          have hthere : t.isDirectory (l ++ [s]) := decide_eq_true hentry
          rw [makeDirectories_there hs hthere, ih]
          simp [hthere]

theorem walk_cons {t : Tree} {l k m : Location} {s : Text} {ss : List Text} (hl : t.isDirectory l)
    (hleads : t.Leads l s k) (hwalk : t.walk k ss = some m) : t.walk l (s :: ss) = some m := by
  rw [walk, step_eq_some_iff.2 ⟨hl, hleads⟩]
  exact hwalk

/-- What segments go through on a way that is there is there. -/
theorem isSome_of_walk {t : Tree} {l m k : Location} {r : Text} {ss : List Text}
    (hwalk : t.walk l ss = some m) (h : Enters l ss k r) : (t.entry? (k ++ [r])).isSome := by
  induction h with
  | now hs =>
    rw [walk] at hwalk
    split at hwalk
    · rename_i hstep
      obtain ⟨-, hleads⟩ := step_eq_some_iff.1 hstep
      cases hleads with
      | stay hstay => exact absurd hstay (not_or.2 ⟨hs.1, hs.2.1⟩)
      | up => exact absurd rfl hs.2.2
      | down _ hentry => exact hentry
    · cases hwalk
  | later _ ih =>
    rw [walk] at hwalk
    split at hwalk
    · rename_i hstep
      rw [(step_eq_some_iff.1 hstep).2.eq_follow] at hwalk
      exact ih hwalk
    · cases hwalk

/-- Where directories have been made everything on the way is one. -/
theorem isDirectory_of_makeDirectories {t made : Tree} {l k : Location} {r : Text} {ss : List Text}
    (hmade : t.makeDirectories l ss = (made, true)) (h : Enters l ss k r) :
    made.isDirectory (k ++ [r]) := by
  induction ss generalizing t l with
  | nil => exact absurd h Path.not_enters_nil
  | cons s ss ih =>
    obtain hs | rfl | hs := Path.segment_cases s
    · rw [makeDirectories_stay hs] at hmade
      exact ih hmade ((Path.enters_stay_iff hs).1 h)
    · exact ih hmade (Path.enters_up_iff.1 h)
    · -- the name is a directory already or becomes one, and it stays
      have hdown : ∀ t₁ : Tree, t₁.isDirectory (l ++ [s]) →
          t₁.makeDirectories (l ++ [s]) ss = (made, true) → made.isDirectory (k ++ [r]) := by
        intro t₁ hthere hrest
        obtain ⟨rfl, rfl⟩ | henters := (Path.enters_name_iff hs).1 h
        · have hkept := (makeDirectories_alters t₁ (k ++ [r]) ss).directory _ hthere
          rwa [hrest] at hkept
        · exact ih hrest henters
      obtain hthere | ⟨hfree, hname⟩ :=
        makeDirectories_snd_iff.1 (congrArg Prod.snd hmade) l s (.now hs)
      · rw [makeDirectories_there hs hthere] at hmade
        exact hdown t hthere hmade
      · rw [makeDirectories_missing hs hfree hname] at hmade
        refine hdown _ ?_ hmade
        rw [isDirectory, entry?_put (ne_of_entry?_eq_none hfree).1, if_pos rfl]
        rfl

/-! ## Ways in a rooted tree -/

/-- In a rooted tree segments lead where they should if everything that they go
through is a directory. -/
theorem walk_of_enters {t : Tree} (ht : t.IsRooted) {l : Location} {ss : List Text}
    (hl : t.isDirectory l) (h : ∀ k r, Enters l ss k r → t.isDirectory (k ++ [r])) :
    t.walk l ss = some (follow l ss) ∧ t.isDirectory (follow l ss) := by
  induction ss generalizing l with
  | nil => exact ⟨rfl, hl⟩
  | cons s ss ih =>
    obtain hs | rfl | hs := Path.segment_cases s
    · obtain ⟨hwalk, hthere⟩ := ih hl fun k r henters => h k r ((Path.enters_stay_iff hs).2 henters)
      rw [Path.follow_stay hs]
      exact ⟨walk_cons hl (.stay hs) hwalk, hthere⟩
    · obtain ⟨hwalk, hthere⟩ := ih (ht.dropLast hl) fun k r henters =>
        h k r (Path.enters_up_iff.2 henters)
      exact ⟨walk_cons hl .up hwalk, hthere⟩
    · have hdirectory := h l s (.now hs)
      obtain ⟨hwalk, hthere⟩ := ih hdirectory fun k r henters =>
        h k r ((Path.enters_name_iff hs).2 (.inr henters))
      have hentry : (t.entry? (l ++ [s])).isSome := by
        rw [of_decide_eq_true hdirectory]
        rfl
      rw [Path.follow_name hs]
      exact ⟨walk_cons hl (.down hs hentry) hwalk, hthere⟩

/-- In a rooted tree a path wants its file where it leads if everything that it
goes through is a directory. -/
theorem target?_of_enters {t : Tree} (ht : t.IsRooted) {p name : Text} {ss : List Text}
    (hp : segments p = ss ++ [name]) (hname : IsName name) (hpath : t.isPath p) (hkept : t.isName name)
    (h : ∀ k r, Enters (t.start p) ss k r → t.isDirectory (k ++ [r]))
    (hfree : t.isDirectory (t.destination p) = false) : t.target? p = some (t.destination p) := by
  obtain ⟨hwalk, hthere⟩ := walk_of_enters ht (ht.start p) h
  have hdestination : t.destination p = follow (t.start p) ss ++ [name] := by
    rw [destination, hp, Path.follow_append, Path.follow_name hname, follow]
  exact target?_eq_some_iff.2
    ⟨ss, name, _, hp, hname, hpath, hkept, hwalk, hthere, hdestination, hfree⟩

/-- Making directories keeps a tree rooted, whatever becomes of it. -/
theorem IsRooted.makeDirectories {t : Tree} (ht : t.IsRooted) {l : Location} (hl : t.isDirectory l)
    (ss : List Text) : (t.makeDirectories l ss).1.IsRooted := by
  induction ss generalizing t l with
  | nil => exact ht
  | cons s ss ih =>
    rw [Tree.makeDirectories]
    split
    · exact ih ht hl
    split
    · exact ih ht (ht.dropLast hl)
    split
    · rename_i hfree
      split
      · have hne := (ne_of_entry?_eq_none hfree).1
        refine ih (ht.put hne (Alters.putDirectory hfree) ?_) ?_
        · rw [List.dropLast_concat]
          exact hl
        · rw [isDirectory, entry?_put hne, if_pos rfl]
          rfl
      · exact ht
    · rename_i hthere
      exact ih ht (decide_eq_true hthere)
    · exact ht

theorem IsRooted.makeDirectory {t : Tree} (ht : t.IsRooted) (p : Text) :
    (t.makeDirectory p).1.IsRooted := by
  unfold Tree.makeDirectory
  split
  · exact ht
  split
  · exact ht.makeDirectories (ht.start p) _
  · exact ht

/-- Where its directories have been made a path wants its file. -/
theorem target?_of_makeDirectories {t made : Tree} (ht : t.IsRooted) {p name : Text} {ss : List Text}
    (hp : segments p = ss ++ [name]) (hname : IsName name) (hpath : t.isPath p) (hkept : t.isName name)
    (hmade : t.makeDirectories (t.start p) ss = (made, true))
    (hfree : made.isDirectory (t.destination p) = false) : made.target? p = some (t.destination p) := by
  have halters := makeDirectories_alters t (t.start p) ss
  have hrooted := ht.makeDirectories (ht.start p) ss
  rw [hmade] at halters hrooted
  rw [← halters.destination_eq] at hfree ⊢
  refine target?_of_enters hrooted hp hname ?_ ?_ ?_ hfree
  · rw [halters.isPath_eq]
    exact hpath
  · rw [isName, halters.limits]
    exact hkept
  · rw [start, halters.workplace]
    exact fun k r => isDirectory_of_makeDirectories hmade

/-- A file comes where a path wants one. -/
theorem IsRooted.putFile {t : Tree} (ht : t.IsRooted) {p : Text} {l : Location}
    (h : t.target? p = some l) (bytes : List UInt8) : (t.put l (.file bytes)).IsRooted := by
  have hfree := isDirectory_of_target? h
  obtain ⟨ss, s, d, -, -, -, -, -, hd, rfl, -⟩ := target?_eq_some_iff.1 h
  refine ht.put (ne_nil_of_not_isDirectory hfree) (Alters.putFile hfree bytes) ?_
  rw [List.dropLast_concat]
  exact hd

/-- In a rooted tree nothing is missing on a way without two dots to something
that is there. -/
theorem isDirectory_of_enters {t : Tree} (h : t.IsRooted) {l k : Location} {r s : Text}
    {ss : List Text} (hup : Path.up ∉ ss) (hthere : (t.entry? (follow l ss ++ [s])).isSome)
    (henters : Enters l ss k r) : t.isDirectory (k ++ [r]) := by
  obtain ⟨way, hway⟩ := henters.prefix_follow hup
  rw [← hway, List.append_assoc] at hthere
  exact h.isDirectory_of_append (List.append_ne_nil_of_right_ne_nil _ (List.cons_ne_nil s [])) hthere

end Tree

end BuilderForge
