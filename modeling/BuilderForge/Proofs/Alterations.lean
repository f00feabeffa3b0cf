import BuilderForge.Proofs.Paths
/-
  Trees in which files are altered.

  `Alters t t' touched` says that `t'` has all directories and files of `t`, and
  that outside of the touched locations no file has come or has other bytes. It
  is closed under doing one thing after the other. Making directories touches
  nothing, whether it succeeds or not (`makeDirectories_alters`), and when it has
  succeeded there is nothing left to make (`makeDirectories_again`).

  Where a path leads is said by its segments alone: `Path.follow` goes along them
  as if everything was there, and whatever a tree says of the path agrees with it
  (`eq_follow_of_walk`). So a path never leads to two locations, however the tree
  has been altered in between.
-/

namespace BuilderForge

namespace Path

/-- Where segments lead if everything is there that they name. -/
def follow : Location → List Text → Location
  | l, [] => l
  | l, s :: rest =>
    if s = [] ∨ s = here then follow l rest
    else if s = up then follow l.dropLast rest
    else follow (l ++ [s]) rest

theorem follow_stay {s : Text} (hs : s = [] ∨ s = here) (l : Location) (rest : List Text) :
    follow l (s :: rest) = follow l rest := by
  rw [follow, if_pos hs]

theorem follow_name {s : Text} (hs : IsName s) (l : Location) (rest : List Text) :
    follow l (s :: rest) = follow (l ++ [s]) rest := by
  rw [follow, if_neg (not_or.2 ⟨hs.1, hs.2.1⟩), if_neg hs.2.2]

theorem follow_append (l : Location) (ss rest : List Text) :
    follow l (ss ++ rest) = follow (follow l ss) rest := by
  induction ss generalizing l with
  | nil => rfl
  | cons s ss ih =>
    rw [List.cons_append, follow, follow]
    split
    · exact ih l
    · split
      · exact ih l.dropLast
      · exact ih (l ++ [s])

/-- Names lead down. -/
theorem follow_names {names : List Text} (h : ∀ s ∈ names, IsName s) (l : Location) :
    follow l names = l ++ names := by
  induction names generalizing l with
  | nil => exact (List.append_nil l).symm
  | cons s names ih =>
    rw [follow_name (h s List.mem_cons_self), ih fun r hr => h r (List.mem_cons_of_mem s hr),
      List.append_assoc]
    rfl

end Path

namespace Tree

open BuilderForge.Path (segments IsName follow)

/-- Where a path leads if everything is there that it names. -/
def destination (t : Tree) (p : Text) : Location := follow (t.start p) (segments p)

theorem Leads.eq_follow {t : Tree} {l m : Location} {s : Text} (h : t.Leads l s m) :
    m = follow l [s] := by
  cases h with
  | stay hs => rw [Path.follow_stay hs, follow]
  | up => rfl
  | down hs _ => rw [Path.follow_name hs, follow]

/-- Segments lead to one location only. -/
theorem eq_follow_of_walk {t : Tree} {l m : Location} {ss : List Text} (h : t.walk l ss = some m) :
    m = follow l ss := by
  induction ss generalizing l with
  | nil => exact (Option.some_inj.1 h).symm
  | cons s ss ih =>
    rw [walk] at h
    split at h
    · rename_i k hstep
      rw [ih h, (step_eq_some_iff.1 hstep).2.eq_follow, ← Path.follow_append]
      rfl
    · cases h

theorem eq_destination_of_locate {t : Tree} {p : Text} {l : Location} (h : t.locate p = some l) :
    l = t.destination p := by
  unfold locate at h
  split at h
  · exact eq_follow_of_walk h
  · cases h

/-- The files below a directory lie where their own segments lead from one location. -/
theorem exists_destination_join (t : Tree) (dir : Text) : ∃ base, ∀ p, Path.isAbsolute p = false →
    t.destination (Path.join dir p) = follow base (segments p) := by
  by_cases hdir : dir = []
  · refine ⟨t.workplace, ?_⟩
    intro p hp
    have hjoin : Path.join dir p = p := if_pos (.inr hdir)
    rw [hjoin, destination, start, hp]
    rfl
  · obtain ⟨before, -, hjoin⟩ := Path.exists_join_eq hdir
    refine ⟨follow (t.start dir) (segments before), ?_⟩
    intro p hp
    rw [destination, start, Path.isAbsolute_join hdir hp, hjoin p hp, segments,
      Text.pieces_append_sep, Path.follow_append]
    rfl

/-! ## Alterations -/

/-- The root is a directory. -/
theorem ne_nil_of_not_isDirectory {t : Tree} {l : Location} (h : t.isDirectory l = false) : l ≠ [] := by
  intro heq
  rw [heq, isDirectory, entry?_nil] at h
  cases h

/-- Whether a tree is another one in which files have come or have got other
bytes at the touched locations at most, and in which directories have come. -/
structure Alters (t t' : Tree) (touched : Location → Prop) : Prop extends Grows t t' where
  file : ∀ l bytes, t.entry? l = some (.file bytes) → ∃ bytes', t'.entry? l = some (.file bytes')
  untouched : ∀ l, ¬ touched l → ∀ bytes,
    t'.entry? l = some (.file bytes) ↔ t.entry? l = some (.file bytes)

namespace Alters

variable {t t' t'' : Tree} {touched touched' : Location → Prop}

theorem refl (t : Tree) : Alters t t fun _ => False where
  limits := rfl
  workplace := rfl
  directory _ h := h
  there _ h := h
  file _ bytes h := ⟨bytes, h⟩
  untouched _ _ _ := Iff.rfl

theorem trans (h : Alters t t' touched) (h' : Alters t' t'' touched') :
    Alters t t'' fun l => touched l ∨ touched' l where
  limits := h'.limits.trans h.limits
  workplace := h'.workplace.trans h.workplace
  directory l hl := h'.directory l (h.directory l hl)
  there l hl := h'.there l (h.there l hl)
  file l bytes hl := by
    obtain ⟨bytes', hl'⟩ := h.file l bytes hl
    exact h'.file l bytes' hl'
  untouched l hl bytes := by
    obtain ⟨hfirst, hsecond⟩ := not_or.1 hl
    exact (h'.untouched l hsecond bytes).trans (h.untouched l hfirst bytes)

/-- More locations may be called touched. -/
theorem mono (h : Alters t t' touched) (htouched : ∀ l, touched l → touched' l) :
    Alters t t' touched' where
  toGrows := h.toGrows
  file := h.file
  untouched l hl := h.untouched l fun hmem => hl (htouched l hmem)

/-- A directory comes where there is nothing. -/
theorem putDirectory {l : Location} (h : t.entry? l = none) :
    Alters t (t.put l .directory) fun _ => False := by
  have hput := entry?_put (t := t) (ne_of_entry?_eq_none h).1 .directory
  refine ⟨⟨rfl, rfl, ?_, ?_⟩, ?_, ?_⟩
  · intro k hk
    rw [isDirectory, hput]
    split
    · rfl
    · exact hk
  · intro k hk
    rw [hput]
    split
    · rfl
    · exact hk
  · intro k bytes hk
    refine ⟨bytes, ?_⟩
    rw [hput, if_neg fun heq => ?_, hk]
    rw [heq, h] at hk
    cases hk
  · intro k _ bytes
    rw [hput]
    split
    · rename_i heq
      rw [heq, h]
      simp
    · exact Iff.rfl

/-- A file comes, or gets other bytes, where there is no directory. -/
theorem putFile {l : Location} (h : t.isDirectory l = false) (bytes : List UInt8) :
    Alters t (t.put l (.file bytes)) fun k => k = l := by
  have hput := entry?_put (t := t) (ne_nil_of_not_isDirectory h) (.file bytes)
  refine ⟨⟨rfl, rfl, ?_, ?_⟩, ?_, ?_⟩
  · intro k hk
    rw [isDirectory, hput, if_neg fun heq => ?_]
    · exact hk
    · rw [heq, h] at hk
      cases hk
  · intro k hk
    rw [hput]
    split
    · rfl
    · exact hk
  · intro k bytes' hk
    rw [hput]
    split
    · exact ⟨bytes, rfl⟩
    · exact ⟨bytes', hk⟩
  · intro k hk bytes'
    rw [hput, if_neg hk]

theorem destination_eq (h : Alters t t' touched) (p : Text) : t'.destination p = t.destination p := by
  rw [destination, destination, start, start, h.workplace]

theorem isPath_eq (h : Alters t t' touched) (p : Text) : t'.isPath p = t.isPath p := by
  rw [isPath, isPath, h.limits]

end Alters

/-- Nothing changes where something is put that is there already. -/
theorem put_eq_self {t : Tree} {l : Location} {e : Entry} (hl : l ≠ []) (h : t.entry? l = some e) :
    t.put l e = t := by
  have hentries : ∀ es : List (Location × Entry),
      (es.find? fun x => x.1 = l).map Prod.snd = some e → putEntry l e es = es := by
    intro es
    induction es with
    | nil =>
      intro hnone
      cases hnone
    | cons x es ih =>
      intro hfind
      rw [List.find?_cons] at hfind
      rw [putEntry]
      by_cases hx : x.1 = l
      · rw [if_pos hx]
        simp only [hx, decide_true, Option.map_some, Option.some.injEq] at hfind
        rw [← hx, ← hfind]
      · rw [if_neg hx]
        simp only [hx, decide_false] at hfind
        rw [ih hfind]
  rw [entry?_of_ne_nil t hl] at h
  rw [put, hentries t.entries h]

/-! ## Making directories -/

/-- Making directories touches no file, whatever becomes of it. -/
theorem makeDirectories_alters (t : Tree) (l : Location) (ss : List Text) :
    Alters t (t.makeDirectories l ss).1 fun _ => False := by
  induction ss generalizing t l with
  | nil => exact Alters.refl t
  | cons s ss ih =>
    rw [makeDirectories]
    split
    · exact ih t l
    split
    · exact ih t l.dropLast
    split
    · rename_i hfree
      split
      · exact ((Alters.putDirectory hfree).trans (ih _ _)).mono fun _ h => h.elim id id
      · exact Alters.refl t
    · exact ih t (l ++ [s])
    · exact Alters.refl t

/-- Where directories have been made there is nothing left to make, also in a
tree with more directories. -/
theorem makeDirectories_again {t t' made : Tree} {l : Location} {ss : List Text}
    (h : t.makeDirectories l ss = (made, true)) (hmade : ∀ k, made.isDirectory k → t'.isDirectory k) :
    t'.makeDirectories l ss = (t', true) := by
  induction ss generalizing t l with
  | nil => rfl
  | cons s ss ih =>
    rw [makeDirectories] at h
    split at h
    · rename_i hstay
      rw [makeDirectories_stay hstay]
      exact ih h
    rename_i hstay
    obtain ⟨hne, hhere⟩ := not_or.1 hstay
    split at h
    · rename_i hup
      rw [hup]
      exact ih h
    rename_i hup
    -- the directory is there already or is put there, and it stays
    have hthere : ∀ t₁ : Tree, t₁.isDirectory (l ++ [s]) →
        t₁.makeDirectories (l ++ [s]) ss = (made, true) →
        t'.makeDirectories l (s :: ss) = (t', true) := by
      intro t₁ hdirectory hrest
      have hkept := (makeDirectories_alters t₁ (l ++ [s]) ss).directory _ hdirectory
      rw [hrest] at hkept
      rw [makeDirectories_there ⟨hne, hhere, hup⟩ (hmade _ hkept)]
      exact ih hrest
    split at h
    · rename_i hfree
      split at h
      · refine hthere _ ?_ h
        rw [isDirectory, entry?_put (ne_of_entry?_eq_none hfree).1, if_pos rfl]
        rfl
      · cases h
    · rename_i hdirectory
      exact hthere t (decide_eq_true hdirectory) h
    · cases h

theorem makeDirectory_alters (t : Tree) (p : Text) : Alters t (t.makeDirectory p).1 fun _ => False := by
  unfold makeDirectory
  split
  · exact Alters.refl t
  · split
    · exact makeDirectories_alters t _ _
    · exact Alters.refl t

theorem makeDirectory_again {t t' made : Tree} {touched : Location → Prop} {p : Text}
    (h : t.makeDirectory p = (made, true)) (halters : Alters made t' touched) :
    t'.makeDirectory p = (t', true) := by
  have hmade := makeDirectory_alters t p
  rw [h] at hmade
  unfold makeDirectory at h ⊢
  split
  · rfl
  rename_i hne
  rw [if_neg hne] at h
  rw [halters.isPath_eq, hmade.isPath_eq, start, halters.workplace, hmade.workplace]
  split
  · rename_i hpath
    rw [if_pos hpath] at h
    exact makeDirectories_again h halters.directory
  · rename_i hpath
    rw [if_neg hpath] at h
    cases h

/-! ## The file of a path -/

/-- A path wants a file to be at a name in the directory that the segments before it lead to. -/
theorem target?_eq_some_iff {t : Tree} {p : Text} {l : Location} : t.target? p = some l ↔
    ∃ ss s d, segments p = ss ++ [s] ∧ IsName s ∧ t.isPath p ∧ t.isName s ∧
      t.walk (t.start p) ss = some d ∧ t.isDirectory d ∧ l = d ++ [s] ∧ t.isDirectory l = false := by
  have hne : segments p ≠ [] := Text.pieces_ne_nil Path.slash p
  obtain ⟨ss, s, hsegments⟩ := (List.eq_nil_or_concat' (segments p)).resolve_left hne
  unfold target?
  rw [hsegments, List.getLast?_concat, List.dropLast_concat]
  dsimp only
  constructor
  · intro h
    split at h
    · cases h
    rename_i hname
    split at h
    · cases h
    rename_i d hwalk
    split at h
    · rename_i hfree
      cases h
      simp only [Bool.or_eq_true, Bool.not_eq_true', decide_eq_true_eq, not_or, Bool.not_eq_false]
        at hname
      rw [Bool.and_eq_true, Bool.not_eq_true'] at hfree
      obtain ⟨⟨⟨⟨hpath, hkept⟩, hnil⟩, hhere⟩, hup⟩ := hname
      exact ⟨ss, s, d, rfl, ⟨hnil, hhere, hup⟩, hpath, hkept, hwalk, hfree.1, rfl, hfree.2⟩
    · cases h
  · intro h
    obtain ⟨ss', s', d, hsplit, hname, hpath, hkept, hwalk, hd, rfl, hfree⟩ := h
    obtain ⟨rfl, hlast⟩ := List.append_inj' hsplit rfl
    cases hlast
    rw [hpath, hkept, hwalk, if_neg (by simp [hname.1, hname.2.1, hname.2.2])]
    simp [hd, hfree]

theorem isDirectory_of_target? {t : Tree} {p : Text} {l : Location} (h : t.target? p = some l) :
    t.isDirectory l = false := by
  obtain ⟨-, -, -, -, -, -, -, -, -, -, hfree⟩ := target?_eq_some_iff.1 h
  exact hfree

theorem eq_destination_of_target? {t : Tree} {p : Text} {l : Location} (h : t.target? p = some l) :
    l = t.destination p := by
  obtain ⟨ss, s, d, hsegments, hname, -, -, hwalk, -, rfl, -⟩ := target?_eq_some_iff.1 h
  rw [destination, hsegments, Path.follow_append, ← eq_follow_of_walk hwalk, Path.follow_name hname,
    follow]

/-- A path leads to the file that is where the path wants one. -/
theorem locate_of_target? {t : Tree} {p : Text} {l : Location} (h : t.target? p = some l)
    (hl : (t.entry? l).isSome) : t.locate p = some l := by
  obtain ⟨ss, s, d, hsegments, hname, hpath, -, hwalk, hd, rfl, -⟩ := target?_eq_some_iff.1 h
  have hstep : t.step d s = some (d ++ [s]) := step_eq_some_iff.2 ⟨hd, .down hname hl⟩
  rw [locate, if_pos hpath, hsegments, walk_append, hwalk, Option.bind_some, walk, hstep]
  rfl

/-- A path goes on wanting its file where it did, unless a directory has come there. -/
theorem target?_of_alters {t t' : Tree} {touched : Location → Prop} (h : Alters t t' touched) {p : Text}
    {l : Location} (htarget : t.target? p = some l) (hl : t'.isDirectory l = false) :
    t'.target? p = some l := by
  obtain ⟨ss, s, d, hsegments, hname, hpath, hkept, hwalk, hd, rfl, -⟩ := target?_eq_some_iff.1 htarget
  refine target?_eq_some_iff.2 ⟨ss, s, d, hsegments, hname, ?_, ?_, ?_, h.directory d hd, rfl, hl⟩
  · rw [h.isPath_eq]
    exact hpath
  · rw [isName, h.limits]
    exact hkept
  · rw [start, h.workplace]
    exact walk_of_grows h.toGrows hwalk

end Tree

end BuilderForge
