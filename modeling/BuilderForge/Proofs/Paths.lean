import Mathlib.Data.List.Basic
import BuilderForge.Files.Path
import BuilderForge.Proofs.Texts
import BuilderForge.Proofs.Trees
/-
  Paths below a directory, as segments.

  A path put behind a directory has the segments of the directory and then its
  own, whatever the directory is called (`exists_join_eq`). Its parent is
  written without the last segment and without the segments at the end that say
  nothing; what making it does is said by the segments alone, since those that
  say nothing make nothing (`makeDirectory_parent`).
-/

namespace BuilderForge

namespace Path

theorem slash_notMem_of_mem_segments {p s : Text} (h : s ∈ segments p) : slash ∉ s :=
  fun hc => (Text.mem_of_mem_pieces s h slash hc).2 rfl

/-- A character of a path is a slash or stands in a segment. -/
theorem mem_segments_of_mem {p : Text} {c : Char} (h : c ∈ p) : c = slash ∨ ∃ s ∈ segments p, c ∈ s :=
  Text.mem_pieces_of_mem h

/-- A path begins at the root if it has an empty first segment and others after it. -/
theorem isAbsolute_iff {p : Text} : isAbsolute p ↔ ∃ s rest, segments p = [] :: s :: rest := by
  cases p with
  | nil =>
    refine iff_of_false (by decide) fun h => ?_
    obtain ⟨s, rest, h⟩ := h
    cases h
  | cons c p =>
    have habsolute : isAbsolute (c :: p) ↔ c = slash := by simp [isAbsolute]
    rw [habsolute]
    constructor
    · intro hc
      obtain ⟨s, rest, hrest⟩ := List.exists_cons_of_ne_nil (Text.pieces_ne_nil slash p)
      exact ⟨s, rest, by rw [segments, hc, Text.pieces_cons_self, hrest]⟩
    · intro h
      obtain ⟨s, rest, h⟩ := h
      by_contra hc
      obtain ⟨q, qs, -, hcons⟩ := Text.pieces_cons_of_ne hc p
      rw [segments, hcons] at h
      cases h

/-! ## The last component -/

theorem trimEnd_append_name (isHead : Bool) (ss : List Text) {s : Text} (hs : IsName s) :
    trimEnd isHead (ss ++ [s]) = ss ++ [s] := by
  induction ss generalizing isHead with
  | nil =>
    have hcomponent : isComponent isHead s = true := by
      rw [isComponent, Bool.and_eq_true, Bool.or_eq_true, decide_eq_true_iff, decide_eq_true_iff]
      exact ⟨hs.1, .inl hs.2.1⟩
    show (if isComponent isHead s then [s] else []) = [s]
    rw [hcomponent]
    rfl
  | cons r ss ih =>
    rw [List.cons_append, trimEnd, ih]
    cases hcons : ss ++ [s] with
    | nil => exact absurd hcons (List.append_ne_nil_of_right_ne_nil ss (List.cons_ne_nil s []))
    | cons _ _ => rfl

/-- What is left has a last segment that is not empty. -/
theorem trimEnd_spec (isHead : Bool) (ss : List Text) :
    trimEnd isHead ss <+: ss ∧ (trimEnd isHead ss).getLast? ≠ some [] := by
  induction ss generalizing isHead with
  | nil => exact ⟨List.prefix_rfl, by simp [trimEnd]⟩
  | cons s ss ih =>
    obtain ⟨hbegins, hlast⟩ := ih false
    rw [trimEnd]
    split
    · split
      · rename_i hcomponent
        refine ⟨⟨ss, rfl⟩, ?_⟩
        rw [isComponent, Bool.and_eq_true, decide_eq_true_iff] at hcomponent
        simpa using hcomponent.1
      · exact ⟨List.nil_prefix, by simp⟩
    · rename_i hne
      refine ⟨(List.prefix_cons_inj s).2 hbegins, ?_⟩
      obtain ⟨r, rest, hrest⟩ := List.exists_cons_of_ne_nil hne
      rw [hrest] at hlast ⊢
      rwa [List.getLast?_cons_cons]

/-! ## Paths put behind a directory -/

/-- Behind a directory that is not empty stands the path, with one slash between them. -/
theorem exists_join_eq {dir : Text} (hdir : dir ≠ []) :
    ∃ before, (dir = before ∨ dir = before ++ [slash]) ∧
      ∀ p, isAbsolute p = false → join dir p = before ++ slash :: p := by
  by_cases hlast : dir.getLast? = some slash
  · have hends := List.dropLast_append_getLast? slash hlast
    refine ⟨dir.dropLast, .inr hends.symm, ?_⟩
    intro p hp
    rw [join, if_neg (by simp [hp, hdir]), if_pos hlast]
    conv_lhs => rw [← hends]
    rw [List.append_assoc]
    rfl
  · refine ⟨dir, .inl rfl, ?_⟩
    intro p hp
    rw [join, if_neg (by simp [hp, hdir]), if_neg hlast]

theorem isAbsolute_append {p q : Text} (h : p ≠ []) : isAbsolute (p ++ q) = isAbsolute p := by
  obtain ⟨c, p, rfl⟩ := List.exists_cons_of_ne_nil h
  rfl

theorem isAbsolute_join {dir p : Text} (hdir : dir ≠ []) (hp : isAbsolute p = false) :
    isAbsolute (join dir p) = isAbsolute dir := by
  rw [join, if_neg (by simp [hp, hdir])]
  split
  · exact isAbsolute_append hdir
  · exact isAbsolute_append hdir

end Path

namespace Tree

open BuilderForge.Path (segments isAbsolute IsName)

/-- The location below which the paths behind a directory lie. Behind the empty
path they lie below the workplace. -/
def base? (t : Tree) (dir : Text) : Option Location :=
  if dir = [] then some t.workplace else t.locate dir

theorem locate_of_grows {t t' : Tree} (h : Grows t t') {p : Text} {l : Location}
    (hlocate : t.locate p = some l) : t'.locate p = some l := by
  unfold locate at hlocate ⊢
  rw [isPath, h.limits, start, h.workplace]
  rw [isPath, start] at hlocate
  split at hlocate
  · rename_i hpath
    rw [if_pos hpath]
    exact walk_of_grows h hlocate
  · cases hlocate

theorem base?_of_grows {t t' : Tree} (h : Grows t t') {dir : Text} {l : Location}
    (hbase : t.base? dir = some l) : t'.base? dir = some l := by
  unfold base? at hbase ⊢
  rw [h.workplace]
  split at hbase
  · rename_i hdir
    rw [if_pos hdir]
    exact hbase
  · rename_i hdir
    rw [if_neg hdir]
    exact locate_of_grows h hbase

theorem eq_of_walk_nil {t : Tree} {l m : Location} (h : t.walk l (Text.pieces Path.slash []) = some m) :
    l = m := by
  rw [Text.pieces, walk] at h
  split at h
  · rename_i k hstep
    cases h
    obtain ⟨-, hleads⟩ := step_eq_some_iff.1 hstep
    cases hleads with
    | stay _ => rfl
    | down hs _ => exact absurd rfl hs.1
  · cases h

/-- Whether a path goes to a location and from there on by segments. -/
def GoesBy (t : Tree) (q : Text) (l : Location) (way : List Text) : Prop :=
  Char.ofNat 0 ∉ q ∧ ∃ before, segments q = before ++ way ∧ t.walk (t.start q) before = some l

/-- A path behind a directory goes to the location of the directory, and on by its own segments. -/
theorem goesBy_join {t : Tree} {dir p : Text} {l : Location} (hbase : t.base? dir = some l)
    (hl : t.isDirectory l) (hp : isAbsolute p = false) (hplain : Char.ofNat 0 ∉ p) :
    t.GoesBy (Path.join dir p) l (segments p) := by
  unfold base? at hbase
  split at hbase
  · rename_i hdir
    have hjoin : Path.join dir p = p := if_pos (.inr hdir)
    cases hbase
    refine ⟨hjoin.symm ▸ hplain, [], by rw [hjoin]; rfl, ?_⟩
    rw [hjoin, start, hp]
    rfl
  · rename_i hdir
    unfold locate at hbase
    split at hbase
    · rename_i hpath
      have hdirPlain : Char.ofNat 0 ∉ dir := by
        rw [isPath, Bool.and_eq_true, Bool.and_eq_true] at hpath
        simpa using hpath.1.2
      obtain ⟨before, hcases, hjoin⟩ := Path.exists_join_eq hdir
      specialize hjoin p hp
      have hmem : ∀ c ∈ before, c ∈ dir := by
        intro c hc
        obtain rfl | rfl := hcases
        · exact hc
        · exact List.mem_append_left _ hc
      have hstart : t.start (Path.join dir p) = t.start dir := by
        rw [start, start, Path.isAbsolute_join hdir hp]
      refine ⟨?_, segments before, ?_, ?_⟩
      · rw [hjoin, List.mem_append, List.mem_cons, not_or, not_or]
        exact ⟨fun hc => hdirPlain (hmem _ hc), by decide, hplain⟩
      · rw [hjoin, segments, Text.pieces_append_sep]
        rfl
      · rw [hstart]
        obtain rfl | rfl := hcases
        · exact hbase
        · -- the slash at the end of the directory makes an empty segment
          rw [segments, Text.pieces_append_sep, walk_append] at hbase
          obtain ⟨m, hm, hstay⟩ := Option.bind_eq_some_iff.1 hbase
          rw [← eq_of_walk_nil hstay]
          exact hm
    · cases hbase

/-! ## The parent of a path -/

/-- Segments at the end that say nothing make nothing. -/
theorem makeDirectories_trimEnd (t : Tree) (l : Location) (isHead : Bool) (ss : List Text) :
    t.makeDirectories l (Path.trimEnd isHead ss) = t.makeDirectories l ss := by
  induction ss generalizing t l isHead with
  | nil => rfl
  | cons s ss ih =>
    rw [Path.trimEnd]
    split
    · rename_i hnil
      have hrest : ∀ t l, Tree.makeDirectories t l ss = (t, true) := by
        intro t l
        rw [← ih t l false, hnil]
        rfl
      split
      · -- the segment is the last one that is kept
        simp only [makeDirectories, hrest]
      · rename_i hcomponent
        have hstay : s = [] ∨ s = Path.here := by
          by_contra hname
          rw [not_or] at hname
          refine hcomponent ?_
          rw [Path.isComponent, Bool.and_eq_true, Bool.or_eq_true, decide_eq_true_iff,
            decide_eq_true_iff]
          exact ⟨hname.1, .inl hname.2⟩
        rw [makeDirectories_stay hstay, hrest]
        rfl
    · simp only [makeDirectories, ih]

/-- Segments at the start of a path, without those at the end that say nothing, make
a path that begins where the path does. -/
theorem segments_join_trimEnd {q : Text} {isHead : Bool} {ss : List Text} (hss : ss <+: segments q)
    (hne : Path.trimEnd isHead ss ≠ []) :
    segments (Text.join [Path.slash] (Path.trimEnd isHead ss)) = Path.trimEnd isHead ss ∧
      isAbsolute (Text.join [Path.slash] (Path.trimEnd isHead ss)) = isAbsolute q := by
  obtain ⟨hbegins, hlast⟩ := Path.trimEnd_spec isHead ss
  have hpieces : segments (Text.join [Path.slash] (Path.trimEnd isHead ss)) = Path.trimEnd isHead ss :=
    Text.pieces_join hne fun r hr =>
      Path.slash_notMem_of_mem_segments (hss.subset (hbegins.subset hr))
  refine ⟨hpieces, ?_⟩
  -- both begin with an empty segment and have a second one, or neither does
  rw [Bool.eq_iff_iff, Path.isAbsolute_iff, Path.isAbsolute_iff, hpieces]
  obtain ⟨rest, hrest⟩ := hbegins.trans hss
  obtain ⟨first, above, habove⟩ := List.exists_cons_of_ne_nil hne
  rw [habove] at hrest hlast ⊢
  rw [← hrest]
  cases above with
  | nil =>
    have hfirst : first ≠ [] := fun heq => hlast (by rw [heq]; rfl)
    simp [hfirst]
  | cons second above => simp

/-- The parent of a path is a beginning of it. It has the segments of the path
but the last one and those before it that say nothing. If nothing is left, it is
the root or empty. -/
theorem segments_parent {q s : Text} {ss : List Text} (hq : segments q = ss ++ [s]) (hs : IsName s) :
    ∃ parent, Path.parent? q = some parent ∧ parent <+: q ∧
      (Path.trimEnd true ss = [] ∧ parent = (if isAbsolute q then [Path.slash] else []) ∨
        segments parent = Path.trimEnd true ss ∧ segments parent ≠ [[]] ∧
          isAbsolute parent = isAbsolute q) := by
  obtain ⟨hbegins, hlast⟩ := Path.trimEnd_spec true ss
  have hss : ss <+: segments q := hq ▸ List.prefix_append ss [s]
  unfold Path.parent?
  rw [hq, Path.trimEnd_append_name true ss hs]
  split
  · rename_i hnil
    exact absurd hnil (List.append_ne_nil_of_right_ne_nil ss (List.cons_ne_nil s []))
  rw [List.dropLast_concat]
  split
  · rename_i hnil
    refine ⟨_, rfl, ?_, .inl ⟨hnil, rfl⟩⟩
    split
    · rename_i habsolute
      rw [isAbsolute, decide_eq_true_iff] at habsolute
      obtain ⟨rest, rfl⟩ := List.head?_eq_some_iff.1 habsolute
      exact ⟨rest, rfl⟩
    · exact List.nil_prefix
  · rename_i hne
    obtain ⟨hpieces, habsolute⟩ := segments_join_trimEnd hss hne
    have hstarts : Text.join [Path.slash] (Path.trimEnd true ss) <+: q := by
      have hjoin := Text.join_pieces Path.slash q
      conv_rhs => rw [← hjoin]
      exact Text.join_prefix (hbegins.trans hss)
    refine ⟨_, rfl, hstarts, .inr ⟨hpieces, ?_, habsolute⟩⟩
    intro hempty
    rw [hpieces] at hempty
    rw [hempty] at hlast
    exact hlast rfl

theorem ne_nil_of_segments {q s : Text} {ss : List Text} (hq : segments q = ss ++ [s]) (hs : IsName s) :
    q ≠ [] := by
  intro heq
  rw [heq] at hq
  have hlast := congrArg List.getLast? hq
  rw [List.getLast?_concat] at hlast
  exact hs.1 (Option.some_inj.1 hlast).symm

theorem isPath_of_unlimited {t : Tree} (hlimits : t.limits = Limits.unlimited) {q : Text} (hq : q ≠ [])
    (hplain : Char.ofNat 0 ∉ q) : t.isPath q = true := by
  rw [isPath, hlimits]
  simp [hq, hplain, Limits.isKept, Limits.unlimited]

/-- A beginning of a path is short enough for a path. -/
theorem isPath_of_beginning {t : Tree} {p q : Text} (h : p <+: q) (hp : p ≠ []) (hq : t.isPath q) :
    t.isPath p = true := by
  obtain ⟨rest, rfl⟩ := h
  rw [isPath, Bool.and_eq_true, Bool.and_eq_true] at hq ⊢
  obtain ⟨⟨-, hplain⟩, hkept⟩ := hq
  refine ⟨⟨decide_eq_true hp, ?_⟩, ?_⟩
  · simp only [List.contains_eq_mem, List.mem_append, not_or, Bool.not_eq_true', decide_eq_false_iff_not]
      at hplain ⊢
    exact hplain.1
  · unfold Limits.isKept at hkept ⊢
    cases hlimit : t.limits.path with
    | none => rfl
    | some n =>
      rw [hlimit, Option.all_some, decide_eq_true_iff, Text.byteSize_append] at hkept
      rw [Option.all_some, decide_eq_true_iff]
      exact Nat.le_trans (Nat.le_add_right _ _) hkept

/-- Making the directory of a path makes the directories of its segments but the last. -/
theorem makeDirectory_parent {t : Tree} {q s : Text} {ss : List Text} (hq : segments q = ss ++ [s])
    (hs : IsName s) (hpath : t.isPath q) :
    t.makeDirectory ((Path.parent? q).getD []) = t.makeDirectories (t.start q) ss := by
  obtain ⟨parent, hparent, hbegins, hcases⟩ := segments_parent hq hs
  rw [hparent, Option.getD_some, ← makeDirectories_trimEnd t _ true ss]
  obtain ⟨hnil, rfl⟩ | ⟨hsegments, hempty, habsolute⟩ := hcases
  · rw [hnil]
    by_cases habsolute : isAbsolute q = true
    · rw [if_pos habsolute] at hbegins ⊢
      rw [makeDirectory, if_neg (List.cons_ne_nil _ _),
        if_pos (isPath_of_beginning hbegins (List.cons_ne_nil _ _) hpath)]
      rfl
    · rw [if_neg habsolute]
      rfl
  · have hne : parent ≠ [] := by
      intro heq
      rw [heq] at hempty
      exact hempty rfl
    rw [makeDirectory, if_neg hne, if_pos (isPath_of_beginning hbegins hne hpath), hsegments, start,
      habsolute]
    rfl

end Tree

end BuilderForge
