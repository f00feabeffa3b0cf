import Mathlib.Data.List.Basic
import BuilderForge.Files.Tree
/-
  Trees that grow.

  `Adds t t' new` says that `t'` is `t` with the entries of `new` besides, that
  nothing of `t` has changed, and that a listing of what lies below a location
  stays right. It is closed under doing one thing after the other, so a change
  to a tree is described by what its single steps put in. All steps that make
  something put it at a free location.

  `Grows` says less, namely that everything there is stays where it is. This is
  enough for paths: what a path leads to in a tree it leads to in every tree that
  has grown from it. Making the directories on a way makes those that are missing and
  nothing else: `walk_of_grows`, `makeDirectories_names`.
-/

namespace BuilderForge

/-- Whether a segment is the name of something, and neither empty nor a dot nor two dots. -/
def Path.IsName (s : Text) : Prop := s ≠ [] ∧ s ≠ here ∧ s ≠ up

namespace Tree

/-! ## Entries -/

@[simp] theorem entry?_nil (t : Tree) : t.entry? [] = some .directory := if_pos rfl

theorem entry?_of_ne_nil (t : Tree) {l : Location} (h : l ≠ []) :
    t.entry? l = (t.entries.find? fun e => e.1 = l).map Prod.snd := if_neg h

/-- A free location has no entry. -/
theorem ne_of_entry?_eq_none {t : Tree} {l : Location} (h : t.entry? l = none) :
    l ≠ [] ∧ ∀ x ∈ t.entries, x.1 ≠ l := by
  have hne : l ≠ [] := by
    intro heq
    rw [heq, entry?_nil] at h
    cases h
  rw [entry?_of_ne_nil t hne, Option.map_eq_none_iff, List.find?_eq_none] at h
  exact ⟨hne, fun x hx heq => h x hx (decide_eq_true heq)⟩

theorem putEntry_of_free {l : Location} {e : Entry} {es : List (Location × Entry)}
    (h : ∀ x ∈ es, x.1 ≠ l) : putEntry l e es = es ++ [(l, e)] := by
  induction es with
  | nil => rfl
  | cons x es ih =>
    rw [putEntry, if_neg (h x List.mem_cons_self), ih fun y hy => h y (List.mem_cons_of_mem x hy)]
    rfl

theorem entries_put {t : Tree} {l : Location} {e : Entry} (h : t.entry? l = none) :
    (t.put l e).entries = t.entries ++ [(l, e)] :=
  putEntry_of_free (ne_of_entry?_eq_none h).2

/-- A search among the entries after one has been put there. -/
theorem find?_putEntry (l k : Location) (e : Entry) (es : List (Location × Entry)) :
    ((putEntry l e es).find? fun x => x.1 = k).map Prod.snd =
      if k = l then some e else (es.find? fun x => x.1 = k).map Prod.snd := by
  induction es with
  | nil =>
    rw [putEntry, List.find?_cons]
    by_cases hk : k = l
    · simp [hk]
    · simp [hk, Ne.symm hk]
  | cons x es ih =>
    rw [putEntry]
    by_cases hx : x.1 = l
    · rw [if_pos hx, List.find?_cons, List.find?_cons, hx]
      by_cases hk : k = l
      · simp [hk]
      · simp [hk, Ne.symm hk]
    · rw [if_neg hx, List.find?_cons, List.find?_cons]
      by_cases hkey : x.1 = k
      · simp [hkey, hkey ▸ hx]
      · simp only [hkey, decide_false, ih]

/-- Putting something at a location changes this location only. -/
theorem entry?_put {t : Tree} {l : Location} (hl : l ≠ []) (e : Entry) (k : Location) :
    entry? (t.put l e) k = if k = l then some e else t.entry? k := by
  by_cases hk : k = []
  · rw [hk, entry?_nil, entry?_nil, if_neg hl.symm]
  · rw [entry?_of_ne_nil _ hk, entry?_of_ne_nil _ hk]
    exact find?_putEntry l k e t.entries

theorem mem_below {t : Tree} {l way : Location} {e : Entry} :
    (way, e) ∈ t.below l ↔ way ≠ [] ∧ (l ++ way, e) ∈ t.entries := by
  unfold below
  rw [List.mem_filterMap]
  constructor
  · intro h
    obtain ⟨x, hx, hway⟩ := h
    split at hway
    · rename_i s rest hbegins
      cases hway
      rw [List.isPrefixOf?_eq_some_iff_append_eq] at hbegins
      exact ⟨List.cons_ne_nil _ _, hbegins ▸ hx⟩
    · cases hway
  · intro h
    obtain ⟨hne, hmem⟩ := h
    obtain ⟨s, rest, rfl⟩ := List.exists_cons_of_ne_nil hne
    refine ⟨_, hmem, ?_⟩
    have hbegins : l.isPrefixOf? (l ++ s :: rest) = some (s :: rest) :=
      List.isPrefixOf?_eq_some_iff_append_eq.2 rfl
    rw [hbegins]

/-- Whether the list of what lies below a location says what the locations there hold. -/
def IsListed (t : Tree) (l : Location) : Prop :=
  ∀ way e, (way, e) ∈ t.below l ↔ way ≠ [] ∧ t.entry? (l ++ way) = some e

/-- Nothing is found below an empty directory. -/
theorem entry?_of_below_eq_nil {t : Tree} {l way : Location} (h : t.below l = []) (hway : way ≠ []) :
    t.entry? (l ++ way) = none := by
  rw [entry?_of_ne_nil t (List.append_ne_nil_of_right_ne_nil l hway), Option.map_eq_none_iff,
    List.find?_eq_none]
  intro x hx hkey
  have hmem : (way, x.2) ∈ t.below l :=
    mem_below.2 ⟨hway, by rw [← of_decide_eq_true hkey]; exact hx⟩
  rw [h] at hmem
  cases hmem

theorem isListed_of_below_eq_nil {t : Tree} {l : Location} (h : t.below l = []) : t.IsListed l := by
  intro way e
  rw [h]
  refine iff_of_false List.not_mem_nil fun hentry => ?_
  rw [entry?_of_below_eq_nil h hentry.1] at hentry
  cases hentry.2

/-! ## Growth -/

/-- Whether everything that is in a tree is in another one, each directory as a
directory. -/
structure Grows (t t' : Tree) : Prop where
  limits : t'.limits = t.limits
  workplace : t'.workplace = t.workplace
  directory : ∀ l, t.isDirectory l → t'.isDirectory l
  there : ∀ l, (t.entry? l).isSome → (t'.entry? l).isSome

/-- Whether a tree is another one with new entries in it. -/
structure Adds (t t' : Tree) (new : Location → Entry → Prop) : Prop where
  limits : t'.limits = t.limits
  workplace : t'.workplace = t.workplace
  entry?_iff : ∀ l e, t'.entry? l = some e ↔ t.entry? l = some e ∨ new l e
  listed : ∀ l, t.IsListed l → t'.IsListed l

namespace Adds

variable {t t' t'' : Tree} {new new' : Location → Entry → Prop}

theorem refl (t : Tree) : Adds t t fun _ _ => False :=
  ⟨rfl, rfl, fun _ _ => (or_iff_left id).symm, fun _ h => h⟩

theorem trans (h : Adds t t' new) (h' : Adds t' t'' new') :
    Adds t t'' fun l e => new l e ∨ new' l e where
  limits := h'.limits.trans h.limits
  workplace := h'.workplace.trans h.workplace
  entry?_iff l e := by rw [h'.entry?_iff, h.entry?_iff, or_assoc]
  listed l hl := h'.listed l (h.listed l hl)

/-- What is new may be said in another way, where it is said of what the tree did not have. -/
theorem congr (h : Adds t t' new)
    (hnew : ∀ l e, t.entry? l = some e ∨ new l e ↔ t.entry? l = some e ∨ new' l e) :
    Adds t t' new' :=
  ⟨h.limits, h.workplace, fun l e => (h.entry?_iff l e).trans (hnew l e), h.listed⟩

/-- Something is put at a free location. -/
theorem put {l : Location} (e : Entry) (h : t.entry? l = none) :
    Adds t (t.put l e) fun k d => k = l ∧ d = e where
  limits := rfl
  workplace := rfl
  entry?_iff k d := by
    rw [entry?_put (ne_of_entry?_eq_none h).1]
    split
    · rename_i heq
      rw [heq, h, Option.some_inj]
      simp [eq_comm]
    · rename_i heq
      simp [heq]
  listed k hk := by
    intro way d
    rw [mem_below, entries_put h, List.mem_append, List.mem_singleton, Prod.mk.injEq, and_or_left,
      ← mem_below, hk way d, ← and_or_left, entry?_put (ne_of_entry?_eq_none h).1]
    apply and_congr_right
    intro _
    split
    · rename_i heq
      rw [heq, h, Option.some_inj]
      simp [eq_comm]
    · rename_i heq
      simp [heq]

theorem keeps (h : Adds t t' new) {l : Location} {e : Entry} (hl : t.entry? l = some e) :
    t'.entry? l = some e :=
  (h.entry?_iff l e).2 (.inl hl)

theorem isDirectory (h : Adds t t' new) {l : Location} (hl : t.isDirectory l) : t'.isDirectory l :=
  decide_eq_true (h.keeps (of_decide_eq_true hl))

theorem grows (h : Adds t t' new) : Grows t t' where
  limits := h.limits
  workplace := h.workplace
  directory _ := h.isDirectory
  there _ hl := by
    obtain ⟨e, he⟩ := Option.isSome_iff_exists.1 hl
    exact Option.isSome_iff_exists.2 ⟨e, h.keeps he⟩

end Adds

/-! ## Following a path -/

theorem walk_append (t : Tree) (l : Location) (ss rest : List Text) :
    t.walk l (ss ++ rest) = (t.walk l ss).bind fun m => t.walk m rest := by
  induction ss generalizing l with
  | nil => rfl
  | cons s ss ih =>
    rw [List.cons_append, walk, walk]
    cases t.step l s with
    | none => rfl
    | some m => exact ih m

/-- Where a segment leads from a location: nowhere else, up, or to what is there by its name. -/
inductive Leads (t : Tree) (l : Location) : Text → Location → Prop where
  | stay {s : Text} (hs : s = [] ∨ s = Path.here) : Leads t l s l
  | up : Leads t l Path.up l.dropLast
  | down {s : Text} (hs : Path.IsName s) (h : (t.entry? (l ++ [s])).isSome) : Leads t l s (l ++ [s])

theorem step_eq_some_iff {t : Tree} {l m : Location} {s : Text} :
    t.step l s = some m ↔ t.isDirectory l ∧ t.Leads l s m := by
  unfold step
  constructor
  · intro h
    split at h
    · cases h
    · rename_i hl
      refine ⟨by simpa using hl, ?_⟩
      split at h
      · rename_i hstay
        cases h
        exact .stay hstay
      · rename_i hstay
        rw [not_or] at hstay
        split at h
        · rename_i hup
          cases h
          exact hup ▸ .up
        · rename_i hup
          split at h
          · rename_i hentry
            cases h
            exact .down ⟨hstay.1, hstay.2, hup⟩ hentry
          · cases h
  · intro h
    obtain ⟨hl, hleads⟩ := h
    rw [hl, Bool.not_true, if_neg Bool.false_ne_true]
    cases hleads with
    | stay hs => rw [if_pos hs]
    | up => rfl
    | down hs h => rw [if_neg (not_or.2 ⟨hs.1, hs.2.1⟩), if_neg hs.2.2, if_pos h]

/-- A way that ends in a directory begins in one. -/
theorem isDirectory_of_walk {t : Tree} {l m : Location} {ss : List Text} (h : t.walk l ss = some m)
    (hm : t.isDirectory m) : t.isDirectory l := by
  cases ss with
  | nil =>
    cases h
    exact hm
  | cons s ss =>
    rw [walk] at h
    split at h
    · rename_i hstep
      exact (step_eq_some_iff.1 hstep).1
    · cases h

/-- What a way leads to, it leads to still when the tree has grown. -/
theorem walk_of_grows {t t' : Tree} (h : Grows t t') {l m : Location} {ss : List Text}
    (hwalk : t.walk l ss = some m) : t'.walk l ss = some m := by
  induction ss generalizing l with
  | nil => exact hwalk
  | cons s ss ih =>
    rw [walk] at hwalk ⊢
    split at hwalk
    · rename_i k hstep
      obtain ⟨hl, hleads⟩ := step_eq_some_iff.1 hstep
      have hstep' : t'.step l s = some k := by
        apply step_eq_some_iff.2
        refine ⟨h.directory l hl, ?_⟩
        cases hleads with
        | stay hs => exact .stay hs
        | up => exact .up
        | down hs hentry => exact .down hs (h.there _ hentry)
      rw [hstep']
      exact ih hwalk
    · cases hwalk

/-- Names lead down where there are directories on the way. -/
theorem walk_names {t : Tree} {l : Location} {names : List Text} (hnames : ∀ s ∈ names, Path.IsName s)
    (hdirectories : ∀ n, n <+: names → t.isDirectory (l ++ n)) : t.walk l names = some (l ++ names) := by
  induction names generalizing l with
  | nil => rw [List.append_nil]; rfl
  | cons s names ih =>
    have hhere : t.isDirectory l := by simpa using hdirectories [] List.nil_prefix
    have hthere : t.isDirectory (l ++ [s]) := hdirectories [s] ⟨names, rfl⟩
    have hstep : t.step l s = some (l ++ [s]) := by
      apply step_eq_some_iff.2
      refine ⟨hhere, .down (hnames s List.mem_cons_self) ?_⟩
      rw [of_decide_eq_true hthere]
      rfl
    rw [walk, hstep]
    show t.walk (l ++ [s]) names = _
    rw [ih (fun x hx => hnames x (List.mem_cons_of_mem s hx)), List.append_assoc]
    · rfl
    · intro n hn
      rw [List.append_assoc]
      exact hdirectories (s :: n) ((List.prefix_cons_inj s).2 hn)

/-! ## Making directories -/

/-- A directory is made where there is nothing. -/
theorem makeDirectories_missing {t : Tree} {l : Location} {s : Text} (hs : Path.IsName s)
    (h : t.entry? (l ++ [s]) = none) (hname : t.isName s) (rest : List Text) :
    t.makeDirectories l (s :: rest) =
      (t.put (l ++ [s]) .directory).makeDirectories (l ++ [s]) rest := by
  rw [makeDirectories, if_neg (not_or.2 ⟨hs.1, hs.2.1⟩), if_neg hs.2.2, h]
  exact if_pos hname

theorem makeDirectories_there {t : Tree} {l : Location} {s : Text} (hs : Path.IsName s)
    (h : t.isDirectory (l ++ [s])) (rest : List Text) :
    t.makeDirectories l (s :: rest) = t.makeDirectories (l ++ [s]) rest := by
  rw [makeDirectories, if_neg (not_or.2 ⟨hs.1, hs.2.1⟩), if_neg hs.2.2, of_decide_eq_true h]

theorem makeDirectories_stay {t : Tree} {l : Location} {s : Text} (hs : s = [] ∨ s = Path.here)
    (rest : List Text) : t.makeDirectories l (s :: rest) = t.makeDirectories l rest := by
  rw [makeDirectories, if_pos hs]

/-- Nothing is made on a way that is there. -/
theorem makeDirectories_walk {t : Tree} {l m : Location} {ss : List Text} (h : t.walk l ss = some m)
    (hm : t.isDirectory m) (rest : List Text) :
    t.makeDirectories l (ss ++ rest) = t.makeDirectories m rest := by
  induction ss generalizing l with
  | nil =>
    cases h
    rfl
  | cons s ss ih =>
    rw [walk] at h
    split at h
    · rename_i k hstep
      have hk := isDirectory_of_walk h hm
      obtain ⟨-, hleads⟩ := step_eq_some_iff.1 hstep
      rw [List.cons_append]
      cases hleads with
      | stay hs => rw [makeDirectories_stay hs, ih h]
      | up => exact ih h
      | down hs _ => rw [makeDirectories_there hs hk, ih h]
    · cases h

/-- Whether a location lies on the way that names lead from another one, after its start. -/
def IsOnWay (l : Location) (names : List Text) (k : Location) : Prop :=
  ∃ n, n ≠ [] ∧ n <+: names ∧ k = l ++ n

theorem not_isOnWay_nil {l k : Location} : ¬ IsOnWay l [] k := by
  intro h
  obtain ⟨n, hn, hbegins, -⟩ := h
  exact hn (List.prefix_nil.1 hbegins)

/-- A way goes on below its first name. -/
theorem isOnWay_cons {l k : Location} {s : Text} {names : List Text} :
    IsOnWay l (s :: names) k ↔ k = l ++ [s] ∨ IsOnWay (l ++ [s]) names k := by
  have happend (n : List Text) : l ++ s :: n = l ++ [s] ++ n := by rw [List.append_assoc]; rfl
  constructor
  · intro h
    obtain ⟨n, hn, hbegins, rfl⟩ := h
    obtain rfl | ⟨n, rfl, hbegins⟩ := List.prefix_cons_iff.1 hbegins
    · exact absurd rfl hn
    · by_cases hnil : n = []
      · exact .inl (by rw [hnil])
      · exact .inr ⟨n, hnil, (List.prefix_cons_inj s).1 hbegins, happend n⟩
  · intro h
    obtain rfl | ⟨n, -, hbegins, rfl⟩ := h
    · exact ⟨[s], List.cons_ne_nil _ _, ⟨names, rfl⟩, rfl⟩
    · exact ⟨s :: n, List.cons_ne_nil _ _, (List.prefix_cons_inj s).2 hbegins, (happend n).symm⟩

/-- The directories on a way of names are made if no file is in it, those that
are missing and nothing else. -/
theorem makeDirectories_names {t : Tree} {l : Location} {names : List Text}
    (hlimits : t.limits = Limits.unlimited) (hnames : ∀ s ∈ names, Path.IsName s)
    (hfree : ∀ k, IsOnWay l names k → ∀ bytes, t.entry? k ≠ some (.file bytes)) :
    ∃ made, t.makeDirectories l names = (made, true) ∧
      Adds t made fun k e => e = .directory ∧ IsOnWay l names k := by
  induction names generalizing t l with
  | nil =>
    refine ⟨t, rfl, (Adds.refl t).congr fun k e => or_congr_right ?_⟩
    exact iff_of_false id fun h => not_isOnWay_nil h.2
  | cons s names ih =>
    have hnames' : ∀ x ∈ names, Path.IsName x := fun x hx => hnames x (List.mem_cons_of_mem s hx)
    have hfree' : ∀ k, IsOnWay (l ++ [s]) names k → ∀ bytes, t.entry? k ≠ some (.file bytes) :=
      fun k hk => hfree k (isOnWay_cons.2 (.inr hk))
    simp only [isOnWay_cons]
    have hs := hnames s List.mem_cons_self
    cases hentry : t.entry? (l ++ [s]) with
    | none =>
      have hname : t.isName s = true := by
        rw [isName, hlimits]
        rfl
      have hput := Adds.put (t := t) .directory hentry
      -- what was put is no file, so nothing is in the way of the others
      obtain ⟨made, hmade, hadds⟩ := ih (t := t.put (l ++ [s]) .directory) (l := l ++ [s]) hlimits
        hnames' (by
          intro k hk bytes hfile
          obtain hfile | ⟨-, hfile⟩ := (hput.entry?_iff _ _).1 hfile
          · exact hfree' k hk bytes hfile
          · cases hfile)
      rw [makeDirectories_missing hs hentry hname, hmade]
      refine ⟨made, rfl, (hput.trans hadds).congr fun k e => or_congr_right ?_⟩
      tauto
    | some e =>
      cases e with
      | file bytes => exact absurd hentry (hfree _ (isOnWay_cons.2 (.inl rfl)) bytes)
      | directory =>
        obtain ⟨made, hmade, hadds⟩ := ih (t := t) (l := l ++ [s]) hlimits hnames' hfree'
        rw [makeDirectories_there hs (decide_eq_true hentry), hmade]
        refine ⟨made, rfl, hadds.congr fun k e => ?_⟩
        constructor
        · tauto
        · intro h
          obtain h | ⟨rfl, rfl | h⟩ := h
          · exact .inl h
          · exact .inl hentry
          · exact .inr ⟨rfl, h⟩

end Tree

end BuilderForge
