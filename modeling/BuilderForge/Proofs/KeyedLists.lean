import BuilderForge.Text.Basic
/-
  Lists with one element for each key.

  Such a list grows by `putKeyed`: an element takes the place of the one with
  its key, and without one it goes to the end. `IsKeyed key added table` says
  what `table` holds after the elements `added` were put into it one after the
  other: one element for each key, the keys in the order in which they first
  came, and under each key the element that came last. Putting one more element
  in keeps it (`IsKeyed.put`), so every sequence has it (`isKeyed_foldl`).
-/

namespace BuilderForge

/-- `a` is in the list, and nothing of its key comes after it. -/
def IsLast {α : Type} (key : α → Text) (a : α) (l : List α) : Prop :=
  ∃ before after, l = before ++ a :: after ∧ ∀ x ∈ after, key x ≠ key a

theorem IsLast.mem {α : Type} {key : α → Text} {a : α} {l : List α} (h : IsLast key a l) : a ∈ l := by
  obtain ⟨before, after, rfl, -⟩ := h
  simp

theorem isLast_concat {α : Type} (key : α → Text) (a : α) (l : List α) : IsLast key a (l ++ [a]) :=
  ⟨l, [], rfl, by simp⟩

theorem IsLast.concat {α : Type} {key : α → Text} {a x : α} {l : List α} (h : IsLast key a l)
    (hx : key x ≠ key a) : IsLast key a (l ++ [x]) := by
  obtain ⟨before, after, rfl, hafter⟩ := h
  refine ⟨before, after ++ [x], by simp, fun y hy => ?_⟩
  rcases List.mem_append.1 hy with hy | hy
  · exact hafter y hy
  · rw [List.mem_singleton.1 hy]
    exact hx

/-- The last element of a key in a list of images is the image of the last one. -/
theorem IsLast.exists_of_map {α β : Type} {key : β → Text} {f : α → β} {b : β} {l : List α}
    (h : IsLast key b (l.map f)) : ∃ a, f a = b ∧ IsLast (fun x => key (f x)) a l := by
  obtain ⟨before, after, heq, hafter⟩ := h
  obtain ⟨before', rest, rfl, -, hrest⟩ := List.map_eq_append_iff.1 heq
  obtain ⟨a, after', rfl, rfl, rfl⟩ := List.map_eq_cons_iff.1 hrest
  exact ⟨a, rfl, before', after', rfl, fun x hx => hafter (f x) (List.mem_map_of_mem hx)⟩

/-- The image of the last element of a key is the last image of the key. -/
theorem IsLast.map {α β : Type} {key : β → Text} {f : α → β} {a : α} {l : List α}
    (h : IsLast (fun x => key (f x)) a l) : IsLast key (f a) (l.map f) := by
  obtain ⟨before, after, rfl, hafter⟩ := h
  refine ⟨before.map f, after.map f, by rw [List.map_append, List.map_cons], fun y hy => ?_⟩
  obtain ⟨x, hx, rfl⟩ := List.mem_map.1 hy
  exact hafter x hx

/-- Without repeated keys every element is the last one of its key. -/
theorem isLast_of_nodup {α : Type} {key : α → Text} {a : α} {l : List α} (h : (l.map key).Nodup)
    (ha : a ∈ l) : IsLast key a l := by
  obtain ⟨before, after, rfl⟩ := List.append_of_mem ha
  rw [List.map_append, List.map_cons, List.nodup_append, List.nodup_cons] at h
  refine ⟨before, after, rfl, fun x hx hkey => h.2.1.1 ?_⟩
  rw [← hkey]
  exact List.mem_map_of_mem hx

/-- There is one last element of a key. -/
theorem IsLast.eq {α : Type} {key : α → Text} {a b : α} {l : List α} (ha : IsLast key a l)
    (hb : IsLast key b l) (h : key a = key b) : a = b := by
  obtain ⟨before, after, rfl, hafter⟩ := ha
  obtain ⟨before', after', heq, hafter'⟩ := hb
  -- the one that stands further on would come after the other
  obtain ⟨between, -, heq⟩ | ⟨between, -, heq⟩ := List.append_eq_append_iff.1 heq
  · cases between with
    | nil =>
      cases heq
      rfl
    | cons x between =>
      cases heq
      exact absurd h.symm (hafter b (List.mem_append_right _ List.mem_cons_self))
  · cases between with
    | nil =>
      cases heq
      rfl
    | cons x between =>
      cases heq
      exact absurd h (hafter' a (List.mem_append_right _ List.mem_cons_self))

theorem nodup_eraseDups : ∀ l : List Text, l.eraseDups.Nodup
  | [] => by simp
  | a :: l => by
    rw [List.eraseDups_cons, List.nodup_cons]
    refine ⟨?_, nodup_eraseDups _⟩
    rw [List.mem_eraseDups, List.mem_filter]
    simp
termination_by l => l.length
decreasing_by exact Nat.lt_succ_of_le (List.length_filter_le _ _)

/-- A key that comes again changes nothing, and a new one goes to the end. -/
theorem eraseDups_concat (l : List Text) (k : Text) :
    (l ++ [k]).eraseDups = if k ∈ l then l.eraseDups else l.eraseDups ++ [k] := by
  rw [List.eraseDups_append]
  split
  · rename_i h
    simp [List.removeAll, h]
  · rename_i h
    simp [List.removeAll, h, List.eraseDups_cons]

/-- The list with `a` in place of the element of its key, else at the end. -/
def putKeyed {α : Type} (key : α → Text) (a : α) : List α → List α
  | [] => [a]
  | b :: l => if key b = key a then a :: l else b :: putKeyed key a l

section Keyed

variable {α : Type} {key : α → Text}

/-- Putting an element in keeps the keys and puts a new one at the end. -/
theorem map_putKeyed (a : α) (l : List α) : (putKeyed key a l).map key =
    if key a ∈ l.map key then l.map key else l.map key ++ [key a] := by
  induction l with
  | nil => simp [putKeyed]
  | cons b l ih =>
    rw [putKeyed]
    by_cases h : key b = key a
    · simp [h]
    · rw [if_neg h, List.map_cons, ih, List.map_cons]
      by_cases ha : key a ∈ l.map key
      · rw [if_pos ha, if_pos (List.mem_cons_of_mem _ ha)]
      · have hb : key a ∉ key b :: l.map key := by
          rw [List.mem_cons, not_or]
          exact ⟨fun e => h e.symm, ha⟩
        rw [if_neg ha, if_neg hb, List.cons_append]

/-- Of the old elements those of another key stay. -/
theorem mem_putKeyed {a b : α} {l : List α} (hnd : (l.map key).Nodup) (h : b ∈ putKeyed key a l) :
    b = a ∨ b ∈ l ∧ key a ≠ key b := by
  induction l with
  | nil => exact .inl (by simpa [putKeyed] using h)
  | cons x l ih =>
    obtain ⟨hx, hnd⟩ := List.nodup_cons.1 hnd
    rw [putKeyed] at h
    split at h
    · rename_i hkey
      rcases List.mem_cons.1 h with rfl | hb
      · exact .inl rfl
      · refine .inr ⟨List.mem_cons_of_mem _ hb, fun e => hx ?_⟩
        rw [hkey, e]
        exact List.mem_map_of_mem hb
    · rename_i hkey
      rcases List.mem_cons.1 h with rfl | hb
      · exact .inr ⟨List.mem_cons_self, fun e => hkey e.symm⟩
      · rcases ih hnd hb with rfl | ⟨hb, hne⟩
        · exact .inl rfl
        · exact .inr ⟨List.mem_cons_of_mem _ hb, hne⟩

/-- An element of a new key goes to the end. -/
theorem putKeyed_of_notMem {a : α} {l : List α} (h : key a ∉ l.map key) :
    putKeyed key a l = l ++ [a] := by
  induction l with
  | nil => rfl
  | cons b l ih =>
    rw [List.map_cons, List.mem_cons, not_or] at h
    rw [putKeyed, if_neg fun e => h.1 e.symm, ih h.2, List.cons_append]

/-- What a list holds after elements were put into it. -/
structure IsKeyed (key : α → Text) (added table : List α) : Prop where
  /-- One element for each key, in the order in which the keys first came. -/
  keys : table.map key = (added.map key).eraseDups
  /-- Under each key the element that came last. -/
  last : ∀ a ∈ table, IsLast key a added

theorem IsKeyed.nodup {added table : List α} (h : IsKeyed key added table) : (table.map key).Nodup := by
  rw [h.keys]
  exact nodup_eraseDups _

/-- The element that came last under its key is in the list. -/
theorem IsKeyed.mem {added table : List α} (h : IsKeyed key added table) {a : α}
    (ha : IsLast key a added) : a ∈ table := by
  have hkey : key a ∈ table.map key := by
    rw [h.keys, List.mem_eraseDups]
    exact List.mem_map_of_mem ha.mem
  obtain ⟨b, hb, hba⟩ := List.mem_map.1 hkey
  rwa [ha.eq (h.last b hb) hba.symm]

theorem isKeyed_nil : IsKeyed key [] [] := ⟨rfl, by simp⟩

/-- Putting one more element in. -/
theorem IsKeyed.put {added table : List α} (h : IsKeyed key added table) (a : α) :
    IsKeyed key (added ++ [a]) (putKeyed key a table) := by
  constructor
  · have hmem : key a ∈ table.map key ↔ key a ∈ added.map key := by
      rw [h.keys, List.mem_eraseDups]
    rw [map_putKeyed, List.map_append, List.map_singleton, eraseDups_concat, h.keys]
    simp only [← h.keys, hmem]
  · intro b hb
    rcases mem_putKeyed h.nodup hb with rfl | ⟨hb, hne⟩
    · exact isLast_concat _ _ _
    · exact (h.last b hb).concat hne

/-- Every sequence of elements makes a list of what was put in. -/
theorem isKeyed_foldl (as : List α) : ∀ {added table : List α}, IsKeyed key added table →
    IsKeyed key (added ++ as) (as.foldl (fun t a => putKeyed key a t) table) := by
  induction as with
  | nil =>
    intro added table h
    rwa [List.append_nil]
  | cons a as ih =>
    intro added table h
    have := ih (h.put a)
    rwa [List.append_assoc] at this

/-- Looking from the end finds the element of a key that came last. -/
theorem find?_reverse_eq_some_iff {l : List α} {k : Text} {a : α} :
    l.reverse.find? (fun x => decide (key x = k)) = some a ↔ key a = k ∧ IsLast key a l := by
  rw [List.find?_eq_some_iff_append, decide_eq_true_iff]
  refine and_congr_right fun hk => ⟨?_, ?_⟩
  · rintro ⟨after, before, hl, hafter⟩
    refine ⟨before.reverse, after.reverse, ?_, fun x hx hkey => ?_⟩
    · simpa using congrArg List.reverse hl
    · have hne := hafter x (List.mem_reverse.1 hx)
      simp [hkey, hk] at hne
  · rintro ⟨before, after, rfl, hafter⟩
    refine ⟨after.reverse, before.reverse, by simp, fun x hx => ?_⟩
    have hne := hafter x (List.mem_reverse.1 hx)
    rw [hk] at hne
    simp [hne]

/-- What is found under a key is what was put in last under it. -/
theorem IsKeyed.find?_eq {added table : List α} (h : IsKeyed key added table) (k : Text) :
    table.find? (fun x => decide (key x = k)) = added.reverse.find? fun x => decide (key x = k) := by
  cases hlast : added.reverse.find? (fun x => decide (key x = k)) with
  | none =>
    rw [List.find?_eq_none] at hlast ⊢
    intro a ha
    exact hlast a (List.mem_reverse.2 (h.last a ha).mem)
  | some a =>
    obtain ⟨hk, ha⟩ := find?_reverse_eq_some_iff.1 hlast
    obtain ⟨b, hfound⟩ : ∃ b, table.find? (fun x => decide (key x = k)) = some b := by
      rw [← Option.isSome_iff_exists, List.find?_isSome]
      exact ⟨a, h.mem ha, decide_eq_true hk⟩
    have hb : key b = k := by simpa using List.find?_some hfound
    rw [hfound, (h.last b (List.mem_of_find?_eq_some hfound)).eq ha (hb.trans hk.symm)]

end Keyed

end BuilderForge
