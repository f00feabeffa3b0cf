import Mathlib.Data.List.Sort
import BuilderForge.Proofs.KeyedLists
/-
  Lists in the order of their keys.

  Elements are sorted by their keys, those of one key staying in the order in which
  they stood (`isLast_insertionSort`). So what a sorted list leaves under each
  key is what the list itself leaves, and only the order is another one
  (`IsKeyed.eq_insertionSort`). The distinct keys then ascend, and that is the
  order in which they first came only if they came ascending.
-/

namespace BuilderForge

theorem eq_of_not_lt {s t : Text} (h : ¬ s < t) (h' : ¬ t < s) : s = t :=
  List.le_antisymm (List.not_lt.1 h') (List.not_lt.1 h)

/-- Whether keys ascend. -/
def Ascend (ks : List Text) : Prop := ks.Pairwise (· < ·)

instance : DecidablePred Ascend := fun ks => inferInstanceAs (Decidable (ks.Pairwise (· < ·)))

section Order

variable {α β : Type} {key : α → Text}

/-- Whether an element may stand before another one. -/
def KeyLe (key : α → Text) (a b : α) : Prop := ¬ key b < key a

instance : DecidableRel (KeyLe key) := fun a b => inferInstanceAs (Decidable (¬ key b < key a))

instance : Std.Total (KeyLe key) where
  total a b := by
    by_cases h : key b < key a
    · exact .inr (List.lt_asymm h)
    · exact .inl h

instance : IsTrans α (KeyLe key) where
  trans a b c hab hbc hca := by
    by_cases h : key b < key c
    · exact hab (List.lt_trans h hca)
    · exact hab (eq_of_not_lt h hbc ▸ hca)

/-- Sorted keys without repetition ascend. -/
theorem ascend_of_pairwise {ks : List Text} (h : ks.Pairwise (KeyLe id))
    (hnodup : ks.Nodup) : Ascend ks := by
  refine (h.and hnodup).imp ?_
  rintro s t ⟨hle, hne⟩
  by_contra hlt
  exact hne (eq_of_not_lt hlt hle)

theorem Ascend.nodup {ks : List Text} (h : Ascend ks) : ks.Nodup := by
  refine List.Pairwise.imp (fun {s t} hlt => ?_) h
  rintro rfl
  exact List.lt_irrefl s hlt

/-- Ascending keys are determined by what they are. -/
theorem Ascend.eq_of_perm {ks ks' : List Text} (h : Ascend ks) (h' : Ascend ks') (hperm : ks.Perm ks') :
    ks = ks' :=
  hperm.eq_of_pairwise (fun _ _ _ _ hlt hgt => absurd hgt (List.lt_asymm hlt)) h h'

/-- A list with ascending keys is determined by its elements. -/
theorem eq_of_ascend {l l' : List α} (h : Ascend (l.map key)) (h' : Ascend (l'.map key))
    (hmem : ∀ a, a ∈ l ↔ a ∈ l') : l = l' := by
  have hperm : l.Perm l' :=
    (List.perm_ext_iff_of_nodup h.nodup.of_map h'.nodup.of_map).2 hmem
  refine hperm.eq_of_pairwise (fun a b _ _ hlt hgt => ?_)
    (List.pairwise_map.1 h) (List.pairwise_map.1 h')
  exact absurd hgt (List.lt_asymm hlt)

theorem eraseDups_sublist : ∀ l : List Text, l.eraseDups.Sublist l
  | [] => by simp
  | a :: l => by
    rw [List.eraseDups_cons]
    exact .cons_cons a ((eraseDups_sublist _).trans List.filter_sublist)
termination_by l => l.length
decreasing_by exact Nat.lt_succ_of_le (List.length_filter_le _ _)

theorem perm_eraseDups {ks ks' : List Text} (h : ks.Perm ks') : ks.eraseDups.Perm ks'.eraseDups := by
  refine (List.perm_ext_iff_of_nodup (nodup_eraseDups ks) (nodup_eraseDups ks')).2 fun k => ?_
  rw [List.mem_eraseDups, List.mem_eraseDups, h.mem_iff]

/-- An element is sorted in before those of its key, and changes nothing about which
element of another key is the last. -/
theorem find?_reverse_orderedInsert (k : Text) (a : α) (l : List α) :
    (l.orderedInsert (KeyLe key) a).reverse.find? (fun x => decide (key x = k)) =
      (a :: l).reverse.find? fun x => decide (key x = k) := by
  induction l with
  | nil => rfl
  | cons b l ih =>
    rw [List.orderedInsert_cons]
    split
    · rfl
    · rename_i hlt
      -- `b` stays in front of `a`, and their keys differ
      have hne : key b ≠ key a := fun heq => hlt fun hlt => List.lt_irrefl _ (heq ▸ hlt)
      simp only [List.reverse_cons, List.find?_append, ih, List.find?_singleton, Option.or_assoc]
      congr 1
      by_cases hb : key b = k
      · have ha : key a ≠ k := fun ha => hne (hb.trans ha.symm)
        simp [hb, ha]
      · simp [hb]

theorem find?_reverse_insertionSort (k : Text) (l : List α) :
    (l.insertionSort (KeyLe key)).reverse.find? (fun x => decide (key x = k)) =
      l.reverse.find? fun x => decide (key x = k) := by
  induction l with
  | nil => rfl
  | cons a l ih =>
    rw [List.insertionSort_cons, find?_reverse_orderedInsert, List.reverse_cons, List.find?_append, ih,
      List.reverse_cons, List.find?_append]

/-- Sorting leaves the last element of a key the last one. -/
theorem isLast_insertionSort {a : α} {l : List α} :
    IsLast key a (l.insertionSort (KeyLe key)) ↔ IsLast key a l := by
  have h (l : List α) : IsLast key a l ↔ l.reverse.find? (fun x => decide (key x = key a)) = some a := by
    rw [find?_reverse_eq_some_iff]
    exact (and_iff_right rfl).symm
  rw [h, h, find?_reverse_insertionSort]

/-- The distinct keys of a sorted list ascend. -/
theorem ascend_eraseDups (l : List α) : Ascend ((l.insertionSort (KeyLe key)).map key).eraseDups := by
  refine ascend_of_pairwise (List.Pairwise.sublist (eraseDups_sublist _) ?_) (nodup_eraseDups _)
  rw [List.pairwise_map]
  exact List.pairwise_insertionSort (KeyLe key) l

theorem ascend_of_isKeyed {added table : List α}
    (h : IsKeyed key (added.insertionSort (KeyLe key)) table) :
    Ascend (table.map key) := by
  rw [h.keys]
  exact ascend_eraseDups added

/-- What sorted images leave under each key is the sorted list of the images of what the
elements leave. -/
theorem IsKeyed.eq_insertionSort {f : α → α} (hf : ∀ a, key (f a) = key a) {added table sorted : List α}
    (h : IsKeyed key added table)
    (hsorted : IsKeyed key ((added.map f).insertionSort (KeyLe key)) sorted) :
    sorted = (table.map f).insertionSort (KeyLe key) := by
  have hkeys : (table.map f).map key = table.map key := by
    rw [List.map_map]
    exact List.map_congr_left fun a _ => hf a
  have hcomp : (fun a => key (f a)) = key := funext hf
  refine eq_of_ascend (ascend_of_isKeyed hsorted) ?_ fun a => ?_
  · refine ascend_of_pairwise (List.pairwise_map.2 (List.pairwise_insertionSort (KeyLe key) _)) ?_
    rw [((List.perm_insertionSort (KeyLe key) (table.map f)).map key).nodup_iff, hkeys]
    exact h.nodup
  · rw [List.mem_insertionSort, List.mem_map]
    constructor
    · intro ha
      obtain ⟨b, hb, hlast⟩ := (isLast_insertionSort.1 (hsorted.last a ha)).exists_of_map
      rw [hcomp] at hlast
      exact ⟨b, h.mem hlast, hb⟩
    · rintro ⟨b, hb, rfl⟩
      have hlast := h.last b hb
      rw [← hcomp] at hlast
      exact hsorted.mem (isLast_insertionSort.2 hlast.map)

end Order

end BuilderForge
