import BuilderForge.Builder.Accessor
/-
  The order of accessors.

  `Entity.accessors` walks the members as they were declared and sorts what it
  finds by kind. The sort is stable, so it is a concatenation: the fields, the
  setters and the mutators, each in declaration order (`accessors_eq`). Neither
  the members that are no accessors nor the way in which setters and mutators
  are interleaved leave a trace in it.
-/

namespace BuilderForge

namespace MethodDeclaration

/-- Whether the method changes the entity in place. -/
def isSetter (m : MethodDeclaration) : Bool :=
  m.isOpen && "set".toList.isPrefixOf m.name && m.params.length = 1

/-- Whether the method answers a changed entity. -/
def isMutator (m : MethodDeclaration) : Bool :=
  m.isOpen && "with".toList.isPrefixOf m.name && !m.params.isEmpty

/-- No name begins with `set` and with `with`. -/
theorem isMutator_eq_false_of_isSetter {m : MethodDeclaration} (h : m.isSetter = true) :
    m.isMutator = false := by
  simp only [isSetter, Bool.and_eq_true] at h
  cases hw : "with".toList.isPrefixOf m.name with
  | false => rw [isMutator, hw, Bool.and_false, Bool.false_and]
  | true =>
    obtain ⟨s, hs⟩ := List.isPrefixOf_iff_prefix.1 h.1.2
    obtain ⟨w, hw⟩ := List.isPrefixOf_iff_prefix.1 hw
    rw [← hs] at hw
    simp at hw

theorem accessor?_eq (m : MethodDeclaration) :
    m.accessor? = if m.isSetter then some (.setter m)
      else if m.isMutator then some (.mutator m) else none := by
  unfold accessor? isSetter isMutator
  cases m.isOpen
  · rfl
  · simp only [Bool.true_and]
    rfl

end MethodDeclaration

namespace Accessor

/-! ## Sorting by kind -/

theorem rank_trans (a b c : Accessor) (hab : decide (a.rank ≤ b.rank) = true)
    (hbc : decide (b.rank ≤ c.rank) = true) : decide (a.rank ≤ c.rank) = true := by
  simp only [decide_eq_true_eq] at *
  omega

theorem rank_total (a b : Accessor) :
    (decide (a.rank ≤ b.rank) || decide (b.rank ≤ a.rank)) = true := by
  simp only [Bool.or_eq_true, decide_eq_true_eq]
  omega

/-- A stable sort keeps the accessors of one kind in their order. -/
theorem filter_rank_mergeSort (l : List Accessor) (k : Nat) :
    (l.mergeSort fun a b => a.rank ≤ b.rank).filter (fun a => a.rank = k) =
      l.filter fun a => a.rank = k := by
  have hsorted : (l.filter fun a => a.rank = k).Pairwise fun a b => decide (a.rank ≤ b.rank) = true := by
    refine List.pairwise_of_forall_mem_list fun a ha b hb => ?_
    have ha := (List.mem_filter.1 ha).2
    have hb := (List.mem_filter.1 hb).2
    simp only [decide_eq_true_eq] at *
    omega
  have hsub := List.sublist_mergeSort rank_trans rank_total hsorted List.filter_sublist
  -- both lists have the same elements, so the sublist is the whole list
  have hperm := (List.mergeSort_perm l fun a b => decide (a.rank ≤ b.rank)).filter fun a => a.rank = k
  have hfilter := hsub.filter fun a => decide (a.rank = k)
  rw [List.filter_filter] at hfilter
  simp only [Bool.and_self] at hfilter
  exact (hfilter.eq_of_length hperm.length_eq.symm).symm

/-- In a sorted list the accessors below a rank stand first. -/
theorem filter_rank_split (k : Nat) : ∀ l : List Accessor,
    (l.Pairwise fun a b => a.rank ≤ b.rank) →
    l.filter (fun a => a.rank < k) ++ l.filter (fun a => k ≤ a.rank) = l
  | [], _ => rfl
  | a :: l, h => by
    obtain ⟨ha, hl⟩ := List.pairwise_cons.1 h
    have ih := filter_rank_split k l hl
    by_cases hk : a.rank < k
    · have hge : decide (k ≤ a.rank) = false := by simpa using hk
      rw [List.filter_cons_of_pos (by simpa using hk), List.filter_cons_of_neg (by simp [hge]),
        List.cons_append, ih]
    · have hrest : ∀ b ∈ l, k ≤ b.rank := fun b hb => Nat.le_trans (Nat.le_of_not_lt hk) (ha b hb)
      have hlow : l.filter (fun b => b.rank < k) = [] :=
        List.filter_eq_nil_iff.2 fun b hb => by simpa using hrest b hb
      have hhigh : l.filter (fun b => k ≤ b.rank) = l :=
        List.filter_eq_self.2 fun b hb => by simpa using hrest b hb
      rw [List.filter_cons_of_neg (by simpa using hk), List.filter_cons_of_pos (by simpa using hk),
        hlow, hhigh, List.nil_append]

/-- A sorted list is made of its fields, its setters and its mutators. -/
theorem eq_filter_rank {l : List Accessor} (h : l.Pairwise fun a b => a.rank ≤ b.rank) :
    l = l.filter (fun a => a.rank = 0) ++ l.filter (fun a => a.rank = 1) ++
      l.filter fun a => a.rank = 2 := by
  have hlow := filter_rank_split 1 _ (h.filter fun a => a.rank < 2)
  rw [List.filter_filter, List.filter_filter] at hlow
  have hall := filter_rank_split 2 l h
  rw [← hlow] at hall
  have hrank (a : Accessor) : a.rank ≤ 2 := by cases a <;> simp
  have h0 : (fun a : Accessor => decide (a.rank < 1) && decide (a.rank < 2)) =
      fun a => decide (a.rank = 0) := by
    funext a
    rw [← Bool.decide_and, decide_eq_decide]
    omega
  have h1 : (fun a : Accessor => decide (1 ≤ a.rank) && decide (a.rank < 2)) =
      fun a => decide (a.rank = 1) := by
    funext a
    rw [← Bool.decide_and, decide_eq_decide]
    omega
  have h2 : (fun a : Accessor => decide (2 ≤ a.rank)) = fun a => decide (a.rank = 2) := by
    funext a
    have := hrank a
    rw [decide_eq_decide]
    omega
  rw [h0, h1, h2] at hall
  exact hall.symm

/-! ## The kinds of an entity's methods -/

/-- The methods of one kind, given which methods are of the kind and what they become. -/
theorem filter_kind {k : Nat} {isKind : MethodDeclaration → Bool} {f : MethodDeclaration → Accessor}
    (h : ∀ m, m.accessor?.filter (fun a => a.rank = k) = if isKind m then some (f m) else none)
    (ms : List MethodDeclaration) :
    (ms.filterMap MethodDeclaration.accessor?).filter (fun a => a.rank = k) =
      (ms.filter isKind).map f := by
  rw [List.filter_filterMap, ← List.filterMap_eq_map', List.filterMap_filter, funext h]

theorem filter_fields (ms : List MethodDeclaration) :
    (ms.filterMap MethodDeclaration.accessor?).filter (fun a => a.rank = 0) = [] := by
  refine List.filter_eq_nil_iff.2 fun a ha => ?_
  obtain ⟨m, -, hm⟩ := List.mem_filterMap.1 ha
  rw [MethodDeclaration.accessor?_eq] at hm
  split at hm
  · cases hm
    simp
  · split at hm
    · cases hm
      simp
    · cases hm

theorem filter_setters (ms : List MethodDeclaration) :
    (ms.filterMap MethodDeclaration.accessor?).filter (fun a => a.rank = 1) =
      (ms.filter MethodDeclaration.isSetter).map .setter := by
  refine filter_kind (fun m => ?_) ms
  rw [MethodDeclaration.accessor?_eq]
  cases m.isSetter
  · cases m.isMutator <;> rfl
  · rfl

theorem filter_mutators (ms : List MethodDeclaration) :
    (ms.filterMap MethodDeclaration.accessor?).filter (fun a => a.rank = 2) =
      (ms.filter MethodDeclaration.isMutator).map .mutator := by
  refine filter_kind (fun m => ?_) ms
  rw [MethodDeclaration.accessor?_eq]
  cases hs : m.isSetter with
  | true =>
    rw [MethodDeclaration.isMutator_eq_false_of_isSetter hs]
    rfl
  | false => cases m.isMutator <;> rfl

end Accessor

/-- The accessors of an entity by kind: its fields, then its setters, then its
mutators, those of one kind in declaration order. -/
def Entity.accessorsByKind (e : Entity) : List Accessor :=
  (e.properties.filter PropertyDeclaration.isOpen).map .field ++
  (e.methods.filter MethodDeclaration.isSetter).map .setter ++
  (e.methods.filter MethodDeclaration.isMutator).map .mutator

theorem Entity.mem_accessorsByKind_field {e : Entity} {p : PropertyDeclaration} :
    .field p ∈ e.accessorsByKind ↔ p ∈ e.properties ∧ p.isOpen = true := by
  simp [accessorsByKind]

theorem Entity.mem_accessorsByKind_setter {e : Entity} {m : MethodDeclaration} :
    .setter m ∈ e.accessorsByKind ↔ m ∈ e.methods ∧ m.isSetter = true := by
  simp [accessorsByKind]

theorem Entity.mem_accessorsByKind_mutator {e : Entity} {m : MethodDeclaration} :
    .mutator m ∈ e.accessorsByKind ↔ m ∈ e.methods ∧ m.isMutator = true := by
  simp [accessorsByKind]

/-- Sorting the members by kind puts the three kinds one after the other. -/
theorem Entity.accessors_eq (e : Entity) : e.accessors = e.accessorsByKind := by
  have hsorted : e.accessors.Pairwise fun a b => a.rank ≤ b.rank := by
    have h : e.accessors.Pairwise fun a b => decide (a.rank ≤ b.rank) = true :=
      List.pairwise_mergeSort Accessor.rank_trans Accessor.rank_total _
    exact h.imp fun h => by simpa using h
  have hfield (k : Nat) (h : k ≠ 0) :
      ((e.properties.filter PropertyDeclaration.isOpen).map Accessor.field).filter
        (fun a => a.rank = k) = [] := by
    refine List.filter_eq_nil_iff.2 fun a ha => ?_
    obtain ⟨p, -, rfl⟩ := List.mem_map.1 ha
    simp [h.symm]
  have hfields : ((e.properties.filter PropertyDeclaration.isOpen).map Accessor.field).filter
      (fun a => a.rank = 0) = (e.properties.filter PropertyDeclaration.isOpen).map .field := by
    refine List.filter_eq_self.2 fun a ha => ?_
    obtain ⟨p, -, rfl⟩ := List.mem_map.1 ha
    rfl
  calc e.accessors
      = e.accessors.filter (fun a => a.rank = 0) ++ e.accessors.filter (fun a => a.rank = 1) ++
          e.accessors.filter (fun a => a.rank = 2) := Accessor.eq_filter_rank hsorted
    _ = e.accessorsByKind := by
        rw [accessors, Accessor.filter_rank_mergeSort, Accessor.filter_rank_mergeSort,
          Accessor.filter_rank_mergeSort, List.filter_append, List.filter_append,
          List.filter_append, hfields, hfield 1 (by decide), hfield 2 (by decide),
          Accessor.filter_fields, Accessor.filter_setters, Accessor.filter_mutators,
          List.append_nil, List.nil_append, List.nil_append, accessorsByKind]

end BuilderForge
