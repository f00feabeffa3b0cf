import Mathlib.Data.List.Lex
import Mathlib.Data.List.Basic
/-
  Findings: what is found at places, in the order of the places.

  A place is a list of numbers, one for each level of what is gone through, and
  places are compared as words in a dictionary. `Lists` says that a list is
  what there is to find, sorted by place. Lists are put together as a traversal
  goes: `Steps` for what is checked one after the other, `under` for going down
  a level, `traverse` for the elements of a list, where what is found at an
  element may depend on those before it. The first element of a list is then
  what stands at the least place: `head?_eq_some_iff`.
-/

namespace BuilderForge.Findings

/-- The way to something through numbered levels. -/
abbrev Place := List Nat

variable {ν : Type}

/-- Whether a list holds what is found, ordered by the places. -/
def Lists (found : Place → ν → Prop) (vs : List ν) : Prop :=
  ∃ l : List (Place × ν), l.map Prod.snd = vs ∧ l.Pairwise (fun a b => a.1 < b.1) ∧
    ∀ place v, (place, v) ∈ l ↔ found place v

/-- Whether something is found, and nothing at any place before. -/
def IsFirst (found : Place → ν → Prop) (v : ν) : Prop :=
  ∃ place, found place v ∧ ∀ earlier < place, ∀ w, ¬ found earlier w

/-- What is found one level down, at the step `k` of the level. -/
def Under (k : Nat) (found : Place → ν → Prop) (place : Place) (v : ν) : Prop :=
  ∃ q, place = k :: q ∧ found q v

namespace Lists

variable {found other : Place → ν → Prop} {vs ws : List ν}

/-! ## What a list says -/

theorem head?_eq_some_iff (h : Lists found vs) {v : ν} : vs.head? = some v ↔ IsFirst found v := by
  obtain ⟨l, rfl, hsorted, hmem⟩ := h
  cases l with
  | nil =>
    have hnone (place : Place) (w : ν) : ¬ found place w := by simpa using (hmem place w).not.1
    simp [IsFirst, hnone]
  | cons first rest =>
    obtain ⟨hfirst, -⟩ := List.pairwise_cons.1 hsorted
    -- whatever is found stands in the list, and nothing there comes before the first
    have hleast {place : Place} {w : ν} (hw : found place w) :
        (place, w) = first ∨ first.1 < place :=
      (List.mem_cons.1 ((hmem place w).2 hw)).imp_right (hfirst (place, w))
    rw [List.map_cons, List.head?_cons, Option.some_inj]
    constructor
    · rintro rfl
      refine ⟨first.1, (hmem first.1 first.2).1 List.mem_cons_self, fun earlier hlt w hw => ?_⟩
      rcases hleast hw with rfl | hgt
      · exact lt_irrefl _ hlt
      · exact lt_asymm hlt hgt
    · rintro ⟨place, hv, hnone⟩
      rcases hleast hv with rfl | hlt
      · rfl
      · exact absurd ((hmem first.1 first.2).1 List.mem_cons_self) (hnone first.1 hlt first.2)

theorem congr (h : Lists found vs) (heq : ∀ place v, found place v ↔ other place v) :
    Lists other vs := by
  obtain ⟨l, hvs, hsorted, hmem⟩ := h
  exact ⟨l, hvs, hsorted, fun place v => (hmem place v).trans (heq place v)⟩

/-! ## Putting lists together -/

theorem nil (h : ∀ place v, ¬ found place v) : Lists found [] :=
  ⟨[], rfl, List.Pairwise.nil, fun place v => by simpa using h place v⟩

/-- A check that finds one thing. -/
theorem single {R : ν → Prop} {v : ν} (h : ∀ w, R w ↔ w = v) :
    Lists (fun place w => place = [] ∧ R w) [v] := by
  refine ⟨[([], v)], rfl, List.pairwise_singleton _ _, fun place w => ?_⟩
  rw [List.mem_singleton, Prod.mk.injEq]
  exact and_congr_right fun _ => (h w).symm

/-- A check that finds nothing. -/
theorem none {R : ν → Prop} (h : ∀ w, ¬ R w) : Lists (fun place w => place = [] ∧ R w) [] :=
  nil fun _ w hw => h w hw.2

theorem append (hv : Lists found vs) (hw : Lists other ws)
    (hlt : ∀ p v q w, found p v → other q w → p < q) :
    Lists (fun place v => found place v ∨ other place v) (vs ++ ws) := by
  obtain ⟨l, rfl, hl, hmem⟩ := hv
  obtain ⟨k, rfl, hk, hmem'⟩ := hw
  refine ⟨l ++ k, List.map_append, List.pairwise_append.2 ⟨hl, hk, fun a ha b hb => ?_⟩, fun place v => ?_⟩
  · exact hlt a.1 a.2 b.1 b.2 ((hmem a.1 a.2).1 ha) ((hmem' b.1 b.2).1 hb)
  · rw [List.mem_append, hmem, hmem']

/-- Places may be renamed if their order is kept. -/
theorem map {f : Place → Place} (hf : ∀ p q, p < q → f p < f q) (h : Lists found vs) :
    Lists (fun place v => ∃ q, place = f q ∧ found q v) vs := by
  obtain ⟨l, rfl, hl, hmem⟩ := h
  refine ⟨l.map fun a => (f a.1, a.2), ?_, List.pairwise_map.2 (hl.imp fun h => hf _ _ h), fun place v => ?_⟩
  · rw [List.map_map]
    rfl
  · simp only [List.mem_map, Prod.exists, Prod.mk.injEq]
    constructor
    · rintro ⟨q, w, hq, rfl, rfl⟩
      exact ⟨q, rfl, (hmem q w).1 hq⟩
    · rintro ⟨q, rfl, hq⟩
      exact ⟨q, v, (hmem q v).2 hq, rfl, rfl⟩

theorem under (k : Nat) (h : Lists found vs) : Lists (Under k found) vs :=
  h.map fun _ _ hlt => List.cons_lt_cons_iff.2 (.inr ⟨rfl, hlt⟩)

/-! ## Going through a list -/

/-- What is found at the elements of a list, under their numbers; `seen` holds
the keys of the elements before, the nearest first. -/
def Elementwise {α β : Type} (key : α → β) (at? : List β → α → Place → ν → Prop) (seen : List β)
    (l : List α) (place : Place) (v : ν) : Prop :=
  ∃ i a q, place = i :: q ∧ l[i]? = some a ∧ at? (((l.take i).map key).reverse ++ seen) a q v

theorem elementwise_cons {α β : Type} {key : α → β} {at? : List β → α → Place → ν → Prop}
    {seen : List β} {a : α} {l : List α} {place : Place} {v : ν} :
    Elementwise key at? seen (a :: l) place v ↔ Under 0 (at? seen a) place v ∨
      ∃ i q, place = (i + 1) :: q ∧ Elementwise key at? (key a :: seen) l (i :: q) v := by
  constructor
  · rintro ⟨i, b, q, rfl, hb, hv⟩
    cases i with
    | zero =>
      cases hb
      exact .inl ⟨q, rfl, hv⟩
    | succ i =>
      refine .inr ⟨i, q, rfl, i, b, q, rfl, hb, ?_⟩
      simpa using hv
  · rintro (⟨q, rfl, hv⟩ | ⟨i, q, rfl, j, b, r, hq, hb, hv⟩)
    · exact ⟨0, a, q, rfl, rfl, hv⟩
    · cases hq
      refine ⟨i + 1, b, q, rfl, hb, ?_⟩
      simpa using hv

/-- A function that goes through a list element by element, and remembers the
keys of those before, lists what is found at the elements. -/
theorem traverse {α β : Type} (key : α → β) {at? : List β → α → Place → ν → Prop}
    {one : List β → α → List ν} (all : List β → List α → List ν) (hnil : ∀ seen, all seen [] = [])
    (hcons : ∀ seen a l, all seen (a :: l) = one seen a ++ all (key a :: seen) l)
    (hone : ∀ seen a, Lists (at? seen a) (one seen a)) (seen : List β) (l : List α) :
    Lists (Elementwise key at? seen l) (all seen l) := by
  induction l generalizing seen with
  | nil =>
    rw [hnil]
    exact nil fun _ _ ⟨_, _, _, _, h, _⟩ => by simp at h
  | cons a l ih =>
    -- the numbers of the elements after the first grow by one
    have hrest : Lists (fun place v => ∃ i q, place = (i + 1) :: q ∧
        Elementwise key at? (key a :: seen) l (i :: q) v) (all (key a :: seen) l) := by
      refine ((ih (key a :: seen)).map (f := fun p => p.modifyHead (· + 1)) ?_).congr ?_
      · intro p q hlt
        cases p <;> cases q <;> simp_all [List.cons_lt_cons_iff]
      · intro place v
        constructor
        · rintro ⟨q, rfl, i, b, r, rfl, hb⟩
          exact ⟨i, r, rfl, i, b, r, rfl, hb⟩
        · rintro ⟨i, q, rfl, h⟩
          exact ⟨i :: q, rfl, h⟩
    rw [hcons]
    refine (((hone seen a).under 0).append hrest ?_).congr fun place v => elementwise_cons.symm
    rintro p v q w ⟨p, rfl, -⟩ ⟨i, q, rfl, -⟩
    exact List.cons_lt_cons_iff.2 (.inl (Nat.succ_pos i))

/-- What a function finds at each element by itself. -/
theorem flatMap {α : Type} {at? : α → Place → ν → Prop} {one : α → List ν}
    (hone : ∀ a, Lists (at? a) (one a)) (l : List α) :
    Lists (fun place v => ∃ i a q, place = i :: q ∧ l[i]? = some a ∧ at? a q v) (l.flatMap one) :=
  traverse (fun _ => ()) (fun _ l => l.flatMap one) (fun _ => rfl) (fun _ _ _ => List.flatMap_cons)
    (fun _ => hone) [] l

end Lists

/-! ## The steps of a level -/

/-- Whether a list holds what is found at the steps of a level before the step `k`. -/
structure Steps (k : Nat) (found : Place → ν → Prop) (vs : List ν) : Prop where
  lists : Lists found vs
  before : ∀ place v, found place v → ∃ i q, place = i :: q ∧ i < k

namespace Steps

variable {found other : Place → ν → Prop} {vs ws : List ν}

theorem first (h : Lists found vs) : Steps 1 (Under 0 found) vs :=
  ⟨h.under 0, fun _ _ ⟨q, hq, _⟩ => ⟨0, q, hq, Nat.one_pos⟩⟩

theorem next {k : Nat} (hv : Steps k found vs) (hw : Lists other ws) :
    Steps (k + 1) (fun place v => found place v ∨ Under k other place v) (vs ++ ws) where
  lists := by
    refine hv.lists.append (hw.under k) fun p v q w hp hq => ?_
    obtain ⟨i, p, rfl, hi⟩ := hv.before p v hp
    obtain ⟨q, rfl, -⟩ := hq
    exact List.cons_lt_cons_iff.2 (.inl hi)
  before := by
    rintro place v (h | ⟨q, rfl, -⟩)
    · obtain ⟨i, q, rfl, hi⟩ := hv.before place v h
      exact ⟨i, q, rfl, Nat.lt_succ_of_lt hi⟩
    · exact ⟨k, q, rfl, Nat.lt_succ_self k⟩

end Steps

end BuilderForge.Findings
