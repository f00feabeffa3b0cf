import BuilderForge.Proofs.LargerManifests
import BuilderForge.Proofs.RepeatedAlternatives
/-
  Looking an entity up by its name.

  The look-up takes the first entity whose name is the one asked for, and a name
  may be asked for in any case of A to Z and with a separator in front. The check
  of a manifest compares the names of entities in the same way, so in a valid
  manifest at most one entity has a name (`isOnly_of_isNamed`): the first one is the
  only one, and whatever way the name of an entity is written in
  (`IsSpelling.isNamed`), the look-up finds this entity and no earlier one
  (`finds_only_entity`).
-/

namespace BuilderForge

/-- Whether a text is the name of an entity, without regard to the case of A to Z
and to one separator in front. -/
def Entity.IsNamed (e : Entity) (name : Text) : Prop :=
  Text.sameFolded e.qualifiedName (Name.stripSeparator name)

instance (e : Entity) (name : Text) : Decidable (e.IsNamed name) :=
  inferInstanceAs (Decidable (_ = true))

/-- Whether a text is a name in some case of its letters, as it is or with a
separator in front. -/
def Name.IsSpelling (name t : Text) : Prop :=
  Text.sameFolded t name ∨ Text.sameFolded t (Name.separator :: name)

/-- Whether `e` is the entity at the place `i`, and the only one of its name. -/
structure Manifest.IsOnly (m : Manifest) (name : Text) (i : Nat) (e : Entity) : Prop where
  here : m.entities[i]? = some e
  named : e.IsNamed name
  only : ∀ j f, m.entities[j]? = some f → f.IsNamed name → j = i

/-- However the name of an entity is spelled, it is its name. -/
theorem Name.IsSpelling.isNamed {e : Entity} {t : Text} (he : Name.isPath e.qualifiedName)
    (h : Name.IsSpelling e.qualifiedName t) : e.IsNamed t := by
  rw [Entity.IsNamed, Text.sameFolded_iff, Name.fold_stripSeparator]
  rcases h with h | h
  · rw [Text.sameFolded_iff.1 h, Name.stripSeparator_of_isPath (by rwa [Name.isPath_fold])]
  · rw [Text.sameFolded_iff.1 h]
    rfl

/-- The name that an entity is declared with is a spelling of its name. -/
theorem Entity.isSpelling_name (e : Entity) : Name.IsSpelling e.qualifiedName e.name := by
  rw [Name.IsSpelling, Text.sameFolded_iff, Text.sameFolded_iff, qualifiedName]
  rcases Name.stripSeparator_cases e.name with h | h
  · exact .inl (congrArg Text.fold h.symm)
  · exact .inr (congrArg Text.fold h)

namespace Manifest

variable {m : Manifest} {name : Text}

/-- An entity that is found has the name. -/
theorem isNamed_of_entity? {e : Entity} (h : m.entity? name = some e) :
    e ∈ m.entities ∧ e.IsNamed name := by
  have hnamed := List.find?_some h
  exact ⟨List.mem_of_find?_eq_some h, hnamed⟩

theorem entity?_eq_none_iff : m.entity? name = none ↔ ∀ e ∈ m.entities, ¬ e.IsNamed name :=
  List.find?_eq_none

/-- An entity of a name is found if there is one. -/
theorem exists_entity? {e : Entity} (he : e ∈ m.entities) (h : e.IsNamed name) :
    ∃ f, m.entity? name = some f := by
  rw [← Option.ne_none_iff_exists', ne_eq, entity?_eq_none_iff]
  exact fun hnone => hnone e he h

/-- Two entities of a valid manifest that have one name stand in one place. -/
theorem eq_of_isNamed (hm : m.isValid) {i j : Nat} {e f : Entity} (hi : m.entities[i]? = some e)
    (hj : m.entities[j]? = some f) (he : e.IsNamed name) (hf : f.IsNamed name) : i = j := by
  have hfold : Text.fold e.qualifiedName = Text.fold f.qualifiedName :=
    (Text.sameFolded_iff.1 he).trans (Text.sameFolded_iff.1 hf).symm
  have heq : e = f :=
    eq_of_fold_qualifiedName hm (List.mem_of_getElem? hi) (List.mem_of_getElem? hj) hfold
  obtain ⟨hlt, -⟩ := List.getElem?_eq_some_iff.1 hi
  exact (List.getElem?_inj hlt (nodup_entities hm)).1 (by rw [hi, hj, heq])

/-- In a valid manifest an entity is the only one of its name. -/
theorem isOnly_of_isNamed (hm : m.isValid) {i : Nat} {e : Entity} (hi : m.entities[i]? = some e)
    (he : e.IsNamed name) : m.IsOnly name i e :=
  ⟨hi, he, fun _ _ hj hf => eq_of_isNamed hm hj hi hf he⟩

/-- The only entity of a name is found under it. -/
theorem IsOnly.entity?_eq {i : Nat} {e : Entity} (h : m.IsOnly name i e) : m.entity? name = some e := by
  obtain ⟨f, hfound⟩ := exists_entity? (List.mem_of_getElem? h.here) h.named
  obtain ⟨hf, hnamed⟩ := isNamed_of_entity? hfound
  obtain ⟨j, hj⟩ := List.mem_iff_getElem?.1 hf
  obtain rfl := h.only j f hj hnamed
  rw [hfound, ← hj, h.here]

/-- In a valid manifest the look-up finds the one entity that has the name, and
nothing if there is none. So every spelling of an entity's name, the declared one
among them, leads to this entity, in the one place that has the name. -/
theorem finds_only_entity (hm : m.isValid) :
    (∀ name e, m.entity? name = some e ↔ ∃ i, m.IsOnly name i e) ∧
    (∀ name, m.entity? name = none ↔ ∀ e ∈ m.entities, ¬ e.IsNamed name) ∧
    ∀ i e, m.entities[i]? = some e → Name.IsSpelling e.qualifiedName e.name ∧
      ∀ t, Name.IsSpelling e.qualifiedName t → m.entity? t = some e ∧ m.IsOnly t i e := by
  refine ⟨fun name e => ⟨fun h => ?_, fun ⟨i, h⟩ => h.entity?_eq⟩, fun name => entity?_eq_none_iff,
    fun i e hi => ⟨e.isSpelling_name, fun t ht => ?_⟩⟩
  · obtain ⟨he, hnamed⟩ := isNamed_of_entity? h
    obtain ⟨i, hi⟩ := List.mem_iff_getElem?.1 he
    exact ⟨i, isOnly_of_isNamed hm hi hnamed⟩
  · have hpath := (isWellFormed_builder hm (List.mem_of_getElem? hi)).entity
    have honly := isOnly_of_isNamed hm hi (ht.isNamed hpath)
    exact ⟨honly.entity?_eq, honly⟩

/-- A manifest in which one name is the end of another, and one is written in full. -/
def library : Manifest :=
  ⟨Settings.default, [⟨"Item".toList, [], []⟩, ⟨"\\Loan\\Item".toList, [], []⟩]⟩

theorem finds_only_entity_library : library.isValid ∧
    (∃ e, library.entity? "\\loan\\ITEM".toList = some e ∧ library.IsOnly "\\loan\\ITEM".toList 1 e) ∧
    library.entity? "\\\\Item".toList = none := by
  have hvalid : library.isValid := by decide
  obtain ⟨-, hnone, hspelled⟩ := finds_only_entity hvalid
  have hspelling : Name.IsSpelling "Loan\\Item".toList "\\loan\\ITEM".toList := .inr (by decide)
  exact ⟨hvalid, ⟨_, (hspelled 1 _ rfl).2 _ hspelling⟩, (hnone _).2 (by decide)⟩

end Manifest

end BuilderForge
