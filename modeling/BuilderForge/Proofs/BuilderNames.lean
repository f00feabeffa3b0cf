import BuilderForge.Proofs.Validity
/-
  Names put together from their parts, and the names of builders.

  Putting a namespace and a short name together and taking a name apart undo
  each other wherever the separators allow it. A name comes back unless it is a
  short name with a second separator in front (`qualify_scope_short_iff`); the
  parts come back unless the namespace begins with a separator or the short
  name has one (`split_qualify_iff`). The names of entities are paths, so a
  builder is called like its entity with one ending for all, and the ending is
  taken off again to find the entity: `splits_and_joins_names`.
-/

namespace BuilderForge

namespace Name

/-- A text is taken apart at the last separator, if none stands in front of it. -/
theorem split_append {scope short : Text} (hscope : scope.head? ≠ some separator)
    (hshort : separator ∉ short) : split (scope ++ separator :: short) = (scope, short) := by
  cases scope with
  | nil =>
    -- the one separator there is says that the name is complete
    simp [split, stripSeparator, cutLast_eq_none_iff.2 hshort]
  | cons c scope =>
    have hc : c ≠ separator := by simpa using hscope
    have hstrip : stripSeparator (c :: scope ++ separator :: short) =
        c :: scope ++ separator :: short := if_neg hc
    rw [split, hstrip, cutLast_append hshort, Option.getD_some]

theorem split_of_notMem {short : Text} (h : separator ∉ short) : split short = ([], short) := by
  have hstrip : stripSeparator short = short := by
    cases short with
    | nil => rfl
    | cons c t =>
      have hc : c ≠ separator := fun heq => h (by simp [heq])
      exact if_neg hc
  rw [split, hstrip, cutLast_eq_none_iff.2 h, Option.getD_none]

/-- A namespace and a short name are found again in their name exactly if the namespace has no
separator in front and the short name has none at all. -/
theorem split_qualify_iff {scope short : Text} : split (qualify scope short) = (scope, short) ↔
    scope.head? ≠ some separator ∧ separator ∉ short := by
  refine ⟨fun h => ?_, fun ⟨hscope, hshort⟩ => ?_⟩
  · have hparts := split_spec (qualify scope short)
    rw [Name.scope, Name.short, h] at hparts
    refine ⟨fun hhead => ?_, hparts.1⟩
    -- the separator in front is taken off, so what is left is shorter than the whole name
    obtain ⟨rest, rfl⟩ := List.head?_eq_some_iff.1 hhead
    have hlength : (stripSeparator (qualify (separator :: rest) short)).length =
        rest.length + (short.length + 1) := by
      simp [qualify, stripSeparator]
    rcases hparts.2 with ⟨hnil, _⟩ | hname
    · cases hnil
    · simp [hname] at hlength
  · by_cases hnil : scope = []
    · rw [hnil, qualify, if_pos rfl, split_of_notMem hshort]
    · rw [qualify, if_neg hnil, split_append hscope hshort]

end Name

/-- A name that is taken apart and put together again is the name, without the separator in front
of it, unless that leaves a separator and a short name. A namespace and a short name that are put
together are found again exactly if the namespace has no separator in front and the short name has
none at all. So the builder of every entity of a valid manifest is called like its entity with
`BuilderMethods` behind it, and entities with one builder name have one name. -/
theorem splits_and_joins_names :
    (∀ name, Name.qualify (Name.split name).1 (Name.split name).2 = Name.stripSeparator name ↔
      ¬ ∃ rest, Name.separator ∉ rest ∧ Name.stripSeparator name = Name.separator :: rest) ∧
    (∀ scope short, Name.split (Name.qualify scope short) = (scope, short) ↔
      scope.head? ≠ some Name.separator ∧ Name.separator ∉ short) ∧
    (∀ m : Manifest, m.isValid → ∀ b : Builder, b.entity ∈ m.entities →
      b.name = b.entity.qualifiedName ++ "BuilderMethods".toList) ∧
    ∀ m m' : Manifest, m.isValid → m'.isValid → ∀ b b' : Builder, b.entity ∈ m.entities →
      b'.entity ∈ m'.entities →
      (b.name = b'.name ↔ b.entity.qualifiedName = b'.entity.qualifiedName) := by
  have hname : ∀ m : Manifest, m.isValid → ∀ b : Builder, b.entity ∈ m.entities →
      b.name = b.entity.qualifiedName ++ "BuilderMethods".toList := fun m hm b hb =>
    (Manifest.isWellFormed_builder hm hb).name_eq
  refine ⟨fun name => Name.qualify_scope_short_iff, fun scope short => Name.split_qualify_iff,
    hname, fun m m' hm hm' b b' hb hb' => ?_⟩
  rw [hname m hm b hb, hname m' hm' b' hb']
  exact List.append_left_inj _

/-- A manifest whose entities have one short name; one of them is written in full. -/
def depot : Manifest :=
  ⟨Settings.default, [⟨"Kiste".toList, [], []⟩, ⟨"\\Lager\\Süd\\Kiste".toList, [], []⟩]⟩

theorem splits_and_joins_names_depot : depot.isValid ∧
    (∀ e ∈ depot.entities, (depot.builder e).name = e.qualifiedName ++ "BuilderMethods".toList) ∧
    (depot.builder ⟨"Kiste".toList, [], []⟩).name ≠
      (depot.builder ⟨"\\Lager\\Süd\\Kiste".toList, [], []⟩).name := by
  have hvalid : depot.isValid := by decide
  obtain ⟨_, _, hname, hsame⟩ := splits_and_joins_names
  refine ⟨hvalid, fun e he => hname depot hvalid (depot.builder e) he, fun heq => ?_⟩
  have hnames := (hsame depot depot hvalid hvalid (depot.builder _) (depot.builder _)
    List.mem_cons_self (List.mem_cons_of_mem _ List.mem_cons_self)).1 heq
  exact absurd hnames (by decide)

end BuilderForge
