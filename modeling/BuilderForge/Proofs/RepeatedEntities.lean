import BuilderForge.Proofs.FirstViolation
import BuilderForge.Proofs.QuotedNames
import BuilderForge.Proofs.ShortenedLines
/-
  Where an entity that is declared again is labelled.

  Entities are the same class if their qualified names differ in the case of A
  to Z at most (`Manifest.Repeats`). Reported is the first one that repeats
  another, and there is one only that it repeats (`exists_first_repetition`). Both
  labels of the report are put where the name is found as this entity spells it
  (`spells_of_mem_attach`). So the label for the repetition stands on the name of
  the repetition, and the one for the first declaration stands on that of the
  first declaration only if both are spelled alike (`labels_repetition_iff`); with
  another spelling it stands on the repetition itself (`not_labels_first_respelled`).
-/

namespace BuilderForge

open Findings (Place IsFirst)
open Php (DoublesSeparator)

namespace Label

/-! ## What a label stands on -/

/-- The text with one backslash for each two that stand together. -/
def undoubled : Text → Text
  | [] => []
  | [c] => [c]
  | c :: d :: t => if c = '\\' ∧ d = '\\' then c :: undoubled t else c :: undoubled (d :: t)

theorem undoubled_cons {c : Char} (hc : c ≠ '\\') (t : Text) : undoubled (c :: t) = c :: undoubled t := by
  cases t with
  | nil => rfl
  | cons d t => rw [undoubled, if_neg fun h => hc h.1]

theorem Doubles.undoubled_eq {t inner : Text} (h : Doubles t inner) : undoubled inner = t := by
  induction h with
  | nil => rfl
  | backslash _ ih => rw [undoubled, if_pos ⟨rfl, rfl⟩, ih]
  | other hc _ ih => rw [undoubled_cons hc, ih]

theorem undoubled_eq_self {t : Text} (h : ¬ DoublesSeparator t) : undoubled t = t := by
  fun_induction undoubled t with
  | case1 => rfl
  | case2 c => rfl
  | case3 c d t hboth ih =>
    obtain ⟨rfl, rfl⟩ := hboth
    exact absurd (List.prefix_append ['\\', '\\'] t).isInfix h
  | case4 c d t hboth ih =>
    rw [ih fun hdouble => h (hdouble.trans (List.suffix_cons c (d :: t)).isInfix)]

theorem IsQuoting.undoubled_eq {name inner : Text} {quote : Char} (h : IsQuoting name quote inner)
    (hname : ¬ DoublesSeparator name) : undoubled inner = name := by
  cases h with
  | escaped hdoubles => exact hdoubles.undoubled_eq
  | _ => exact undoubled_eq_self hname

end Label

theorem Span.IsQuoted.exists_reads {s : Span} {name source : Text} (h : s.IsQuoted name source) :
    ∃ quote inner, Label.IsQuoting name quote inner ∧ s.Reads source inner := by
  obtain ⟨quote, inner, hquoting, hlength, before, after, rfl, hoffset⟩ := isQuoted_iff.1 h
  refine ⟨quote, inner, hquoting, ⟨before ++ [quote], quote :: after, by simp, ?_⟩, hlength.symm⟩
  rw [Text.byteSize_append, hoffset]
  exact congrArg (Text.byteSize before + ·) hquoting.utf8Size

/-- Whether a label stands on a text, two backslashes counting as one. -/
def Label.Spells (l : Label) (source t : Text) : Prop :=
  ∃ inner, l.span.Reads source inner ∧ Label.undoubled inner = t

/-- A label stands on one text. -/
theorem Label.Spells.eq {l : Label} {source t t' : Text} (h : l.Spells source t) (h' : l.Spells source t') :
    t = t' := by
  obtain ⟨inner, hreads, rfl⟩ := h
  obtain ⟨inner', hreads', rfl⟩ := h'
  rw [hreads.eq hreads']

namespace Label

variable {texts : List Text} {name source : Text}

theorem spells_of_mem_attach {l : Label} (hname : ¬ DoublesSeparator name)
    (h : l ∈ attach texts name source) : l.Spells source name := by
  have hspan := List.mem_map_of_mem (f := span) h
  rw [map_span_attach] at hspan
  obtain ⟨quote, inner, hquoting, hreads⟩ :=
    ((pointAt_places name source).quoted _ (List.mem_of_mem_take hspan)).exists_reads
  exact ⟨inner, hreads, hquoting.undoubled_eq hname⟩

/-- Where there is a label there is the first one. -/
theorem exists_first_of_attach {first : Text} (h : attach (first :: texts) name source ≠ []) :
    ∃ s, ⟨first, s⟩ ∈ attach (first :: texts) name source := by
  rw [attach] at h ⊢
  cases hplaces : places name source with
  | nil =>
    rw [hplaces] at h
    exact absurd List.zipWith_nil_right h
  | cons s rest => exact ⟨s, List.mem_cons_self⟩

/-- The first label stands on the name that was looked for, if there is one. -/
theorem first_spells_iff {first t : Text} (hname : ¬ DoublesSeparator name) :
    (∀ l ∈ attach (first :: texts) name source, l.text = first → l.Spells source t) ↔
      attach (first :: texts) name source = [] ∨ t = name := by
  constructor
  · intro h
    by_cases hnil : attach (first :: texts) name source = []
    · exact .inl hnil
    · obtain ⟨s, hs⟩ := exists_first_of_attach hnil
      exact .inr ((h _ hs rfl).eq (spells_of_mem_attach hname hs))
  · rintro (hnil | rfl) l hl _
    · rw [hnil] at hl
      cases hl
    · exact spells_of_mem_attach hname hl

end Label

/-! ## The first repetition -/

/-- Whether the entity `f` is declared once more as the entity `e`, further on. -/
structure Manifest.Repeats (m : Manifest) (i j : Nat) (f e : Entity) : Prop where
  lt : i < j
  earlier : m.entities[i]? = some f
  later : m.entities[j]? = some e
  same : Text.sameFolded f.qualifiedName e.qualifiedName

/-- Whether every other repetition is further on. -/
structure Manifest.IsFirstRepetition (m : Manifest) (i j : Nat) (f e : Entity) : Prop
    extends m.Repeats i j f e where
  first : ∀ i' j' f' e', m.Repeats i' j' f' e' → i' = i ∧ j' = j ∨ j < j'

/-- By itself no entity is a repetition. -/
theorem Entity.not_fails_repeatedEntity {e : Entity} {place : Place} {n : Text} :
    ¬ e.Fails place (.repeatedEntity n) := by
  intro h
  cases h with
  | name h => cases h
  | method _ h =>
    cases h with
    | parameter _ h => cases h

namespace Manifest

variable {m : Manifest}

/-- A repetition is found after all else at its entity. -/
theorem fails_repeatedEntity_iff {place : Place} {n : Text} : m.Fails place (.repeatedEntity n) ↔
    ∃ i j f e, m.Repeats i j f e ∧ place = [2, j, 1] ∧ n = e.qualifiedName := by
  constructor
  · intro h
    cases h with
    | marker _ h => cases h
    | knownType _ h => cases h
    | entity _ h => exact absurd h Entity.not_fails_repeatedEntity
    | @repeated j e f n he hf hclass hn =>
      have hsame : Text.sameFolded f.qualifiedName e.qualifiedName :=
        Text.sameFolded_iff.2 (Name.sameClass_iff.1 hclass)
      obtain ⟨i, hi⟩ := List.mem_iff_getElem?.1 hf
      rw [List.getElem?_take] at hi
      split at hi
      · rename_i hlt
        exact ⟨i, j, f, e, ⟨hlt, hi, he, hsame⟩, rfl, (Name.fullForm_iff.1 hn).symm⟩
      · cases hi
  · rintro ⟨i, j, f, e, hrepeats, rfl, rfl⟩
    have hmem : f ∈ m.entities.take j :=
      List.mem_iff_getElem?.2 ⟨i, by rw [List.getElem?_take, if_pos hrepeats.lt, hrepeats.earlier]⟩
    have hclass := Name.sameClass_iff.2 (Text.sameFolded_iff.1 hrepeats.same)
    exact .repeated hrepeats.later hmem hclass (Name.fullForm_iff.2 rfl)

/-- Of three entities of one name the second repeats the first. -/
theorem Repeats.of_common {i i' j : Nat} {f f' e e' : Entity} (h : m.Repeats i j f e)
    (h' : m.Repeats i' j f' e') (hlt : i' < i) : m.Repeats i' i f' f where
  lt := hlt
  earlier := h'.earlier
  later := h.earlier
  same := by
    obtain rfl : e = e' := Option.some.inj (h.later.symm.trans h'.later)
    have hfolded := (Text.sameFolded_iff.1 h'.same).trans (Text.sameFolded_iff.1 h.same).symm
    exact Text.sameFolded_iff.2 hfolded

/-- What is reported as a repetition is the first one, and of an entity with a
name that is in order. -/
theorem exists_first_repetition {n : Text} (h : IsFirst m.Fails (.repeatedEntity n)) :
    ∃ i j f e, m.IsFirstRepetition i j f e ∧ n = e.qualifiedName ∧ Name.isPath n := by
  obtain ⟨place, hfails, hnone⟩ := h
  obtain ⟨i, j, f, e, hrepeats, rfl, rfl⟩ := fails_repeatedEntity_iff.1 hfails
  have hleast {i' j' : Nat} {f' e' : Entity} (h : m.Repeats i' j' f' e') : ¬ j' < j := fun hlt =>
    hnone [2, j', 1] (by simp [List.cons_lt_cons_iff, hlt]) _ (fails_repeatedEntity_iff.2 ⟨i', j', f', e', h, rfl, rfl⟩)
  refine ⟨i, j, f, e, ⟨hrepeats, fun i' j' f' e' hother => ?_⟩, rfl, ?_⟩
  · rcases Nat.lt_trichotomy j j' with hlt | rfl | hgt
    · exact .inr hlt
    · refine .inl ⟨?_, rfl⟩
      -- else the entities `i` and `i'` would be a repetition themselves
      rcases Nat.lt_trichotomy i' i with hlt | heq | hgt
      · exact absurd hrepeats.lt (hleast (hrepeats.of_common hother hlt))
      · exact heq
      · exact absurd hother.lt (hleast (hother.of_common hrepeats hgt))
    · exact absurd hgt (hleast hother)
  · by_contra hpath
    have hmalformed : ∀ last, ¬ Name.NameForm e.name last := fun last hlast =>
      hpath (Name.exists_nameForm_iff.1 ⟨last, hlast⟩)
    exact hnone [2, j, 0, 0] (by simp [List.cons_lt_cons_iff]) _ (.entity hrepeats.later (.name (.malformed hmalformed)))

theorem parse_ne_invalid {format : Document.Format} {source : Text} {v : Violation} :
    parse format source ≠ .error (.invalid v) := by
  unfold parse
  split
  · cases ofDocument .json (Document.Json.document source) <;> exact nofun
  · split
    · exact nofun
    · rename_i d _
      cases ofDocument .toml d <;> exact nofun

/-- From a source that is rejected as not valid a manifest is read, and what is
reported is its first violation. -/
theorem isFirst_of_check {format : Document.Format} {source : Text} {v : Violation}
    (h : check format source = .error (.invalid v)) :
    ∃ m, parse format source = .ok m ∧ IsFirst m.Fails v := by
  cases hparse : parse format source with
  | ok m =>
    refine ⟨m, rfl, m.lists_violations.head?_eq_some_iff.1 ?_⟩
    rw [check_eq hparse] at h
    cases hv : m.violations.head? with
    | none =>
      rw [hv] at h
      cases h
    | some w =>
      rw [hv] at h
      cases h
      rfl
  | error cause =>
    have hcheck : check format source = .error cause := by
      rw [check, hparse]
      rfl
    rw [h] at hcheck
    cases hcheck
    exact absurd hparse parse_ne_invalid

end Manifest

/-- Every label of a report on an entity that is declared again stands on the name
as the first repetition spells it. So the label for the first declaration stands
on the name of this one exactly if the two are spelled alike, where there are
labels. -/
theorem labels_repetition_iff {format : Document.Format} {path source : Text} {r : Report} {n : Text}
    (h : Manifest.ofSource format path source = .error r) (hr : r.cause = .invalid (.repeatedEntity n)) :
    ∃ m, Manifest.parse format source = .ok m ∧ ∃ i j f e, m.IsFirstRepetition i j f e ∧
      n = e.qualifiedName ∧ (∀ l ∈ r.labels, l.Spells source e.qualifiedName) ∧
      ((∀ l ∈ r.labels, l.text = "first declared here".toList → l.Spells source f.qualifiedName) ↔
        r.labels = [] ∨ f.qualifiedName = e.qualifiedName) := by
  have hcheck := (Manifest.check_of_ofSource h).1
  rw [hr] at hcheck
  obtain ⟨m, hparse, hfirst⟩ := Manifest.isFirst_of_check hcheck
  obtain ⟨i, j, f, e, hrepeats, rfl, hpath⟩ := Manifest.exists_first_repetition hfirst
  have hname := Php.not_doublesSeparator_of_isPath hpath
  refine ⟨m, hparse, i, j, f, e, hrepeats, rfl, ?_⟩
  rw [Manifest.labels_of_invalid h hr]
  exact ⟨fun l hl => Label.spells_of_mem_attach hname hl, Label.first_spells_iff hname⟩

theorem labels_repetition_iff_twins : ∃ r m i j f e,
    Manifest.ofSource .toml "builders.toml".toList twinSource = .error r ∧
    r.cause = .invalid (.repeatedEntity "App\\Foo".toList) ∧
    Manifest.parse .toml twinSource = .ok m ∧ m.IsFirstRepetition i j f e ∧
    ((∀ l ∈ r.labels, l.text = "first declared here".toList → l.Spells twinSource f.qualifiedName) ↔
      r.labels = [] ∨ f.qualifiedName = e.qualifiedName) := by
  have hreport := ofSource_twinSource "builders.toml".toList
  obtain ⟨m, hparse, i, j, f, e, hrepeats, -, -, hlabels⟩ := labels_repetition_iff hreport rfl
  exact ⟨_, m, i, j, f, e, hreport, rfl, hparse, hrepeats, hlabels⟩

/-- A manifest that declares an entity twice, with its name spelled in two ways. -/
def respelledSource : Text :=
  "[[entities]]\nname = \"App\\\\foo\"\n\n[[entities]]\nname = \"App\\\\Foo\"\n".toList

theorem exists_repeats_respelledSource : ∃ m f e,
    Manifest.parse .toml respelledSource = .ok m ∧ m.Repeats 0 1 f e ∧
    f.qualifiedName = "App\\foo".toList ∧ e.qualifiedName = "App\\Foo".toList := by
  have hread : (Manifest.parse .toml respelledSource).toOption.map (fun m => m.entities.map Entity.name) =
      some ["App\\foo".toList, "App\\Foo".toList] := by decide +kernel
  cases hparse : Manifest.parse .toml respelledSource with
  | error cause =>
    rw [hparse] at hread
    cases hread
  | ok m =>
    rw [hparse] at hread
    obtain ⟨f, e, hentities, hf, he⟩ : ∃ f e, m.entities = [f, e] ∧
        f.name = "App\\foo".toList ∧ e.name = "App\\Foo".toList := by
      simpa [List.map_eq_cons_iff] using Option.some.inj hread
    have hfirst : f.qualifiedName = "App\\foo".toList := by
      rw [Entity.qualifiedName, hf]
      rfl
    have hagain : e.qualifiedName = "App\\Foo".toList := by
      rw [Entity.qualifiedName, he]
      rfl
    have hsame : Text.sameFolded f.qualifiedName e.qualifiedName := by
      rw [hfirst, hagain]
      decide
    exact ⟨m, f, e, rfl, ⟨Nat.zero_lt_one, by rw [hentities]; rfl, by rw [hentities]; rfl, hsame⟩,
      hfirst, hagain⟩

/-- The label for the first declaration stands on the second one. -/
theorem not_labels_first_respelled : ∃ m f e r l,
    Manifest.parse .toml respelledSource = .ok m ∧ m.Repeats 0 1 f e ∧
    Manifest.ofSource .toml "builders.toml".toList respelledSource = .error r ∧
    r.cause = .invalid (.repeatedEntity e.qualifiedName) ∧
    l ∈ r.labels ∧ l.text = "first declared here".toList ∧
    l.Spells respelledSource e.qualifiedName ∧ ¬ l.Spells respelledSource f.qualifiedName := by
  obtain ⟨m, f, e, hparse, hrepeats, hfirst, hagain⟩ := exists_repeats_respelledSource
  have hrejected : Manifest.rejection? .toml respelledSource =
      some (.repeatedEntity "App\\Foo".toList) := by decide +kernel
  have hreport := Manifest.ofSource_of_rejection hrejected "builders.toml".toList
  have hpoint := Label.pointAt_attach (Violation.repeatedEntity "App\\Foo".toList).labelTexts_ne_nil
    "App\\Foo".toList respelledSource
  have hquoted := hpoint.ne_nil_iff.2 ⟨by decide, _, _, .escaped (Label.doubles_iff.2 rfl), by decide +kernel⟩
  rw [ne_eq, List.map_eq_nil_iff] at hquoted
  obtain ⟨s, hs⟩ := Label.exists_first_of_attach hquoted
  have hspells := Label.spells_of_mem_attach (Php.not_doublesSeparator_of_isPath (by decide)) hs
  refine ⟨m, f, e, _, _, hparse, hrepeats, hreport, by rw [hagain], hs, rfl, ?_, fun hother => ?_⟩
  · rwa [hagain]
  · have hsame := hspells.eq hother
    rw [hfirst] at hsame
    exact absurd hsame (by decide)

end BuilderForge
