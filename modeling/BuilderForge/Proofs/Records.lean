import BuilderForge.Proofs.DataPaths
/-
  Where a default of a manifest stands in its document.

  A record is read field by field, from a table in the order of its members or
  from a list in the order of the fields. `Sets` says that one field of a record
  alone decides a component, and then the component is what was read at this
  field, in either form (`Sets.asRecord`). Step by step this leads from the root of a
  document to the value of a default (`Manifest.exists_defaultValue?`).
-/

namespace BuilderForge

open Document (Node Items Members Format RecordField Alternative)

namespace Content

variable {α : Type}

theorem lastAt_cons (k : Text) (o : Option Text) (a : α) (l : List (Option Text × α)) :
    lastAt k ((o, a) :: l) = (lastAt k l).or (if o = some k then some a else none) := by
  rw [lastAt, lastAt, List.reverse_cons, List.find?_append]
  cases l.reverse.find? fun m => decide (m.1 = some k) with
  | some x => rfl
  | none =>
    by_cases h : o = some k
    · simp [h]
    · simp [h]

end Content

/-! ## Records -/

/-- Whether the field of a name, at its place, is the one that decides a component of
a record, and what the component then has to do with the node of the field. -/
structure Sets {σ α : Type} (fields : List (RecordField σ)) (name : Text) (i : Nat) (get : σ → α)
    (P : Node → α → Prop) : Prop where
  here : ∃ f, fields[i]? = some f ∧ f.name = name ∧ ∀ s n s', f.read s n = .ok s' → P n (get s')
  others : ∀ g ∈ fields.eraseIdx i, g.name ≠ name ∧ ∀ s n s', g.read s n = .ok s' → get s' = get s

/-- A field that writes another component keeps this one. -/
theorem keeps_of_update {σ α β : Type} {read : Node → Except Fault β} {set : σ → β → σ} {get : σ → α}
    (hset : ∀ s b, get (set s b) = get s) :
    ∀ s n s', (do return set s (← read n)) = Except.ok s' → get s' = get s := by
  intro s n s' h
  obtain ⟨b, -, h⟩ := bind_eq_ok_iff.1 h
  cases h
  exact hset s b

/-- A field that writes a component gives it what was read. -/
theorem reads_of_update {σ α : Type} {read : Node → Except Fault α} {set : σ → α → σ} {get : σ → α}
    (hset : ∀ s a, get (set s a) = a) :
    ∀ s n s', (do return set s (← read n)) = Except.ok s' → read n = .ok (get s') := by
  intro s n s' h
  obtain ⟨a, ha, h⟩ := bind_eq_ok_iff.1 h
  cases h
  rw [ha, hset]

namespace Sets

variable {σ α : Type} {fields : List (RecordField σ)} {name : Text} {i : Nat} {get : σ → α}
  {P : Node → α → Prop}

/-- What is found under the name is the field. -/
theorem reads_of_find? (h : Sets fields name i get P) {f : RecordField σ}
    (hf : fields.find? (fun f => f.name = name) = some f) {s s' : σ} {n : Node}
    (hread : f.read s n = .ok s') : P n (get s') := by
  obtain ⟨g, hg, -, hreads⟩ := h.here
  obtain ⟨j, hj⟩ := List.mem_iff_getElem?.1 (List.mem_of_find?_eq_some hf)
  by_cases hji : j = i
  · rw [hji, hg] at hj
    cases hj
    exact hreads s n s' hread
  · have hname := List.find?_some hf
    exact absurd (decide_eq_true_iff.1 hname)
      (h.others f (List.mem_eraseIdx_iff_getElem?.2 ⟨j, hji, hj⟩)).1

/-- What is found under another name keeps the component. -/
theorem keeps_of_find? (h : Sets fields name i get P) {key : Text} (hkey : key ≠ name)
    {f : RecordField σ}
    (hf : fields.find? (fun f => f.name = key) = some f) {s s' : σ} {n : Node}
    (hread : f.read s n = .ok s') : get s' = get s := by
  obtain ⟨g, hg, hname, -⟩ := h.here
  obtain ⟨j, hj⟩ := List.mem_iff_getElem?.1 (List.mem_of_find?_eq_some hf)
  have hfound : f.name = key := by simpa using List.find?_some hf
  have hji : j ≠ i := by
    rintro rfl
    rw [hg] at hj
    cases hj
    exact hkey (hfound.symm.trans hname)
  exact (h.others f (List.mem_eraseIdx_iff_getElem?.2 ⟨j, hji, hj⟩)).2 s n s' hread

theorem exists_find? (h : Sets fields name i get P) :
    ∃ f, fields.find? (fun f => f.name = name) = some f := by
  obtain ⟨f, hf, hname, -⟩ := h.here
  rw [← Option.isSome_iff_exists, List.find?_isSome]
  exact ⟨f, List.mem_of_getElem? hf, decide_eq_true hname⟩

/-- Members read into a record leave the component as it is, or give it what was read
under the name, which comes once. -/
theorem intoRecord_table (h : Sets fields name i get P) :
    ∀ {members : Members} {seen : List Text} {s r : σ},
    members.intoRecord fields seen s = .ok r →
      Content.lastAt name members.pairs = none ∧ get r = get s ∨
      name ∉ seen ∧ ∃ n, Content.lastAt name members.pairs = some n ∧ P n (get r)
  | .ending e, seen, s, r, hread => by
    obtain ⟨-, -, hread⟩ := bind_eq_ok_iff.1 hread
    split at hread
    · cases hread
      exact .inl ⟨rfl, rfl⟩
    · cases hread
  | .member (.flawed f) value after rest, seen, s, r, hread => by cases hread
  | .member (.text key) value after rest, seen, s, r, hread => by
    rw [Members.intoRecord] at hread
    rw [Members.pairs, Content.lastAt_cons, Document.Key.text?]
    split at hread
    · -- a member that is no field is skipped
      rename_i hnone
      obtain ⟨-, -, hread⟩ := bind_eq_ok_iff.1 hread
      have hkey : ¬ some key = some name := by
        rintro ⟨⟩
        obtain ⟨f, hf⟩ := h.exists_find?
        rw [hnone] at hf
        cases hf
      rw [if_neg hkey, Option.or_none]
      exact h.intoRecord_table hread
    · rename_i f hf
      split at hread
      · cases hread
      · rename_i hseen
        obtain ⟨s', hs', hread⟩ := bind_eq_ok_iff.1 hread
        have hrest := h.intoRecord_table hread
        by_cases hkey : key = name
        · subst hkey
          refine .inr ⟨hseen, value, ?_⟩
          rcases hrest with ⟨hnone, hget⟩ | ⟨hfresh, -⟩
          · rw [hnone, if_pos rfl, hget]
            exact ⟨rfl, h.reads_of_find? hf hs'⟩
          · exact absurd List.mem_cons_self hfresh
        · rw [if_neg fun heq => hkey (Option.some.inj heq), Option.or_none,
            ← h.keeps_of_find? hkey hf hs']
          exact hrest.imp_right (And.imp_left fun hfresh hmem => hfresh (List.mem_cons_of_mem _ hmem))

/-- Items read into fields of other components leave the component as it is. -/
theorem keeps_list {format : Format} : ∀ {fields : List (RecordField σ)},
    (∀ g ∈ fields, ∀ s n s', g.read s n = .ok s' → get s' = get s) →
    ∀ {items : Items} {after : Fault} {s r : σ}, items.intoRecord format after s fields = .ok r →
      get r = get s
  | [], _, items, after, s, r, hread => by
    unfold Items.intoRecord at hread
    split at hread
    · cases hread
      rfl
    · split at hread
      · cases hread
      · cases hread
        rfl
    · rename_i hnil
      exact absurd rfl hnil
    · rename_i heq
      cases heq
  | f :: fields, hkeeps, .ending e, after, s, r, hread => by
    obtain ⟨-, -, hread⟩ := bind_eq_ok_iff.1 hread
    split at hread
    · cases hread
      rfl
    · cases hread
  | f :: fields, hkeeps, .item value next rest, after, s, r, hread => by
    obtain ⟨s', hs', hread⟩ := bind_eq_ok_iff.1 hread
    rw [keeps_list (fun g hg => hkeeps g (List.mem_cons_of_mem _ hg)) hread]
    exact hkeeps f List.mem_cons_self s value s' hs'

/-- Items read into fields give a component what was read at the place of its field. -/
theorem reads_list {format : Format} : ∀ {fields : List (RecordField σ)} {i : Nat} {f : RecordField σ},
    fields[i]? = some f → (∀ s n s', f.read s n = .ok s' → P n (get s')) →
    (∀ g ∈ fields.eraseIdx i, ∀ s n s', g.read s n = .ok s' → get s' = get s) →
    ∀ {items : Items} {after : Fault} {s r : σ}, items.intoRecord format after s fields = .ok r →
      ∀ {n : Node}, items.nodes[i]? = some n → P n (get r)
  | [], i, f, hf, _, _, items, after, s, r, _, n, _ => by cases hf
  | g :: fields, i, f, _, _, _, .ending e, after, s, r, _, n, hn => by cases hn
  | g :: fields, 0, f, hf, hreads, hkeeps, .item value next rest, after, s, r, hread, n, hn => by
    cases hf
    cases hn
    obtain ⟨s', hs', hread⟩ := bind_eq_ok_iff.1 hread
    rw [keeps_list hkeeps hread]
    exact hreads s value s' hs'
  | g :: fields, i + 1, f, hf, hreads, hkeeps, .item value next rest, after, s, r, hread, n, hn => by
    obtain ⟨s', -, hread⟩ := bind_eq_ok_iff.1 hread
    exact reads_list (i := i) hf hreads (fun g hg => hkeeps g (List.mem_cons_of_mem _ hg)) hread hn

/-- A component of a record is what was read at its field. -/
theorem asRecord {format : Format} (h : Sets fields name i get P) {n c : Node} {blank r : σ}
    (hread : n.asRecord format fields blank = .ok r)
    (hc : Content.step? (.field name i) n.content = some c) : P c (get r) := by
  cases n with
  | table f members =>
    rcases h.intoRecord_table hread with ⟨hnone, -⟩ | ⟨-, n, hn, hP⟩
    · have hc : Content.lastAt name members.pairs = some c := hc
      rw [hnone] at hc
      cases hc
    · have hc : Content.lastAt name members.pairs = some c := hc
      rw [hn] at hc
      cases hc
      exact hP
  | list f items =>
    obtain ⟨f, hf, -, hreads⟩ := h.here
    exact reads_list hf hreads (fun g hg => (h.others g hg).2) hread hc
  | _ => cases hc

end Sets

/-! ## Lists and choices -/

/-- An item of a list that is read was read by itself. -/
theorem exists_getElem?_of_asList {α : Type} {read : Node → Except Fault α} {n c : Node} {as : List α}
    {i : Nat} (hread : n.asList read = .ok as) (hc : Content.step? (.item i) n.content = some c) :
    ∃ a, as[i]? = some a ∧ read c = .ok a := by
  cases n with
  | list f items => exact Content.exists_getElem?_of_forall₂ (forall₂_asList hread) hc
  | _ => cases hc

/-- A choice that is written as a table has one key, that of the alternative. -/
theorem asChoice_table {α : Type} {format : Format} {alternatives : List (Alternative α)} {f : Fault}
    {members : Members} {a : α} (hread : (Node.table f members).asChoice format alternatives = .ok a) :
    ∃ name c after x, members = .member (.text name) c after (.ending .closed) ∧
      alternatives.find? (fun x => x.name = name) = some x ∧ x.read format c = .ok a := by
  cases members with
  | ending e =>
    cases e with
    | closed => cases hread
    | broken flaw => cases hread
  | member key value after rest =>
    cases key with
    | flawed f => cases hread
    | text name =>
      rw [Node.asChoice] at hread
      split at hread
      · cases hread
      · rename_i x hx
        obtain ⟨a', ha', hread⟩ := bind_eq_ok_iff.1 hread
        split at hread
        · cases hread
          exact ⟨name, value, after, x, rfl, hx, ha'⟩
        · cases hread

/-- The value of a default that is one. -/
def Default.value? : Default → Option Value
  | .value v => some v
  | _ => none

/-- A default that is written with the key of a value is this value. -/
theorem exists_value?_of_asOption {format : Format} {n c : Node} {d : Option Default}
    (hread : n.asOption (Default.ofNode format) = .ok d)
    (hc : Content.step? (.key "value".toList) n.content = some c) :
    ∃ v, d.bind Default.value? = some v ∧ c.asValue = .ok v := by
  cases n with
  | table f members =>
    obtain ⟨a, ha, rfl⟩ := map_eq_ok_iff.1 hread
    obtain ⟨name, c', after, x, rfl, hx, hread⟩ := asChoice_table ha
    have hc : Content.lastAt "value".toList [(some name, c')] = some c := hc
    rw [Content.lastAt_cons] at hc
    split at hc
    · rename_i hname
      cases hname
      cases hc
      cases hx
      obtain ⟨v, hv, rfl⟩ := map_eq_ok_iff.1 hread
      exact ⟨v, rfl, hv⟩
    · cases hc
  | _ => cases hc

/-! ## Manifests -/

section Manifests

variable {format : Format}

theorem ParameterDeclaration.sets_default :
    Sets (fields format) "default".toList 3 (·.default)
      fun n d => n.asOption (Default.ofNode format) = .ok d where
  here := ⟨_, rfl, rfl, reads_of_update fun _ _ => rfl⟩
  others := by
    intro g hg
    simp only [fields, List.eraseIdx, List.mem_cons, List.not_mem_nil, or_false] at hg
    obtain rfl | rfl | rfl := hg
    all_goals exact ⟨by simp, keeps_of_update fun _ _ => rfl⟩

theorem MethodDeclaration.sets_params :
    Sets (fields format) "params".toList 3 (·.params)
      fun n ps => n.asList (ParameterDeclaration.ofNode format) = .ok ps where
  here := ⟨_, rfl, rfl, reads_of_update fun _ _ => rfl⟩
  others := by
    intro g hg
    simp only [fields, List.eraseIdx, List.mem_cons, List.not_mem_nil, or_false] at hg
    obtain rfl | rfl | rfl := hg
    all_goals exact ⟨by simp, keeps_of_update fun _ _ => rfl⟩

theorem Entity.sets_methods :
    Sets (fields format) "methods".toList 2 (·.methods)
      fun n ms => n.asList (MethodDeclaration.ofNode format) = .ok ms where
  here := ⟨_, rfl, rfl, reads_of_update fun _ _ => rfl⟩
  others := by
    intro g hg
    simp only [fields, List.eraseIdx, List.mem_cons, List.not_mem_nil, or_false] at hg
    obtain rfl | rfl := hg
    all_goals exact ⟨by simp, keeps_of_update fun _ _ => rfl⟩

theorem Manifest.sets_entities :
    Sets (fields format) "entities".toList 1 (·.entities)
      fun n es => n.asList (Entity.ofNode format) = .ok es where
  here := ⟨_, rfl, rfl, reads_of_update fun _ _ => rfl⟩
  others := by
    intro g hg
    simp only [fields, List.eraseIdx, List.mem_cons, List.not_mem_nil, or_false] at hg
    subst hg
    exact ⟨by simp, keeps_of_update fun _ _ => rfl⟩

/-- The default value of a parameter of a method of an entity, each given by its place. -/
def Manifest.defaultValue? (m : Manifest) (i j k : Nat) : Option Value := do
  let e ← m.entities[i]?
  let f ← e.methods[j]?
  let p ← f.params[k]?
  p.default.bind Default.value?

/-- The way to the value of a default from the root of a document. -/
def Manifest.defaultWay (i j k : Nat) : List Step :=
  [.field "entities".toList 1, .item i, .field "methods".toList 2, .item j,
    .field "params".toList 3, .item k, .field "default".toList 3, .key "value".toList]

/-- The default of a parameter is the value that stands at its place in the document. -/
theorem Manifest.exists_defaultValue? {d : Document} {m : Manifest} (hread : ofDocument format d = .ok m)
    {i j k : Nat} {c : Node} (hc : d.root.at? (defaultWay i j k) = some c) :
    ∃ v, m.defaultValue? i j k = some v ∧ c.asValue = .ok v := by
  obtain ⟨m', hm', hread⟩ := bind_eq_ok_iff.1 hread
  obtain rfl : m' = m := by
    split at hread
    · cases hread
    · cases hread
      rfl
  simp only [Node.at?, defaultWay, Content.at?, Option.bind_eq_some_iff] at hc
  obtain ⟨es, hes, e, he, ms, hms, f, hf, ps, hps, p, hp, dn, hdn, vn, hvn, hc⟩ := hc
  cases hc
  obtain ⟨entity, hentity, he⟩ := exists_getElem?_of_asList (Manifest.sets_entities.asRecord hm' hes) he
  obtain ⟨method, hmethod, hf⟩ := exists_getElem?_of_asList (Entity.sets_methods.asRecord he hms) hf
  obtain ⟨param, hparam, hp⟩ :=
    exists_getElem?_of_asList (MethodDeclaration.sets_params.asRecord hf hps) hp
  obtain ⟨v, hv, hc⟩ := exists_value?_of_asOption (ParameterDeclaration.sets_default.asRecord hp hdn) hvn
  refine ⟨v, ?_, hc⟩
  simp only [defaultValue?, hentity, hmethod, hparam, Option.bind_eq_bind, Option.bind_some, hv]

end Manifests

end BuilderForge
