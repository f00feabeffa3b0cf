import BuilderForge.Proofs.Records
/-
  Reading and skipping.

  Skipping is less strict than reading: whatever data is read from a node, the
  node can also be skipped. So in a manifest that is read no part of the document is
  beyond repair, neither where data was taken nor where it was passed over
  (`Manifest.skip_of_ofDocument`). This holds for JSON; an array of TOML may be longer than
  the record that is read from it, and then nobody looks at the rest.
-/

namespace BuilderForge

open Document (Node Items Members Format RecordField Alternative)

/-- Whether only nodes that can be skipped are read. -/
def IsStrict {α : Type} (read : Node → Except Fault α) : Prop :=
  ∀ n a, read n = .ok a → n.skip = .ok ()

namespace IsStrict

variable {α β σ : Type}

theorem map {read : Node → Except Fault α} (h : IsStrict read) (f : α → β) :
    IsStrict fun n => (read n).map f := by
  intro n b hb
  obtain ⟨a, ha, -⟩ := map_eq_ok_iff.1 hb
  exact h n a ha

theorem update {read : Node → Except Fault α} (h : IsStrict read) (set : α → σ) :
    IsStrict fun n => do return set (← read n) := by
  intro n s hs
  obtain ⟨a, ha, -⟩ := bind_eq_ok_iff.1 hs
  exact h n a ha

theorem asText : IsStrict Node.asText := by
  intro n t h
  cases n with
  | text t => rfl
  | _ => cases h

theorem asBool : IsStrict Node.asBool := by
  intro n b h
  cases n with
  | scalar f s => rfl
  | _ => cases h

theorem asOption {read : Node → Except Fault α} (h : IsStrict read) : IsStrict (Node.asOption read) := by
  intro n o ho
  unfold Node.asOption at ho
  split at ho
  · rfl
  · cases ho
  · exact h.map some n o ho

/-! ## Lists and values -/

theorem skip_of_read {e : Document.Ending} (h : e.read = .ok ()) : e.skip = .ok () := by
  cases e with
  | closed => rfl
  | broken flaw => cases h

theorem skip_items {read : Node → Except Fault α} (h : IsStrict read) :
    ∀ {items : Items} {as : List α}, items.asList read = .ok as → items.skip = .ok ()
  | .ending e, as, hread => by
    obtain ⟨⟨⟩, he, -⟩ := map_eq_ok_iff.1 hread
    exact skip_of_read he
  | .item value after rest, as, hread => by
    obtain ⟨a, ha, hread⟩ := bind_eq_ok_iff.1 hread
    obtain ⟨as, has, -⟩ := bind_eq_ok_iff.1 hread
    rw [Items.skip, h value a ha]
    exact h.skip_items has

theorem asList {read : Node → Except Fault α} (h : IsStrict read) : IsStrict (Node.asList read) := by
  intro n as has
  cases n with
  | list f items => exact h.skip_items has
  | _ => cases has

mutual

theorem asValue : ∀ (n : Node) (v : Value), n.asValue = .ok v → n.skip = .ok ()
  | .scalar f s, v, h => rfl
  | .text t, v, h => rfl
  | .list f items, v, h => by
    obtain ⟨vs, hvs, -⟩ := bind_eq_ok_iff.1 h
    exact asValues items vs hvs
  | .table f members, v, h => by
    obtain ⟨entries, hentries, -⟩ := bind_eq_ok_iff.1 h
    exact asEntries members entries hentries
  | .misspelt f g, v, h => by cases h
  | .flawed f g, v, h => by cases h

theorem asValues : ∀ (items : Items) (vs : List Value), items.asValues = .ok vs → items.skip = .ok ()
  | .ending e, vs, h => by
    obtain ⟨⟨⟩, he, -⟩ := bind_eq_ok_iff.1 h
    exact skip_of_read he
  | .item value after rest, vs, h => by
    obtain ⟨v, hv, h⟩ := bind_eq_ok_iff.1 h
    obtain ⟨vs, hvs, -⟩ := bind_eq_ok_iff.1 h
    rw [Items.skip, asValue value v hv]
    exact asValues rest vs hvs

theorem asEntries : ∀ (members : Members) (entries : List (Text × Value)),
    members.asEntries = .ok entries → members.skip = .ok ()
  | .ending e, entries, h => by
    obtain ⟨⟨⟩, he, -⟩ := bind_eq_ok_iff.1 h
    exact skip_of_read he
  | .member (.flawed f) value after rest, entries, h => by cases h
  | .member (.text key) value after rest, entries, h => by
    obtain ⟨v, hv, h⟩ := bind_eq_ok_iff.1 h
    obtain ⟨entries, hentries, -⟩ := bind_eq_ok_iff.1 h
    rw [Members.skip, asValue value v hv]
    exact asEntries rest entries hentries

end

/-! ## Records and choices -/

section Records

variable {fields : List (RecordField σ)}

theorem skip_members : ∀ {members : Members} {seen : List Text} {s r : σ},
    (∀ f ∈ fields, ∀ s, IsStrict (f.read s)) → members.intoRecord fields seen s = .ok r →
      members.skip = .ok ()
  | .ending e, seen, s, r, hfields, h => by
    obtain ⟨⟨⟩, he, -⟩ := bind_eq_ok_iff.1 h
    exact skip_of_read he
  | .member (.flawed f) value after rest, seen, s, r, hfields, h => by cases h
  | .member (.text key) value after rest, seen, s, r, hfields, h => by
    rw [Members.intoRecord] at h
    rw [Members.skip]
    split at h
    · obtain ⟨⟨⟩, hvalue, h⟩ := bind_eq_ok_iff.1 h
      rw [hvalue]
      exact skip_members hfields h
    · rename_i f hf
      split at h
      · cases h
      · obtain ⟨s', hs', h⟩ := bind_eq_ok_iff.1 h
        rw [hfields f (List.mem_of_find?_eq_some hf) s value s' hs']
        exact skip_members hfields h

theorem skip_list : ∀ {fields : List (RecordField σ)} {items : Items} {after : Fault} {s r : σ},
    (∀ f ∈ fields, ∀ s, IsStrict (f.read s)) → items.intoRecord .json after s fields = .ok r →
      items.skip = .ok ()
  | [], .ending .closed, after, s, r, hfields, h => rfl
  | [], .ending (.broken flaw), after, s, r, hfields, h => by cases h
  | [], .item value next rest, after, s, r, hfields, h => by cases h
  | f :: fields, .ending e, after, s, r, hfields, h => by
    obtain ⟨⟨⟩, he, -⟩ := bind_eq_ok_iff.1 h
    exact skip_of_read he
  | f :: fields, .item value next rest, after, s, r, hfields, h => by
    obtain ⟨s', hs', h⟩ := bind_eq_ok_iff.1 h
    rw [Items.skip, hfields f List.mem_cons_self s value s' hs']
    exact skip_list (fun g hg => hfields g (List.mem_cons_of_mem _ hg)) h

/-- A record is strict if its fields are. -/
theorem asRecord (hfields : ∀ f ∈ fields, ∀ s, IsStrict (f.read s)) (blank : σ) :
    IsStrict (Node.asRecord .json fields blank) := by
  intro n r h
  cases n with
  | table f members => exact skip_members hfields h
  | list f items => exact skip_list hfields h
  | _ => cases h

end Records

/-- A choice is strict if its alternatives are. -/
theorem asChoice {alternatives : List (Alternative α)}
    (h : ∀ x ∈ alternatives, IsStrict (x.read .json)) : IsStrict (Node.asChoice .json alternatives) := by
  intro n a ha
  cases n with
  | text t => rfl
  | table f members =>
    obtain ⟨name, c, after, x, rfl, hx, hc⟩ := asChoice_table ha
    rw [Node.skip, Members.skip, h x (List.mem_of_find?_eq_some hx) c a hc]
    rfl
  | _ => cases ha

/-- An alternative without content is strict. -/
theorem inl (name : Text) (a : α) : IsStrict (Alternative.read .json ⟨name, .inl a⟩) := by
  intro n b hb
  cases n with
  | scalar f s => rfl
  | _ => cases hb

end IsStrict

/-! ## Manifests -/

theorem Visibility.isStrict : IsStrict (ofNode .json) := by
  refine .asChoice fun x hx => ?_
  simp only [List.mem_cons, List.not_mem_nil, or_false] at hx
  obtain rfl | rfl | rfl := hx <;> exact .inl _ _

theorem Style.isStrict : IsStrict (ofNode .json) := by
  refine .asChoice fun x hx => ?_
  simp only [List.mem_cons, List.not_mem_nil, or_false] at hx
  obtain rfl | rfl := hx <;> exact .inl _ _

theorem Default.isStrict : IsStrict (ofNode .json) := by
  refine .asChoice fun x hx => ?_
  simp only [List.mem_cons, List.not_mem_nil, or_false] at hx
  obtain rfl | rfl | rfl := hx
  · exact .inl _ _
  · exact IsStrict.map IsStrict.asValue _
  · exact IsStrict.map IsStrict.asText _

theorem TypeHint.isStrict : IsStrict ofNode := IsStrict.asText.map _

theorem ParameterDeclaration.isStrict : IsStrict (ofNode .json) := by
  refine .asRecord (fun f hf p => ?_) _
  simp only [fields, List.mem_cons, List.not_mem_nil, or_false] at hf
  obtain rfl | rfl | rfl | rfl := hf
  · exact IsStrict.asText.update _
  · exact TypeHint.isStrict.asOption.update _
  · exact IsStrict.asBool.update _
  · exact Default.isStrict.asOption.update _

theorem MethodDeclaration.isStrict : IsStrict (ofNode .json) := by
  refine .asRecord (fun f hf p => ?_) _
  simp only [fields, List.mem_cons, List.not_mem_nil, or_false] at hf
  obtain rfl | rfl | rfl | rfl := hf
  · exact IsStrict.asText.update _
  · exact Visibility.isStrict.update _
  · exact IsStrict.asBool.update _
  · exact ParameterDeclaration.isStrict.asList.update _

theorem PropertyDeclaration.isStrict : IsStrict (ofNode .json) := by
  refine .asRecord (fun f hf p => ?_) _
  simp only [fields, List.mem_cons, List.not_mem_nil, or_false] at hf
  obtain rfl | rfl | rfl | rfl | rfl := hf
  · exact IsStrict.asText.update _
  · exact Visibility.isStrict.update _
  · exact IsStrict.asBool.update _
  · exact TypeHint.isStrict.asOption.update _
  · exact IsStrict.asText.asOption.update _

theorem Entity.isStrict : IsStrict (ofNode .json) := by
  refine .asRecord (fun f hf p => ?_) _
  simp only [fields, List.mem_cons, List.not_mem_nil, or_false] at hf
  obtain rfl | rfl | rfl := hf
  · exact IsStrict.asText.update _
  · exact PropertyDeclaration.isStrict.asList.update _
  · exact MethodDeclaration.isStrict.asList.update _

theorem Settings.isStrict : IsStrict (ofNode .json) := by
  refine .asRecord (fun f hf p => ?_) _
  simp only [fields, List.mem_cons, List.not_mem_nil, or_false] at hf
  obtain rfl | rfl | rfl | rfl := hf
  · exact IsStrict.asText.asOption.update _
  · exact Style.isStrict.update _
  · exact IsStrict.asText.asOption.update _
  · exact IsStrict.asText.asList.update _

/-- A document that is read as a manifest can be skipped, and nothing follows it. -/
theorem Manifest.skip_of_ofDocument {d : Document} {m : Manifest} (h : ofDocument .json d = .ok m) :
    d.root.skip = .ok () ∧ d.trailing = none := by
  obtain ⟨m', hroot, h⟩ := bind_eq_ok_iff.1 h
  refine ⟨IsStrict.asRecord (fun f hf p => ?_) _ d.root m' hroot, ?_⟩
  · simp only [fields, List.mem_cons, List.not_mem_nil, or_false] at hf
    obtain rfl | rfl := hf
    · exact Settings.isStrict.update _
    · exact Entity.isStrict.asList.update _
  · cases htrailing : d.trailing with
    | none => rfl
    | some f =>
      rw [htrailing] at h
      cases h

end BuilderForge
