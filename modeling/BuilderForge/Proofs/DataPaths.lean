import BuilderForge.Manifest.Reading
import BuilderForge.Proofs.KeyedLists
import Mathlib.Data.List.Forall2
/-
  Ways into nested data.

  Data of any kind is something simple, a list or a table, and a step goes to an
  item of a list or to the value of a key. A key may come again in a table; the
  last one counts. Two kinds of data correspond if their parts do
  (`Matches`), and what a way leads to in one then has its counterpart in the
  other (`exists_at?_of_matches`). So a value that is read from a node corresponds to it:
  along every way the value is what was read there (`exists_at?_of_asValue`).
-/

namespace BuilderForge

open Document (Node Items Members)

/-- A computation in two steps succeeds if both steps do. -/
theorem bind_eq_ok_iff {ε α β : Type} {x : Except ε α} {f : α → Except ε β} {b : β} :
    (x >>= f) = .ok b ↔ ∃ a, x = .ok a ∧ f a = .ok b := by
  cases x with
  | ok a => simp [bind, Except.bind]
  | error e => simp [bind, Except.bind]

theorem map_eq_ok_iff {ε α β : Type} {x : Except ε α} {f : α → β} {b : β} :
    x.map f = .ok b ↔ ∃ a, x = .ok a ∧ f a = b := by
  cases x with
  | ok a => simp [Except.map]
  | error e => simp [Except.map]

theorem exists_eq_ok {ε α : Type} {x : Except ε α} (h : x.isOk) : ∃ a, x = .ok a := by
  cases x with
  | ok a => exact ⟨a, rfl⟩
  | error e => cases h

/-- What data consists of. A member has no key if its key cannot be read. -/
inductive Content (α : Type) where
  | simple
  | items (l : List α)
  | members (l : List (Option Text × α))

/-- A step into data: to an item, to the value of a key, or to the field of a
record, which is a table with the field's name or a list with the field in its place. -/
inductive Step where
  | item (i : Nat)
  | key (k : Text)
  | field (name : Text) (i : Nat)

namespace Content

variable {α β : Type}

/-- The value of the last member with a key. -/
def lastAt (k : Text) (l : List (Option Text × α)) : Option α :=
  (l.reverse.find? fun m => decide (m.1 = some k)).map Prod.snd

/-- Members of which every key can be read. -/
def keyed (l : List (Text × α)) : List (Option Text × α) := l.map fun e => (some e.1, e.2)

/-- What a step leads to. -/
def step? : Step → Content α → Option α
  | .item i, .items l => l[i]?
  | .key k, .members l => lastAt k l
  | .field _ i, .items l => l[i]?
  | .field name _, .members l => lastAt name l
  | _, _ => none

/-- What steps lead to, one after the other. -/
def at? (content : α → Content α) : List Step → α → Option α
  | [], a => some a
  | s :: way, a => (step? s (content a)).bind (at? content way)

theorem lastAt_keyed (k : Text) (l : List (Text × α)) :
    lastAt k (keyed l) = (l.reverse.find? fun e => decide (e.1 = k)).map Prod.snd := by
  rw [lastAt, keyed, ← List.map_reverse, List.find?_map, Option.map_map]
  simp only [Function.comp_def, Option.some.injEq]

theorem at?_append {content : α → Content α} {way way' : List Step} {a : α} :
    at? content (way ++ way') a = (at? content way a).bind (at? content way') := by
  induction way generalizing a with
  | nil => rfl
  | cons s way ih =>
    rw [List.cons_append, at?, at?, Option.bind_assoc]
    exact congrArg _ (funext fun b => ih)

/-! ## Corresponding data -/

/-- Whether the parts of data correspond: items in their order, and the values
of keys. -/
inductive Matches (R : α → β → Prop) : Content α → Content β → Prop where
  | simple {c : Content β} : Matches R .simple c
  | items {l : List α} {l' : List β} (h : List.Forall₂ R l l') : Matches R (.items l) (.items l')
  | members {l : List (Option Text × α)} {l' : List (Option Text × β)}
      (h : ∀ k a, lastAt k l = some a → ∃ b, lastAt k l' = some b ∧ R a b) :
      Matches R (.members l) (.members l')

theorem exists_getElem?_of_forall₂ {R : α → β → Prop} {l : List α} {l' : List β}
    (h : List.Forall₂ R l l') {i : Nat} {a : α} (ha : l[i]? = some a) :
    ∃ b, l'[i]? = some b ∧ R a b := by
  induction h generalizing i with
  | nil => cases ha
  | @cons x y l l' hxy h ih =>
    cases i with
    | zero =>
      cases ha
      exact ⟨y, rfl, hxy⟩
    | succ i => exact ih ha

theorem Matches.step? {R : α → β → Prop} {c : Content α} {c' : Content β} (h : Matches R c c')
    {s : Step} {a : α} (ha : step? s c = some a) : ∃ b, Content.step? s c' = some b ∧ R a b := by
  cases h with
  | simple => cases s <;> cases ha
  | items h =>
    cases s with
    | item i => exact exists_getElem?_of_forall₂ h ha
    | key k => cases ha
    | field name i => exact exists_getElem?_of_forall₂ h ha
  | members h =>
    cases s with
    | item i => cases ha
    | key k => exact h k a ha
    | field name i => exact h name a ha

/-- A way into data leads to the counterpart of what it leads to in corresponding data. -/
theorem exists_at?_of_matches {R : α → β → Prop} {content : α → Content α} {content' : β → Content β}
    (hmatches : ∀ a b, R a b → Matches R (content a) (content' b)) {way : List Step} {a a' : α} {b : β}
    (h : R a b) (ha : at? content way a = some a') : ∃ b', at? content' way b = some b' ∧ R a' b' := by
  induction way generalizing a b with
  | nil =>
    cases ha
    exact ⟨b, rfl, h⟩
  | cons s way ih =>
    obtain ⟨x, hx, hrest⟩ := Option.bind_eq_some_iff.1 ha
    obtain ⟨y, hy, hxy⟩ := (hmatches a b h).step? hx
    obtain ⟨b', hb', hrel⟩ := ih hxy hrest
    exact ⟨b', by rw [at?, hy]; exact hb', hrel⟩

/-- The last members of corresponding lists correspond. -/
theorem exists_lastAt_of_forall₂ {R : α → β → Prop} {l : List (Option Text × α)}
    {l' : List (Option Text × β)} (h : List.Forall₂ (fun m m' => m.1 = m'.1 ∧ R m.2 m'.2) l l')
    {k : Text} {a : α} (ha : lastAt k l = some a) : ∃ b, lastAt k l' = some b ∧ R a b := by
  have hreverse := List.rel_reverse h
  rw [lastAt, Option.map_eq_some_iff] at ha
  obtain ⟨m, hm, rfl⟩ := ha
  rw [lastAt]
  revert hm
  generalize l.reverse = r at hreverse
  generalize l'.reverse = r' at hreverse
  intro hm
  induction hreverse with
  | nil => cases hm
  | @cons x y r r' hxy h ih =>
    rw [List.find?_cons] at hm ⊢
    rw [← hxy.1]
    cases hkey : decide (x.1 = some k) with
    | true =>
      rw [hkey] at hm
      cases hm
      exact ⟨y.2, rfl, hxy.2⟩
    | false =>
      rw [hkey] at hm
      exact ih hm

/-- Corresponding lists of members have the same keys. -/
theorem map_fst_of_forall₂ {R : α → β → Prop} {l : List (Option Text × α)} {l' : List (Option Text × β)}
    (h : List.Forall₂ (fun m m' => m.1 = m'.1 ∧ R m.2 m'.2) l l') :
    l.map Prod.fst = l'.map Prod.fst := by
  induction h with
  | nil => rfl
  | cons hhead htail ih => rw [List.map_cons, List.map_cons, ih, hhead.1]

theorem map_fst_keyed (l : List (Text × α)) : (keyed l).map Prod.fst = (l.map Prod.fst).map some := by
  rw [keyed, List.map_map, List.map_map]
  rfl

end Content

/-! ## Nodes and values -/

/-- The items of a list, one after the other. -/
def Document.Items.nodes : Items → List Node
  | .ending _ => []
  | .item value _ rest => value :: rest.nodes

/-- The text of a key, if it can be read. -/
def Document.Key.text? : Document.Key → Option Text
  | .text t => some t
  | .flawed _ => none

/-- The members of a table, one after the other. -/
def Document.Members.pairs : Members → List (Option Text × Node)
  | .ending _ => []
  | .member key value _ rest => (key.text?, value) :: rest.pairs

/-- What a node consists of. -/
def Document.Node.content : Node → Content Node
  | .list _ items => .items items.nodes
  | .table _ members => .members members.pairs
  | _ => .simple

/-- What a value consists of. -/
def Value.content : Value → Content Value
  | .list items => .items items
  | .map entries => .members (Content.keyed entries)
  | _ => .simple

/-- What a way leads to in a node. -/
def Document.Node.at? (n : Node) (way : List Step) : Option Node := Content.at? Node.content way n

/-- What a way leads to in a value. -/
def Value.at? (v : Value) (way : List Step) : Option Value := Content.at? Value.content way v

/-- A map that is made of entries has each key once, where it first came, and
with the value that came last. -/
theorem Value.isKeyed_ofEntries (entries : List (Text × Value)) :
    ∃ es, ofEntries entries = .map es ∧ IsKeyed Prod.fst entries es := by
  have hput (e : Text × Value) (es : List (Text × Value)) :
      insertEntry e.1 e.2 es = putKeyed Prod.fst e es := by
    induction es with
    | nil => rfl
    | cons x es ih => rw [insertEntry, putKeyed, ih]
  have hfold : entries.foldl (fun es e => insertEntry e.1 e.2 es) [] =
      entries.foldl (fun es e => putKeyed Prod.fst e es) [] :=
    congrArg (fun f => entries.foldl f []) (funext fun es => funext fun e => hput e es)
  refine ⟨_, rfl, ?_⟩
  have hkeyed : IsKeyed Prod.fst ([] ++ entries) _ := isKeyed_foldl entries isKeyed_nil
  rwa [List.nil_append, ← hfold] at hkeyed

/-- In a map the value of a key is the one that came last. -/
theorem Value.lastAt_of_isKeyed {entries es : List (Text × Value)} (h : IsKeyed Prod.fst entries es)
    (k : Text) : Content.lastAt k (Content.keyed es) = Content.lastAt k (Content.keyed entries) := by
  rw [Content.lastAt_keyed, Content.lastAt_keyed]
  congr 1
  ext1 e
  rw [find?_reverse_eq_some_iff, find?_reverse_eq_some_iff]
  refine and_congr_right fun _ => ⟨fun he => h.last e he.mem, fun he => ?_⟩
  exact isLast_of_nodup h.nodup (h.mem he)

/-! ## Reading values -/

/-- The items of a list are read one by one. -/
theorem forall₂_asList {α : Type} {read : Node → Except Fault α} :
    ∀ {items : Items} {as : List α}, items.asList read = .ok as →
      List.Forall₂ (fun n a => read n = .ok a) items.nodes as
  | .ending e, as, h => by
    obtain ⟨-, -, rfl⟩ := map_eq_ok_iff.1 h
    exact .nil
  | .item value after rest, as, h => by
    obtain ⟨a, ha, h⟩ := bind_eq_ok_iff.1 h
    obtain ⟨as, has, h⟩ := bind_eq_ok_iff.1 h
    cases h
    exact .cons ha (forall₂_asList has)

theorem asValues_eq_asList : ∀ items : Items, items.asValues = items.asList Node.asValue
  | .ending e => by
    rw [Items.asValues, Items.asList]
    cases e.read <;> rfl
  | .item value after rest => by rw [Items.asValues, Items.asList, asValues_eq_asList rest]

theorem forall₂_asEntries : ∀ {members : Members} {entries : List (Text × Value)},
    members.asEntries = .ok entries →
    List.Forall₂ (fun m m' => m.1 = m'.1 ∧ m.2.asValue = .ok m'.2) members.pairs (Content.keyed entries)
  | .ending e, entries, h => by
    obtain ⟨-, -, h⟩ := bind_eq_ok_iff.1 h
    cases h
    exact .nil
  | .member (.flawed f) value after rest, entries, h => by cases h
  | .member (.text key) value after rest, entries, h => by
    obtain ⟨v, hv, h⟩ := bind_eq_ok_iff.1 h
    obtain ⟨entries, hentries, h⟩ := bind_eq_ok_iff.1 h
    cases h
    exact .cons ⟨rfl, hv⟩ (forall₂_asEntries hentries)

/-- The value of a list is the list of the values of its items. -/
theorem asValue_list {f : Fault} {items : Items} {v : Value} (h : (Node.list f items).asValue = .ok v) :
    ∃ vs, v = .list vs ∧ List.Forall₂ (fun n v => n.asValue = .ok v) items.nodes vs := by
  rw [Node.asValue] at h
  obtain ⟨vs, hvs, h⟩ := bind_eq_ok_iff.1 h
  cases h
  exact ⟨vs, rfl, forall₂_asList (asValues_eq_asList items ▸ hvs)⟩

/-- The value of a table is the map of the values of its members. -/
theorem asValue_table {f : Fault} {members : Members} {v : Value}
    (h : (Node.table f members).asValue = .ok v) :
    ∃ entries es, v = .map es ∧ IsKeyed Prod.fst entries es ∧
      List.Forall₂ (fun m m' => m.1 = m'.1 ∧ m.2.asValue = .ok m'.2) members.pairs
        (Content.keyed entries) := by
  rw [Node.asValue] at h
  obtain ⟨entries, hentries, h⟩ := bind_eq_ok_iff.1 h
  cases h
  obtain ⟨es, hes, hkeyed⟩ := Value.isKeyed_ofEntries entries
  exact ⟨entries, es, hes, hkeyed, forall₂_asEntries hentries⟩

/-- A value corresponds to the node that it was read from. -/
theorem matches_asValue {n : Node} {v : Value} (h : n.asValue = .ok v) :
    Content.Matches (fun n v => n.asValue = .ok v) n.content v.content := by
  cases n with
  | list f items =>
    obtain ⟨vs, rfl, hvs⟩ := asValue_list h
    exact .items hvs
  | table f members =>
    obtain ⟨entries, es, rfl, hkeyed, hentries⟩ := asValue_table h
    refine .members fun k a ha => ?_
    rw [Value.lastAt_of_isKeyed hkeyed]
    exact Content.exists_lastAt_of_forall₂ (R := fun n v => n.asValue = .ok v) hentries ha
  | scalar f s => exact .simple
  | text t => exact .simple
  | misspelt f g => exact .simple
  | flawed f g => exact .simple

/-- Along every way a value is what was read there. -/
theorem exists_at?_of_asValue {n n' : Node} {v : Value} {way : List Step} (h : n.asValue = .ok v)
    (hway : n.at? way = some n') : ∃ v', v.at? way = some v' ∧ n'.asValue = .ok v' :=
  Content.exists_at?_of_matches (fun _ _ => matches_asValue) h hway

end BuilderForge
