import BuilderForge.Proofs.JsonSources
import BuilderForge.Proofs.TomlTrees
import BuilderForge.Value.Literal
/-
  The order of the keys of a default.

  A map that is read from JSON has its keys in the order in which they are first
  written. The tables of TOML are sorted when they are read, so their keys
  ascend, and that is the order of writing only if the keys were written ascending
  (`Manifest.keeps_key_order_iff`). A value that TOML gives is the sorted form of
  what is written (`exists_asValue_inOrder`), and the two formats agree on one value
  exactly if all its maps are in order already.
-/

namespace BuilderForge

open Document (Node Items Members Format)
open Document.Json (Piece IsSource Shows Writes isQuoted_of_isPlain memberText boolText)
open Document.Toml (table? document?_eq)

/-! ## Sorted values -/

namespace Value

mutual

/-- The value with the keys of every map in order. -/
def sorted : Value → Value
  | .list items => .list (sortedItems items)
  | .map entries => .map ((sortedEntries entries).insertionSort (KeyLe Prod.fst))
  | v => v

/-- The items, each sorted. -/
def sortedItems : List Value → List Value
  | [] => []
  | v :: vs => v.sorted :: sortedItems vs

/-- The entries, the value of each sorted. -/
def sortedEntries : List (Text × Value) → List (Text × Value)
  | [] => []
  | (k, v) :: rest => (k, v.sorted) :: sortedEntries rest

end

mutual

/-- Whether in every map no key stands before a lesser one. -/
def isSorted : Value → Bool
  | .list items => itemsAreSorted items
  | .map entries => decide (entries.Pairwise (KeyLe Prod.fst)) && entriesAreSorted entries
  | _ => true

/-- Whether the items are sorted. -/
def itemsAreSorted : List Value → Bool
  | [] => true
  | v :: vs => v.isSorted && itemsAreSorted vs

/-- Whether the values of the entries are sorted. -/
def entriesAreSorted : List (Text × Value) → Bool
  | [] => true
  | (_, v) :: rest => v.isSorted && entriesAreSorted rest

end

theorem sortedEntries_eq_map (entries : List (Text × Value)) :
    sortedEntries entries = entries.map fun e => (e.1, e.2.sorted) := by
  induction entries with
  | nil => rfl
  | cons e rest ih => rw [sortedEntries, ih, List.map_cons]

theorem pairwise_sortedEntries (entries : List (Text × Value)) :
    (sortedEntries entries).Pairwise (KeyLe Prod.fst) ↔ entries.Pairwise (KeyLe Prod.fst) := by
  rw [sortedEntries_eq_map, List.pairwise_map]
  exact Iff.rfl

mutual

/-- Sorting changes nothing exactly if everything is sorted. -/
theorem sorted_eq_self_iff : ∀ v : Value, v.sorted = v ↔ v.isSorted
  | .null => by simp [sorted, isSorted]
  | .bool b => by simp [sorted, isSorted]
  | .int i => by simp [sorted, isSorted]
  | .float x => by simp [sorted, isSorted]
  | .string s => by simp [sorted, isSorted]
  | .list items => by
    rw [sorted, isSorted, Value.list.injEq]
    exact sortedItems_eq_self_iff items
  | .map entries => by
    rw [sorted, isSorted, Value.map.injEq, Bool.and_eq_true, decide_eq_true_eq,
      ← sortedEntries_eq_self_iff entries]
    constructor
    · intro h
      have hpairwise := List.pairwise_insertionSort (KeyLe Prod.fst) (sortedEntries entries)
      rw [h] at hpairwise
      rw [((pairwise_sortedEntries entries).2 hpairwise).insertionSort_eq] at h
      exact ⟨hpairwise, h⟩
    · rintro ⟨hpairwise, h⟩
      rw [h, hpairwise.insertionSort_eq]

theorem sortedItems_eq_self_iff : ∀ items : List Value, sortedItems items = items ↔ itemsAreSorted items
  | [] => by simp [sortedItems, itemsAreSorted]
  | v :: vs => by
    rw [sortedItems, itemsAreSorted, List.cons.injEq, Bool.and_eq_true, sorted_eq_self_iff v,
      sortedItems_eq_self_iff vs]

theorem sortedEntries_eq_self_iff : ∀ entries : List (Text × Value),
    sortedEntries entries = entries ↔ entriesAreSorted entries
  | [] => by simp [sortedEntries, entriesAreSorted]
  | (k, v) :: rest => by
    rw [sortedEntries, entriesAreSorted, List.cons.injEq, Prod.mk.injEq, Bool.and_eq_true,
      sorted_eq_self_iff v, sortedEntries_eq_self_iff rest, and_iff_right rfl]

end

/-- The literal of a map has the entries in their order. -/
theorem literal_map (entries : List (Text × Value)) :
    (Value.map entries).literal =
      '[' :: (Text.join [',', ' ']
        (entries.map fun e => keyLiteral e.1 ++ " => ".toList ++ e.2.literal) ++ [']']) := by
  have hentries : entryLiterals entries =
      entries.map fun e => keyLiteral e.1 ++ " => ".toList ++ e.2.literal := by
    induction entries with
    | nil => rfl
    | cons e rest ih => rw [entryLiterals, ih, List.map_cons]
  rw [literal, hentries]

end Value

/-! ## Written order -/

namespace Document.Toml

mutual

/-- The node of a value, with the members of every table in the order of writing. -/
def Tree.inOrder : Tree → Node
  | .text t => .text t
  | .atom a => a.toNode
  | .array items => .list .mismatched (items.inOrder (.ending .closed))
  | .table _ entries => .table .mismatched entries.inOrder
  | .tables earlier newest =>
    .list .mismatched
      (earlier.inOrder (.item (.table .mismatched newest.inOrder) .mismatched (.ending .closed)))

/-- The items of an array, before others. -/
def Forest.inOrder (more : Items) : Forest → Items
  | .nil => more
  | .cons t rest => .item t.inOrder .mismatched (rest.inOrder more)

/-- The members of a table in the order of writing. -/
def Entries.inOrder : Entries → Members
  | .nil => .ending .closed
  | .cons key value rest => .member (.text key) value.inOrder .mismatched rest.inOrder

end

/-- One more member is read into its place among the entries. -/
theorem asEntries_insertMember {key : Text} {value : Node} :
    ∀ {members : Members} {es : List (Text × Value)},
    (insertMember key value members).asEntries = .ok es →
    ∃ v es', value.asValue = .ok v ∧ members.asEntries = .ok es' ∧
      es = es'.orderedInsert (KeyLe Prod.fst) (key, v)
  | .ending e, es, h => by
    obtain ⟨v, hv, h⟩ := bind_eq_ok_iff.1 h
    obtain ⟨es', hes', h⟩ := bind_eq_ok_iff.1 h
    obtain ⟨u, hu, hes'⟩ := bind_eq_ok_iff.1 hes'
    cases hes'
    cases h
    exact ⟨v, [], hv, by rw [Members.asEntries, hu]; rfl, rfl⟩
  | .member (.flawed f) value' after rest, es, h => by
    obtain ⟨v, hv, h⟩ := bind_eq_ok_iff.1 h
    obtain ⟨es', hes', h⟩ := bind_eq_ok_iff.1 h
    cases hes'
  | .member (.text k) value' after rest, es, h => by
    rw [insertMember] at h
    split at h
    · rename_i hlt
      obtain ⟨v', hv', h⟩ := bind_eq_ok_iff.1 h
      obtain ⟨es', hes', h⟩ := bind_eq_ok_iff.1 h
      cases h
      obtain ⟨v, below, hv, hbelow, rfl⟩ := asEntries_insertMember hes'
      have hle : ¬ KeyLe Prod.fst (key, v) (k, v') := not_not_intro hlt
      refine ⟨v, (k, v') :: below, hv, ?_, ?_⟩
      · rw [Members.asEntries, hv', hbelow]
        rfl
      · rw [List.orderedInsert_cons, if_neg hle]
    · rename_i hlt
      obtain ⟨v, hv, h⟩ := bind_eq_ok_iff.1 h
      obtain ⟨es', hes', h⟩ := bind_eq_ok_iff.1 h
      cases h
      obtain ⟨v', -, hrest⟩ := bind_eq_ok_iff.1 hes'
      obtain ⟨below, -, hrest⟩ := bind_eq_ok_iff.1 hrest
      cases hrest
      have hle : KeyLe Prod.fst (key, v) (k, v') := hlt
      exact ⟨v, (k, v') :: below, hv, hes', by rw [List.orderedInsert_cons, if_pos hle]⟩

/-- The map of entries that are sorted first is the sorted map of the entries. -/
theorem ofEntries_sortedEntries (entries : List (Text × Value)) :
    Value.ofEntries ((Value.sortedEntries entries).insertionSort (KeyLe Prod.fst)) =
      (Value.ofEntries entries).sorted := by
  obtain ⟨es, hes, hkeyed⟩ := Value.isKeyed_ofEntries entries
  obtain ⟨table, htable, hsorted⟩ :=
    Value.isKeyed_ofEntries ((Value.sortedEntries entries).insertionSort (KeyLe Prod.fst))
  rw [Value.sortedEntries_eq_map] at hsorted
  rw [hes, htable, Value.sorted, Value.sortedEntries_eq_map,
    hkeyed.eq_insertionSort (f := fun e => (e.1, e.2.sorted)) (fun _ => rfl) hsorted]

/-- A value without quotes has no keys to sort; a date or time has one. -/
theorem Atom.sorted_eq_self (a : Atom) {v : Value} (h : a.toNode.asValue = .ok v) : v.sorted = v := by
  cases a with
  | integer i =>
    rw [Atom.toNode, Node.asValue] at h
    split at h
    · cases h
      rfl
    · cases h
  | valueless => cases h
  | _ =>
    cases h
    rfl

section Tables

variable {f : Fault} {members members' : Members}
  (hmembers : ∀ es, members.asEntries = .ok es →
    ∃ ws, members'.asEntries = .ok ws ∧ es = (Value.sortedEntries ws).insertionSort (KeyLe Prod.fst))
include hmembers

theorem exists_asValue_table {v : Value} (h : (Node.table f members).asValue = .ok v) :
    ∃ w, (Node.table f members').asValue = .ok w ∧ v = w.sorted := by
  obtain ⟨es, hes, h⟩ := bind_eq_ok_iff.1 h
  cases h
  obtain ⟨ws, hws, rfl⟩ := hmembers es hes
  exact ⟨.ofEntries ws, by rw [Node.asValue, hws]; rfl, ofEntries_sortedEntries ws⟩

theorem exists_asValues_table (vs : List Value)
    (h : (Items.item (.table f members) f (.ending .closed)).asValues = .ok vs) :
    ∃ ws, (Items.item (.table f members') f (.ending .closed)).asValues = .ok ws ∧
      vs = Value.sortedItems ws := by
  obtain ⟨v, hv, h⟩ := bind_eq_ok_iff.1 h
  obtain ⟨rest, hrest, h⟩ := bind_eq_ok_iff.1 h
  cases hrest
  cases h
  obtain ⟨w, hw, rfl⟩ := exists_asValue_table hmembers hv
  exact ⟨[w], by rw [Items.asValues, hw]; rfl, rfl⟩

end Tables

mutual

/-- A value that is read from TOML is the sorted form of what is written. -/
theorem exists_asValue_inOrder : ∀ {t : Tree} {v : Value}, t.toNode.asValue = .ok v →
    ∃ w, t.inOrder.asValue = .ok w ∧ v = w.sorted
  | .text t, v, h => by
    cases h
    exact ⟨_, rfl, rfl⟩
  | .atom a, v, h => ⟨v, h, (a.sorted_eq_self h).symm⟩
  | .array items, v, h => by
    obtain ⟨vs, hvs, h⟩ := bind_eq_ok_iff.1 h
    cases h
    have hnone : ∀ vs, (Items.ending .closed).asValues = .ok vs →
        ∃ ws, (Items.ending .closed).asValues = .ok ws ∧ vs = Value.sortedItems ws := by
      intro vs hvs
      cases hvs
      exact ⟨[], rfl, rfl⟩
    obtain ⟨ws, hws, rfl⟩ := exists_asValues_inOrder hnone hvs
    exact ⟨.list ws, by rw [Tree.inOrder, Node.asValue, hws]; rfl, rfl⟩
  | .table o entries, v, h => exists_asValue_table (fun es hes => exists_asEntries_inOrder hes) h
  | .tables earlier newest, v, h => by
    obtain ⟨vs, hvs, h⟩ := bind_eq_ok_iff.1 h
    cases h
    have hnewest (es : List (Text × Value)) (hes : newest.toMembers.asEntries = .ok es) :=
      exists_asEntries_inOrder hes
    obtain ⟨ws, hws, rfl⟩ := exists_asValues_inOrder (exists_asValues_table hnewest) hvs
    exact ⟨.list ws, by rw [Tree.inOrder, Node.asValue, hws]; rfl, rfl⟩

theorem exists_asValues_inOrder {more more' : Items}
    (hmore : ∀ vs, more.asValues = .ok vs → ∃ ws, more'.asValues = .ok ws ∧ vs = Value.sortedItems ws) :
    ∀ {items : Forest} {vs : List Value}, (items.toItems more).asValues = .ok vs →
      ∃ ws, (items.inOrder more').asValues = .ok ws ∧ vs = Value.sortedItems ws
  | .nil, vs, h => hmore vs h
  | .cons t rest, vs, h => by
    obtain ⟨v, hv, h⟩ := bind_eq_ok_iff.1 h
    obtain ⟨vs, hvs, h⟩ := bind_eq_ok_iff.1 h
    cases h
    obtain ⟨w, hw, rfl⟩ := exists_asValue_inOrder hv
    obtain ⟨ws, hws, rfl⟩ := exists_asValues_inOrder hmore hvs
    exact ⟨w :: ws, by rw [Forest.inOrder, Items.asValues, hw, hws]; rfl, rfl⟩

theorem exists_asEntries_inOrder : ∀ {entries : Entries} {es : List (Text × Value)},
    entries.toMembers.asEntries = .ok es →
    ∃ ws, entries.inOrder.asEntries = .ok ws ∧
      es = (Value.sortedEntries ws).insertionSort (KeyLe Prod.fst)
  | .nil, es, h => by
    cases h
    exact ⟨[], rfl, rfl⟩
  | .cons key value rest, es, h => by
    obtain ⟨v, es', hv, hes', rfl⟩ := asEntries_insertMember h
    obtain ⟨w, hw, rfl⟩ := exists_asValue_inOrder hv
    obtain ⟨ws, hws, rfl⟩ := exists_asEntries_inOrder hes'
    exact ⟨(key, w) :: ws, by rw [Entries.inOrder, Members.asEntries, hw, hws]; rfl, rfl⟩

end

end Document.Toml

/-! ## The keys of maps -/

/-- The keys of members, in their order. -/
def Content.keys? {α : Type} : Content α → Option (List (Option Text))
  | .members l => some (l.map Prod.fst)
  | _ => none

/-- Whether a text of a format has a table at the end of a way, and which keys are written
in it, in the order of writing. A key that cannot be read is none. The tables of TOML are
those under construction, to which a statement only adds behind what is there already
(`Document.Toml.exists_grows_of_obey`). -/
inductive WritesKeys : Format → Text → List Step → List (Option Text) → Prop where
  | json {source : Text} {p q : Piece} {way : List Step} {keys : List (Option Text)}
      (hp : IsSource p source) (hway : p.at? way = some q) (hkeys : q.content.keys? = some keys) :
      WritesKeys .json source way keys
  | toml {source : Text} {root t : Document.Toml.Tree} {way : List Step} {keys : List (Option Text)}
      (hroot : table? source = some root) (hway : root.at? way = some t)
      (hkeys : t.content.keys? = some keys) : WritesKeys .toml source way keys

/-- A map has the keys of the members that it was read from, each where it came first. -/
theorem keys_of_asValue {f : Fault} {members : Members} {v : Value}
    (h : (Node.table f members).asValue = .ok v) :
    ∃ (ks : List Text) (es : List (Text × Value)), members.pairs.map Prod.fst = ks.map some ∧
      v = .map es ∧ es.map Prod.fst = ks.eraseDups := by
  obtain ⟨entries, es, rfl, hkeyed, hentries⟩ := asValue_table h
  refine ⟨entries.map Prod.fst, es, ?_, rfl, hkeyed.keys⟩
  rw [Content.map_fst_of_forall₂ (R := fun n v => n.asValue = .ok v) hentries, Content.map_fst_keyed]

/-- A map that is read from JSON has the keys in the order of writing. -/
theorem keys_of_shows {q : Piece} {n : Node} {v : Value} {keys : List (Option Text)} (hshows : Shows q n)
    (h : n.asValue = .ok v) (hkeys : q.content.keys? = some keys) :
    ∃ (ks : List Text) (es : List (Text × Value)), keys = ks.map some ∧
      v = .map es ∧ es.map Prod.fst = ks.eraseDups := by
  cases hshows with
  | table hmembers =>
    cases hkeys
    obtain ⟨ks, es, hks, rfl, hes⟩ := keys_of_asValue h
    exact ⟨ks, es, (Content.map_fst_of_forall₂ hmembers.forall₂).trans hks, rfl, hes⟩
  | _ => cases hkeys

/-- A map that is read from TOML has the written keys in ascending order. -/
theorem keys_of_toNode {t : Document.Toml.Tree} {v : Value} {keys : List (Option Text)}
    (h : t.toNode.asValue = .ok v) (hkeys : t.content.keys? = some keys) :
    ∃ (ks : List Text) (es : List (Text × Value)), keys = ks.map some ∧
      v = .map es ∧ Ascend (es.map Prod.fst) ∧
      (es.map Prod.fst).Perm ks.eraseDups := by
  cases t with
  | table o entries =>
    cases hkeys
    obtain ⟨read, es, hread, rfl, hes⟩ := keys_of_asValue h
    rw [Document.Toml.pairs_toMembers, Content.map_fst_keyed] at hread
    obtain rfl := List.map_injective_iff.2 (Option.some_injective Text) hread
    refine ⟨entries.pairs.map Prod.fst, es, Content.map_fst_keyed _, rfl, ?_, ?_⟩
    · rw [hes]
      exact ascend_eraseDups entries.nodes
    · have hkeys : entries.nodes.map Prod.fst = entries.pairs.map Prod.fst := by
        rw [Document.Toml.Entries.nodes, List.map_map]
        rfl
      rw [hes, ← hkeys]
      exact perm_eraseDups ((List.perm_insertionSort (KeyLe Prod.fst) entries.nodes).map Prod.fst)
  | _ => cases hkeys

namespace Manifest

variable {format : Format} {source : Text} {m : Manifest}

/-- Every text that is read as a TOML manifest is a table, and the manifest is read from it. -/
theorem exists_table?_of_parse (h : parse .toml source = .ok m) :
    ∃ root, table? source = some root ∧ ofDocument .toml ⟨root.toNode, none⟩ = .ok m := by
  unfold parse at h
  rw [document?_eq] at h
  dsimp only at h
  cases hroot : table? source with
  | none =>
    rw [hroot] at h
    cases h
  | some root =>
    rw [hroot] at h
    dsimp only [Option.map_some] at h
    refine ⟨root, rfl, ?_⟩
    cases hread : ofDocument .toml ⟨root.toNode, none⟩ with
    | ok m' =>
      rw [hread] at h
      cases h
      rfl
    | error f =>
      rw [hread] at h
      cases h

/-- What stands in the value of a default is read at its place. -/
theorem exists_toNode_defaultValue? (h : parse .toml source = .ok m) {root t : Document.Toml.Tree}
    (hroot : table? source = some root) {i j k : Nat} {way : List Step}
    (hway : root.at? (defaultWay i j k ++ way) = some t) :
    ∃ v v', m.defaultValue? i j k = some v ∧ v.at? way = some v' ∧ t.toNode.asValue = .ok v' := by
  obtain ⟨root', hroot', hread⟩ := exists_table?_of_parse h
  obtain rfl := Option.some.inj (hroot'.symm.trans hroot)
  have ht := Document.Toml.at?_toNode hway
  rw [Node.at?, Content.at?_append] at ht
  obtain ⟨c, hc, ht⟩ := Option.bind_eq_some_iff.1 ht
  obtain ⟨v, hv, hasValue⟩ := exists_defaultValue? hread hc
  obtain ⟨v', hv', ht'⟩ := exists_at?_of_asValue hasValue ht
  exact ⟨v, v', hv, hv', ht'⟩

/-- In the value of a default each map has the keys that were written, each once. Those of
JSON are in the order of writing, those of TOML ascend. -/
theorem keys_of_writesKeys (h : parse format source = .ok m) {i j k : Nat} {way : List Step}
    {keys : List (Option Text)} (hkeys : WritesKeys format source (defaultWay i j k ++ way) keys) :
    ∃ (ks : List Text) (v : Value) (es : List (Text × Value)), keys = ks.map some ∧
      m.defaultValue? i j k = some v ∧ v.at? way = some (.map es) ∧
      (es.map Prod.fst).Perm ks.eraseDups ∧
      (format = .json ∧ es.map Prod.fst = ks.eraseDups ∨ format = .toml ∧ Ascend (es.map Prod.fst)) := by
  cases hkeys with
  | json hp hway hkeys =>
    obtain ⟨v, v', n, hv, hv', hshows, hread⟩ := exists_at?_defaultValue? h hp hway
    obtain ⟨ks, es, hks, rfl, hes⟩ := keys_of_shows hshows hread hkeys
    exact ⟨ks, v, es, hks, hv, hv', hes ▸ .refl _, .inl ⟨rfl, hes⟩⟩
  | toml hroot hway hkeys =>
    obtain ⟨v, v', hv, hv', hread⟩ := exists_toNode_defaultValue? h hroot hway
    obtain ⟨ks, es, hks, rfl, hascend, hperm⟩ := keys_of_toNode hread hkeys
    exact ⟨ks, v, es, hks, hv, hv', hperm, .inr ⟨rfl, hascend⟩⟩

/-- The default that is read from TOML is the sorted form of the value that is written. -/
theorem exists_sorted_defaultValue? (h : parse .toml source = .ok m) {root t : Document.Toml.Tree}
    (hroot : table? source = some root) {i j k : Nat} (ht : root.at? (defaultWay i j k) = some t) :
    ∃ w, t.inOrder.asValue = .ok w ∧ m.defaultValue? i j k = some w.sorted := by
  rw [← List.append_nil (defaultWay i j k)] at ht
  obtain ⟨v, v', hv, hv', hread⟩ := exists_toNode_defaultValue? h hroot ht
  cases hv'
  obtain ⟨w, hw, rfl⟩ := Document.Toml.exists_asValue_inOrder hread
  exact ⟨w, hw, hv⟩

/-- Each table that is written in the value of a default is read as a map of the written keys,
each once. The map has them in the order in which they are first written if and only
if the manifest is JSON or this order is ascending, and its literal has the order of
the map. A default from TOML is the sorted form of the value that is written; so a
JSON manifest with the same data up to the order of keys has the same default if and
only if all keys ascend in it. -/
theorem keeps_key_order_iff (h : parse format source = .ok m) (i j k : Nat) :
    (∀ way keys, WritesKeys format source (defaultWay i j k ++ way) keys →
      ∃ (ks : List Text) (v : Value) (es : List (Text × Value)), keys = ks.map some ∧
        m.defaultValue? i j k = some v ∧ v.at? way = some (.map es) ∧
        (es.map Prod.fst).Perm ks.eraseDups ∧
        (es.map Prod.fst = ks.eraseDups ↔ format = .json ∨ Ascend ks.eraseDups) ∧
        (Value.map es).literal = '[' :: (Text.join [',', ' ']
          (es.map fun e => Value.keyLiteral e.1 ++ " => ".toList ++ e.2.literal) ++ [']'])) ∧
    (format = .json → ∃ p, IsSource p source) ∧
    (format = .toml → ∃ root, table? source = some root ∧
      ∀ t, root.at? (defaultWay i j k) = some t →
        ∃ w, t.inOrder.asValue = .ok w ∧ m.defaultValue? i j k = some w.sorted ∧
          ∀ source' m' i' j' k' w', parse .json source' = .ok m' → m'.defaultValue? i' j' k' = some w' →
            w'.sorted = w.sorted →
            (m.defaultValue? i j k = m'.defaultValue? i' j' k' ↔ w'.isSorted)) := by
  refine ⟨fun way keys hkeys => ?_, ?_, ?_⟩
  · obtain ⟨ks, v, es, hks, hv, hes, hperm, horder⟩ := keys_of_writesKeys h hkeys
    refine ⟨ks, v, es, hks, hv, hes, hperm, ?_, Value.literal_map es⟩
    rcases horder with ⟨rfl, heq⟩ | ⟨rfl, hascend⟩
    · exact ⟨fun _ => .inl rfl, fun _ => heq⟩
    · refine ⟨fun heq => .inr (heq ▸ hascend), fun hwritten => ?_⟩
      have hwritten := hwritten.resolve_left fun heq => by cases heq
      exact hascend.eq_of_perm hwritten hperm
  · rintro rfl
    exact exists_isSource h
  · rintro rfl
    obtain ⟨root, hroot, -⟩ := exists_table?_of_parse h
    refine ⟨root, hroot, fun t ht => ?_⟩
    obtain ⟨w, hw, hv⟩ := exists_sorted_defaultValue? h hroot ht
    refine ⟨w, hw, hv, ?_⟩
    intro source' m' i' j' k' w' _ hw' hsame
    rw [hv, hw', ← hsame, Option.some.injEq]
    exact Value.sorted_eq_self_iff w'

/-- A manifest in JSON whose default has the keys `b` and `a`, in this order. -/
def descendingJson : Text :=
  textWithDefault
    ('\x7b' :: (memberText ['b'] (boolText true) ++
      ',' :: memberText ['a'] (boolText false) ++ ['\x7d']))

theorem writesKeys_descendingJson :
    WritesKeys .json descendingJson (defaultWay 0 0 0 ++ []) [some ['b'], some ['a']] := by
  have hwrites := Writes.table ((Writes.bool true).memberComma
    (isQuoted_of_isPlain (t := ['b']) (by decide))
    ((Writes.bool false).member (isQuoted_of_isPlain (t := ['a']) (by decide))))
  exact .json (isSource_textWithDefault hwrites) rfl rfl

/-- In JSON the keys `b` and `a` keep their order. -/
theorem keeps_key_order_iff_descending : ∃ m v es, parse .json descendingJson = .ok m ∧
    WritesKeys .json descendingJson (defaultWay 0 0 0 ++ []) [some ['b'], some ['a']] ∧
    m.defaultValue? 0 0 0 = some v ∧ v.at? [] = some (.map es) ∧ es.map Prod.fst = [['b'], ['a']] := by
  have hparse : (parse .json descendingJson).isOk := by decide +kernel
  obtain ⟨m, hm⟩ := exists_eq_ok hparse
  obtain ⟨ks, v, es, hks, hv, hes, -, horder, -⟩ :=
    (keeps_key_order_iff hm 0 0 0).1 [] _ writesKeys_descendingJson
  obtain rfl : [['b'], ['a']] = ks := List.map_injective_iff.2 (Option.some_injective Text) hks
  exact ⟨m, v, es, hm, writesKeys_descendingJson, hv, hes, horder.2 (.inl rfl)⟩

/-- A manifest in TOML whose default has the keys `b` and `a`, in this order. -/
def descendingToml : Text :=
  ("[[entities]]\nname = \"Foo\"\n\n[[entities.methods]]\nname = \"setBar\"\n\n" ++
    "[[entities.methods.params]]\nname = \"bar\"\n" ++
    "default = \x7b value = \x7b b = true, a = false \x7d \x7d\n").toList

theorem writesKeys_descendingToml :
    WritesKeys .toml descendingToml (defaultWay 0 0 0 ++ []) [some ['b'], some ['a']] := by
  have hkeys : ((table? descendingToml).bind fun root =>
      (root.at? (defaultWay 0 0 0 ++ [])).bind fun t =>
      t.content.keys?) = some [some ['b'], some ['a']] := by
    decide +kernel
  obtain ⟨root, hroot, hkeys⟩ := Option.bind_eq_some_iff.1 hkeys
  obtain ⟨t, ht, hkeys⟩ := Option.bind_eq_some_iff.1 hkeys
  exact .toml hroot ht hkeys

/-- In TOML the keys `b` and `a` change their order. -/
theorem not_keeps_key_order_descending : ∃ m v es, parse .toml descendingToml = .ok m ∧
    WritesKeys .toml descendingToml (defaultWay 0 0 0 ++ []) [some ['b'], some ['a']] ∧
    m.defaultValue? 0 0 0 = some v ∧ v.at? [] = some (.map es) ∧ es.map Prod.fst = [['a'], ['b']] := by
  have hparse : (parse .toml descendingToml).isOk := by decide +kernel
  obtain ⟨m, hm⟩ := exists_eq_ok hparse
  obtain ⟨ks, v, es, hks, hv, hes, hperm, ⟨⟨⟩, -⟩ | ⟨-, hascend⟩⟩ :=
    keys_of_writesKeys hm writesKeys_descendingToml
  obtain rfl : [['b'], ['a']] = ks := List.map_injective_iff.2 (Option.some_injective Text) hks
  have hsorted : Ascend [['a'], ['b']] := by decide
  exact ⟨m, v, es, hm, writesKeys_descendingToml, hv, hes,
    hascend.eq_of_perm hsorted (hperm.trans (by decide))⟩

end Manifest

end BuilderForge
