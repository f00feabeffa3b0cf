import BuilderForge.Document.Toml.Statement
import BuilderForge.Proofs.KeyOrder
import BuilderForge.Proofs.Records
/-
  TOML tables as they are written and as they are read.

  Under construction a table has its entries in the order in which their keys are
  first written: a statement puts new entries behind the old ones, at any depth
  (`Entries.Grows`, `obey_grows`). A document has the members of a table in the order of
  their keys (`pairs_toMembers`). Otherwise the two are the same: ways lead to the
  same parts (`matches_toNode`).
-/

namespace BuilderForge.Document.Toml

/-- The entries of a table, one after the other. -/
def Entries.pairs : Entries → List (Text × Tree)
  | .nil => []
  | .cons key value rest => (key, value) :: rest.pairs

/-- The values of an array, one after the other. -/
def Forest.trees : Forest → List Tree
  | .nil => []
  | .cons t rest => t :: rest.trees

/-- What a value consists of, as it is written. -/
def Tree.content : Tree → Content Tree
  | .array items => .items items.trees
  | .table _ entries => .members (Content.keyed entries.pairs)
  | .tables earlier newest => .items (earlier.trees ++ [.table .header newest])
  | _ => .simple

/-- What a way leads to in a value. -/
def Tree.at? (t : Tree) (way : List Step) : Option Tree := Content.at? Tree.content way t

/-- The table that a text is, if it is TOML. -/
def table? (t : Text) : Option Tree := do
  let t := dropMark t
  let entries ← obey [] .nil (← statements? (t.length + 1) t)
  return .table .header entries

/-- The document of a text is the node of its table. -/
theorem document?_eq (t : Text) : document? t = (table? t).map fun tree => ⟨tree.toNode, none⟩ := by
  rw [document?, table?]
  cases statements? ((dropMark t).length + 1) (dropMark t) with
  | none => rfl
  | some ss =>
    show (obey [] .nil ss).bind _ = ((obey [] .nil ss).bind _).map _
    cases obey [] .nil ss <;> rfl

/-! ## Trees as nodes -/

theorem nodes_toItems (more : Items) : ∀ items : Forest,
    (items.toItems more).nodes = items.trees.map Tree.toNode ++ more.nodes
  | .nil => rfl
  | .cons t rest => by
    rw [Forest.toItems, Items.nodes, nodes_toItems more rest, Forest.trees,
      List.map_cons, List.cons_append]

/-- A member is put among others as an element is into a sorted list. -/
theorem pairs_insertMember (key : Text) (value : Node) : ∀ {members : Members} {l : List (Text × Node)},
    members.pairs = Content.keyed l →
    (insertMember key value members).pairs =
      Content.keyed (l.orderedInsert (KeyLe Prod.fst) (key, value))
  | .ending e, [], h => rfl
  | .ending e, x :: l, h => by cases h
  | .member k v after rest, [], h => by cases h
  | .member (.flawed f) v after rest, x :: l, h => by cases h
  | .member (.text k) v after rest, (k', v') :: l, h => by
    have hcons : (some k, v) = (some k', v') ∧ rest.pairs = Content.keyed l := List.cons.inj h
    obtain ⟨⟨⟩, hrest⟩ := hcons
    rw [insertMember, List.orderedInsert_cons]
    by_cases hlt : k < key
    · have hle : ¬ KeyLe Prod.fst (key, value) (k, v) := not_not_intro hlt
      rw [if_pos hlt, if_neg hle, Members.pairs, pairs_insertMember key value hrest]
      rfl
    · have hle : KeyLe Prod.fst (key, value) (k, v) := hlt
      rw [if_neg hlt, if_pos hle, Members.pairs, Members.pairs, hrest]
      rfl

/-- The entries of a table with the nodes of their values. -/
def Entries.nodes (entries : Entries) : List (Text × Node) :=
  entries.pairs.map fun e => (e.1, e.2.toNode)

/-- The members of a table are its entries in the order of their keys. -/
theorem pairs_toMembers : ∀ entries : Entries,
    entries.toMembers.pairs = Content.keyed (entries.nodes.insertionSort (KeyLe Prod.fst))
  | .nil => rfl
  | .cons key value rest => by
    rw [Entries.toMembers, pairs_insertMember key value.toNode (pairs_toMembers rest)]
    rfl

theorem forall₂_toNode (trees : List Tree) :
    List.Forall₂ (fun t n => n = t.toNode) trees (trees.map Tree.toNode) := by
  rw [List.forall₂_map_right_iff]
  exact List.forall₂_same.2 fun t _ => rfl

/-- The node of a value has the parts of the value. -/
theorem matches_toNode (t : Tree) :
    Content.Matches (fun t n => n = t.toNode) t.content t.toNode.content := by
  cases t with
  | text t => exact .simple
  | atom a => exact .simple
  | array items =>
    refine .items ?_
    rw [nodes_toItems, Items.nodes, List.append_nil]
    exact forall₂_toNode items.trees
  | table o entries =>
    refine .members fun k a ha => ?_
    rw [Content.lastAt_keyed] at ha
    rw [pairs_toMembers, Content.lastAt_keyed, find?_reverse_insertionSort, Entries.nodes,
      ← List.map_reverse,
      List.find?_map, Option.map_map]
    obtain ⟨e, he, rfl⟩ := Option.map_eq_some_iff.1 ha
    exact ⟨e.2.toNode, congrArg (Option.map _) he, rfl⟩
  | tables earlier newest =>
    refine .items ?_
    rw [nodes_toItems]
    exact List.rel_append (forall₂_toNode earlier.trees) (.cons rfl .nil)

/-- A way into a value leads to the node of its end in the node of the value. -/
theorem at?_toNode {t t' : Tree} {way : List Step} (h : t.at? way = some t') :
    t.toNode.at? way = some t'.toNode := by
  have hmatches (t : Tree) (n : Node) (h : n = t.toNode) :
      Content.Matches (fun t n => n = t.toNode) t.content n.content := h ▸ matches_toNode t
  obtain ⟨n, hn, rfl⟩ := Content.exists_at?_of_matches hmatches rfl h
  exact hn

/-! ## Growth -/

mutual

/-- Whether a value becomes another one by what is written later: tables get entries behind
those they have, and arrays of tables get tables behind those they have. -/
inductive Tree.Grows : Tree → Tree → Prop where
  | same (t : Tree) : Tree.Grows t t
  | table {o o' : Origin} {es es' : Entries} (h : Entries.Grows es es') :
      Tree.Grows (.table o es) (.table o' es')
  | tables {earlier earlier' : Forest} {newest newest' : Entries}
      (h : Forest.Grows (earlier.push (.table .header newest)) (earlier'.push (.table .header newest'))) :
      Tree.Grows (.tables earlier newest) (.tables earlier' newest')

/-- Whether values become others, with more values behind them. -/
inductive Forest.Grows : Forest → Forest → Prop where
  | more (items : Forest) : Forest.Grows .nil items
  | cons {t t' : Tree} {rest rest' : Forest} (hhead : Tree.Grows t t') (htail : Forest.Grows rest rest') :
      Forest.Grows (.cons t rest) (.cons t' rest')

/-- Whether entries become others, with more entries behind them. -/
inductive Entries.Grows : Entries → Entries → Prop where
  | more (es : Entries) : Entries.Grows .nil es
  | cons {key : Text} {t t' : Tree} {rest rest' : Entries} (hhead : Tree.Grows t t')
      (htail : Entries.Grows rest rest') : Entries.Grows (.cons key t rest) (.cons key t' rest')

end

/-- What was written keeps its place: the keys that a table has come first, in their order. -/
theorem Entries.Grows.keys_prefix : ∀ {es es' : Entries}, es.Grows es' →
    es.pairs.map Prod.fst <+: es'.pairs.map Prod.fst
  | _, _, .more es => List.nil_prefix
  | _, _, .cons _ htail => (List.prefix_cons_inj _).2 htail.keys_prefix

mutual

theorem Tree.Grows.trans : ∀ {t t' t'' : Tree}, t.Grows t' → t'.Grows t'' → t.Grows t''
  | _, _, _, .same t, h => h
  | _, _, _, .table h, .same _ => .table h
  | _, _, _, .tables h, .same _ => .tables h
  | _, _, _, .table h, .table h' => .table (h.trans h')
  | _, _, _, .tables h, .tables h' => .tables (h.trans h')

theorem Forest.Grows.trans : ∀ {f f' f'' : Forest}, f.Grows f' → f'.Grows f'' → f.Grows f''
  | _, _, f, .more _, _ => .more f
  | _, _, _, .cons hhead htail, .cons hhead' htail' => .cons (hhead.trans hhead') (htail.trans htail')

theorem Entries.Grows.trans : ∀ {es es' es'' : Entries}, es.Grows es' → es'.Grows es'' → es.Grows es''
  | _, _, es, .more _, _ => .more es
  | _, _, _, .cons hhead htail, .cons hhead' htail' => .cons (hhead.trans hhead') (htail.trans htail')

end

theorem Forest.Grows.refl : ∀ items : Forest, items.Grows items
  | .nil => .more .nil
  | .cons t rest => .cons (.same t) (refl rest)

theorem Entries.Grows.refl : ∀ es : Entries, es.Grows es
  | .nil => .more .nil
  | .cons _ t rest => .cons (.same t) (refl rest)

theorem Forest.grows_push (t : Tree) : ∀ items : Forest, items.Grows (items.push t)
  | .nil => .more _
  | .cons u rest => .cons (.same u) (grows_push t rest)

theorem Tree.Grows.push {t t' : Tree} (h : t.Grows t') :
    ∀ items : Forest, (items.push t).Grows (items.push t')
  | .nil => .cons h (.more _)
  | .cons u rest => .cons (.same u) (h.push rest)

namespace Entries

/-- A value at a new key stands behind all entries. -/
theorem grows_put_new {key : Text} (value : Tree) :
    ∀ {es : Entries}, es.find? key = none → es.Grows (es.put key value)
  | .nil, _ => .more _
  | .cons k v rest, h => by
    rw [find?] at h
    rw [put]
    split at h
    · cases h
    · rename_i hne
      rw [if_neg hne]
      exact .cons (.same v) (grows_put_new value h)

/-- A value that grows keeps its place. -/
theorem grows_put {key : Text} {t t' : Tree} (hgrows : t.Grows t') :
    ∀ {es : Entries}, es.find? key = some t →
    es.Grows (es.put key t')
  | .nil, h => by cases h
  | .cons k v rest, h => by
    rw [find?] at h
    rw [put]
    split at h
    · rename_i heq
      cases h
      rw [if_pos heq, heq]
      exact .cons hgrows (Grows.refl rest)
    · rename_i hne
      rw [if_neg hne]
      exact .cons (.same v) (grows_put hgrows h)

/-- What happens at the end of a way down lets every table on the way grow. -/
theorem grows_enter {byDots : Bool} {act : Origin → Entries → Option Entries}
    (hact : ∀ {o es es'}, act o es = some es' → es.Grows es') :
    ∀ {way : List Text} {o : Origin} {es es' : Entries}, enter byDots act way o es = some es' →
      es.Grows es'
  | [], o, es, es', h => hact h
  | key :: way, o, es, es', h => by
    rw [enter] at h
    split at h
    · rename_i hfind
      obtain ⟨below, hbelow, rfl⟩ := Option.map_eq_some_iff.1 h
      exact grows_put_new _ hfind
    · rename_i hfind
      split at h
      · obtain ⟨below, hbelow, rfl⟩ := Option.map_eq_some_iff.1 h
        exact grows_put (.table (grows_enter hact hbelow)) hfind
      · cases h
    · rename_i earlier newest hfind
      obtain ⟨below, hbelow, rfl⟩ := Option.map_eq_some_iff.1 h
      have htable : Tree.Grows (.table .header newest) (.table .header below) :=
        .table (grows_enter hact hbelow)
      exact grows_put (.tables (htable.push earlier)) hfind
    · cases h

theorem grows_assign {key : List Text} {value : Tree} {o : Origin} {es es' : Entries}
    (h : es.assign key value o = some es') : es.Grows es' := by
  rw [assign] at h
  split at h
  · cases h
  · refine grows_enter (fun {o es es'} h => ?_) h
    rw [putNew] at h
    split at h
    · cases h
    · split at h
      · rename_i hfind
        cases h
        exact grows_put_new _ hfind
      · cases h

theorem grows_openTable {key : Text} {o : Origin} {es es' : Entries} (h : es.openTable key o = some es') :
    es.Grows es' := by
  unfold openTable at h
  split at h
  · rename_i hfind
    cases h
    exact grows_put_new _ hfind
  · rename_i hfind
    cases h
    exact grows_put (.table (Grows.refl _)) hfind
  · cases h

theorem grows_openNext {key : Text} {o : Origin} {es es' : Entries} (h : es.openNext key o = some es') :
    es.Grows es' := by
  unfold openNext at h
  split at h
  · rename_i hfind
    cases h
    exact grows_put_new _ hfind
  · rename_i hfind
    cases h
    exact grows_put (.tables (Forest.grows_push _ _)) hfind
  · cases h

theorem grows_openHeader {next : Bool} {key : List Text} {es es' : Entries}
    (h : es.openHeader next key = some es') : es.Grows es' := by
  rw [openHeader] at h
  split at h
  · cases h
  · refine grows_enter (fun {o es es'} h => ?_) h
    cases next with
    | true => exact grows_openNext (o := o) h
    | false => exact grows_openTable (o := o) h

theorem grows_assignUnder {header key : List Text} {value : Tree} {es es' : Entries}
    (h : es.assignUnder header key value = some es') : es.Grows es' :=
  grows_enter grows_assign h

end Entries

/-- Statements let the table of a document grow. -/
theorem grows_obey : ∀ {ss : List Statement} {header : List Text} {es es' : Entries},
    obey header es ss = some es' → es.Grows es'
  | [], header, es, es', h => by
    cases h
    exact .refl es
  | .opening next key :: more, header, es, es', h => by
    obtain ⟨opened, hopened, h⟩ := Option.bind_eq_some_iff.1 h
    exact (Entries.grows_openHeader hopened).trans (grows_obey h)
  | .assignment key value :: more, header, es, es', h => by
    obtain ⟨assigned, hassigned, h⟩ := Option.bind_eq_some_iff.1 h
    exact (Entries.grows_assignUnder hassigned).trans (grows_obey h)

/-- What the first statements make grows into what all of them make. So the keys of a
table stand in the order of the statements that write them first. -/
theorem exists_grows_of_obey : ∀ {ss ss' : List Statement} {header : List Text} {es es' : Entries},
    obey header es (ss ++ ss') = some es' → ∃ made, obey header es ss = some made ∧ made.Grows es'
  | [], ss', header, es, es', h => ⟨es, rfl, grows_obey h⟩
  | .opening next key :: ss, ss', header, es, es', h => by
    obtain ⟨opened, hopened, h⟩ := Option.bind_eq_some_iff.1 h
    obtain ⟨made, hmade, hgrows⟩ := exists_grows_of_obey h
    exact ⟨made, by rw [obey, hopened]; exact hmade, hgrows⟩
  | .assignment key value :: ss, ss', header, es, es', h => by
    obtain ⟨assigned, hassigned, h⟩ := Option.bind_eq_some_iff.1 h
    obtain ⟨made, hmade, hgrows⟩ := exists_grows_of_obey h
    exact ⟨made, by rw [obey, hassigned]; exact hmade, hgrows⟩

/-- The entries of an inline table grow with every entry that is written. -/
theorem grows_entries? : ∀ {bound : Nat} {es es' : Entries} {t r : Text},
    entries? bound es t = some (es', r) → es.Grows es'
  | 0, es, es', t, r, h => by cases h
  | bound + 1, es, es', t, r, h => by
    rw [entries?] at h
    obtain ⟨⟨key, rest⟩, hkey, h⟩ := Option.bind_eq_some_iff.1 h
    obtain ⟨mark, hmark, h⟩ := Option.bind_eq_some_iff.1 h
    dsimp only at h
    split at h
    · obtain ⟨start, hstart, h⟩ := Option.bind_eq_some_iff.1 h
      obtain ⟨⟨value, rest⟩, hvalue, h⟩ := Option.bind_eq_some_iff.1 h
      obtain ⟨assigned, hassigned, h⟩ := Option.bind_eq_some_iff.1 h
      obtain ⟨stop, hstop, h⟩ := Option.bind_eq_some_iff.1 h
      have hgrows := Entries.grows_assign hassigned
      split at h
      · cases h
        exact hgrows
      · obtain ⟨next, hnext, h⟩ := Option.bind_eq_some_iff.1 h
        split at h
        · cases h
          exact hgrows
        · exact hgrows.trans (grows_entries? h)
      · cases h
    · cases h

end BuilderForge.Document.Toml
