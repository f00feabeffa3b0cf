import BuilderForge.Proofs.DataPaths
import BuilderForge.Proofs.JsonText
/-
  JSON as it is read.

  `Shows` says which node a piece of JSON becomes: the same kind of data with the
  same parts in the same order. By induction on the grammar, the text of a piece is
  read to a node that shows it, and reading goes on right after it, whatever
  follows and wherever the piece stands (`node_writes`). So ways lead to the same
  parts in the piece and in the document (`Shows.exists_at?`).
-/

namespace BuilderForge.Document.Json

mutual

/-- Whether a node is what a piece of JSON says. A number that is too large and a
string without a value are flaws. -/
inductive Shows : Piece → Node → Prop where
  | null {f : Fault} : Shows .null (.scalar f .null)
  | bool {f : Fault} (b : Bool) : Shows (.bool b) (.scalar f (.bool b))
  | number {f : Fault} {n : Number} {s : Scalar} (h : n.scalar? = some s) :
      Shows (.number n) (.scalar f s)
  | tooLarge {f : Fault} {flaw : Flaw} {n : Number} (h : n.scalar? = none) :
      Shows (.number n) (.flawed f flaw)
  | string {t : Text} : Shows (.string (some t)) (.text t)
  | unreadable {f : Fault} {flaw : Flaw} : Shows (.string none) (.flawed f flaw)
  | list {f : Fault} {pieces : List Piece} {items : Items} (h : ShowsItems pieces items) :
      Shows (.list pieces) (.list f items)
  | table {f : Fault} {pieces : List (Option Text × Piece)} {members : Members}
      (h : ShowsMembers pieces members) : Shows (.table pieces) (.table f members)

/-- Whether items are what pieces of JSON say. -/
inductive ShowsItems : List Piece → Items → Prop where
  | nil : ShowsItems [] (.ending .closed)
  | cons {p : Piece} {pieces : List Piece} {n : Node} {after : Fault} {items : Items}
      (hhead : Shows p n) (htail : ShowsItems pieces items) :
      ShowsItems (p :: pieces) (.item n after items)

/-- Whether members are what keys and pieces of JSON say. -/
inductive ShowsMembers : List (Option Text × Piece) → Members → Prop where
  | nil : ShowsMembers [] (.ending .closed)
  | cons {p : Piece} {pieces : List (Option Text × Piece)} {key : Key} {n : Node} {after : Fault}
      {members : Members} (hhead : Shows p n) (htail : ShowsMembers pieces members) :
      ShowsMembers ((key.text?, p) :: pieces) (.member key n after members)

end

/-! ## Tokens and what stands between them -/

section Tokens

variable {gap t rest : Text}

/-- Space is passed over up to the next token. -/
theorem next_gap (hgap : IsGap gap) (ht : Avoids isSpace t) (read : Nat) :
    Place.next ⟨read, gap ++ t⟩ = ⟨read + gap.length, t⟩ := by
  have hrun : Text.IsRun isSpace gap t := ⟨hgap, ht⟩
  rw [Place.next, hrun.takeWhile_eq, hrun.dropWhile_eq]

/-- Space does not carry a number on. -/
theorem IsGap.avoids (hgap : IsGap gap) (ht : Avoids isNumberChar t) :
    Avoids isNumberChar (gap ++ t) := by
  cases gap with
  | nil => exact ht
  | cons c gap =>
    rintro d hd
    obtain rfl : c = d := Option.some.inj hd
    have hspace := hgap c List.mem_cons_self
    simp only [isSpace, Bool.or_eq_true, decide_eq_true_eq] at hspace
    rcases hspace with ((rfl | rfl) | rfl) | rfl <;> rfl

/-- A token begins with something else than space or a closing bracket. -/
def BeginsToken (t : Text) : Prop :=
  ∃ c r, t = c :: r ∧ isSpace c = false ∧ c ≠ ']' ∧ c ≠ '\x7d'

theorem BeginsToken.append (h : BeginsToken t) (rest : Text) : BeginsToken (t ++ rest) := by
  obtain ⟨c, r, rfl, hspace, hlist, htable⟩ := h
  exact ⟨c, r ++ rest, rfl, hspace, hlist, htable⟩

theorem BeginsToken.ne_nil (h : BeginsToken t) : t ≠ [] := by
  obtain ⟨c, r, rfl, -⟩ := h
  exact List.cons_ne_nil c r

theorem BeginsToken.avoids (h : BeginsToken t) : Avoids isSpace t := by
  obtain ⟨c, r, rfl, hspace, -, -⟩ := h
  rintro d hd
  obtain rfl : c = d := Option.some.inj hd
  exact hspace

theorem IsDigits.exists_cons (h : IsDigits t) : ∃ c r, t = c :: r ∧ c.isDigit :=
  let ⟨c, r, hcons⟩ := List.exists_cons_of_ne_nil h.ne_nil
  ⟨c, r, hcons, h.all c (hcons ▸ List.mem_cons_self)⟩

/-- A number begins with a minus sign or a digit. -/
theorem Number.IsProper.exists_cons {n : Number} (hn : n.IsProper) :
    ∃ c r, n.text = c :: r ∧ (c = '-' || c.isDigit) := by
  rw [Number.text]
  cases n.negative with
  | true => exact ⟨'-', _, rfl, rfl⟩
  | false =>
    obtain ⟨c, r, hwhole, hdigit⟩ := hn.whole.exists_cons
    exact ⟨c, _, by rw [hwhole]; rfl, by rw [hdigit, Bool.or_true]⟩

/-- A digit is none of some other characters. -/
theorem ne_of_isSigned {c d : Char} (hc : (c = '-' || c.isDigit) = true)
    (hd : (d = '-' || d.isDigit) = false) : c ≠ d := by
  rintro rfl
  rw [hd] at hc
  cases hc

theorem Writes.beginsToken {p : Piece} (h : Writes p t) : BeginsToken t := by
  cases h with
  | null => exact ⟨_, _, rfl, rfl, by decide, by decide⟩
  | bool b => cases b <;> exact ⟨_, _, rfl, rfl, by decide, by decide⟩
  | number hn =>
    obtain ⟨c, r, htext, hc⟩ := hn.exists_cons
    refine ⟨c, r, htext, ?_, ne_of_isSigned hc rfl, ne_of_isSigned hc rfl⟩
    simp only [isSpace, Bool.or_eq_false_iff, decide_eq_false_iff_not]
    exact ⟨⟨⟨ne_of_isSigned hc rfl, ne_of_isSigned hc rfl⟩, ne_of_isSigned hc rfl⟩,
      ne_of_isSigned hc rfl⟩
  | string hbody => exact ⟨_, _, rfl, rfl, by decide, by decide⟩
  | noItems hgap => exact ⟨_, _, rfl, rfl, by decide, by decide⟩
  | list hitems => exact ⟨_, _, rfl, rfl, by decide, by decide⟩
  | noMembers hgap => exact ⟨_, _, rfl, rfl, by decide, by decide⟩
  | table hmembers => exact ⟨_, _, rfl, rfl, by decide, by decide⟩

theorem word_append (w : Text) (read : Nat) :
    word read w (w ++ rest) = .ok ⟨(), read + w.length, rest⟩ := by
  induction w generalizing read with
  | nil => rfl
  | cons c w ih =>
    rw [List.cons_append, word, if_pos rfl, ih, List.length_cons, Nat.add_assoc, Nat.add_comm 1]

end Tokens

/-! ## Nodes -/

section Nodes

variable {rest : Text} {bound : Nat}

theorem node_null (rest : Text) (read : Nat) :
    ∃ f, node (bound + 1) ⟨read, "null".toList ++ rest⟩ = (.scalar f .null, some ⟨read + 4, rest⟩) := by
  refine ⟨(Place.mk read ("null".toList ++ rest)).fault, ?_⟩
  show nullNode ⟨read, "null".toList ++ rest⟩ = _
  rw [nullNode, word_append]
  rfl

theorem node_bool (b : Bool) (rest : Text) (read : Nat) : ∃ f,
    node (bound + 1) ⟨read, boolText b ++ rest⟩ =
      (.scalar f (.bool b), some ⟨read + (boolText b).length, rest⟩) := by
  refine ⟨(Place.mk read (boolText b ++ rest)).fault, ?_⟩
  cases b with
  | true =>
    show boolNode ⟨read, "true".toList ++ rest⟩ "true" true = _
    rw [boolNode, word_append]
    rfl
  | false =>
    show boolNode ⟨read, "false".toList ++ rest⟩ "false" false = _
    rw [boolNode, word_append]
    rfl

theorem node_of_isSigned {c : Char} (hc : (c = '-' || c.isDigit) = true) (read : Nat) :
    node (bound + 1) ⟨read, c :: rest⟩ = numberNode ⟨read, c :: rest⟩ := by
  unfold node
  dsimp only
  rw [if_neg (ne_of_isSigned hc rfl), if_pos hc]

theorem node_number {n : Number} (hn : n.IsProper) (hrest : Avoids isNumberChar rest) (read : Nat) :
    ∃ node' read', node (bound + 1) ⟨read, n.text ++ rest⟩ = (node', some ⟨read', rest⟩) ∧
      Shows (.number n) node' := by
  obtain ⟨place, read', hparts⟩ := parts_text hn hrest read
  obtain ⟨c, r, htext, hc⟩ := hn.exists_cons
  have hscalar := toOption_scalar n place read'
  rw [htext, List.cons_append] at hparts ⊢
  rw [node_of_isSigned hc, numberNode, hparts]
  cases h : (n.parts place).scalar read' with
  | ok s =>
    rw [h] at hscalar
    simp only [h]
    exact ⟨_, _, rfl, .number hscalar.symm⟩
  | error f =>
    rw [h] at hscalar
    simp only [h]
    exact ⟨_, _, rfl, .tooLarge hscalar.symm⟩

theorem node_string {value : Option Text} {body : Text} (hbody : IsQuoted body value)
    (rest : Text) (read : Nat) :
    ∃ node' read', node (bound + 1) ⟨read, '"' :: (body ++ '"' :: rest)⟩ = (node', some ⟨read', rest⟩) ∧
      Shows (.string value) node' := by
  obtain ⟨v, read', hquoted, hv⟩ := quoted_body hbody rest (read + 1)
  show ∃ node' read', quotedNode ⟨read + 1, body ++ '"' :: rest⟩ = (node', some ⟨read', rest⟩) ∧ _
  rw [quotedNode, hquoted]
  cases v with
  | ok t =>
    subst hv
    exact ⟨_, _, rfl, .string⟩
  | error f =>
    subst hv
    exact ⟨_, _, rfl, .unreadable⟩

theorem node_list {inside place : Place} {t : Text} {read : Nat}
    (hnext : Place.next ⟨read + 1, t⟩ = inside)
    (hbegins : BeginsToken inside.rest) {list : Items}
    (hitems : items bound inside = (list, some place)) :
    ∃ f, node (bound + 1) ⟨read, '[' :: t⟩ = (.list f list, some place) := by
  obtain ⟨c, r, hcons, -, hlist, -⟩ := hbegins
  refine ⟨(Place.mk read ('[' :: t)).fault, ?_⟩
  unfold node
  dsimp only
  rw [if_neg (by decide), if_neg (by decide), if_neg (by decide), if_neg (by decide), if_neg (by decide),
    if_pos rfl, hnext]
  split
  · rename_i heq
    rw [hcons] at heq
    cases heq
    exact absurd rfl hlist
  · rw [hitems]

theorem node_table {inside place : Place} {t : Text} {read : Nat}
    (hnext : Place.next ⟨read + 1, t⟩ = inside)
    (hbegins : BeginsToken inside.rest) {list : Members}
    (hmembers : members bound inside = (list, some place)) :
    ∃ f, node (bound + 1) ⟨read, '\x7b' :: t⟩ = (.table f list, some place) := by
  obtain ⟨c, r, hcons, -, -, htable⟩ := hbegins
  refine ⟨inside.fault, ?_⟩
  unfold node
  dsimp only
  rw [if_neg (by decide), if_neg (by decide), if_neg (by decide), if_neg (by decide), if_neg (by decide),
    if_neg (by decide), if_pos rfl, hnext]
  split
  · rename_i heq
    rw [hcons] at heq
    cases heq
    exact absurd rfl htable
  · rw [hmembers]

theorem node_noItems {gap : Text} (hgap : IsGap gap) (rest : Text) (read : Nat) :
    ∃ f read', node (bound + 1) ⟨read, '[' :: (gap ++ ']' :: rest)⟩ =
      (.list f (.ending .closed), some ⟨read', rest⟩) := by
  refine ⟨(Place.mk read ('[' :: (gap ++ ']' :: rest))).fault, read + 1 + gap.length + 1, ?_⟩
  unfold node
  dsimp only
  rw [if_neg (by decide), if_neg (by decide), if_neg (by decide), if_neg (by decide), if_neg (by decide),
    if_pos rfl, next_gap hgap (by rintro c ⟨⟩; rfl)]
  rfl

theorem node_noMembers {gap : Text} (hgap : IsGap gap) (rest : Text) (read : Nat) :
    ∃ f read', node (bound + 1) ⟨read, '\x7b' :: (gap ++ '\x7d' :: rest)⟩ =
      (.table f (.ending .closed), some ⟨read', rest⟩) := by
  refine ⟨(Place.mk (read + 1 + gap.length) ('\x7d' :: rest)).fault, read + 1 + gap.length + 1, ?_⟩
  unfold node
  dsimp only
  rw [if_neg (by decide), if_neg (by decide), if_neg (by decide), if_neg (by decide), if_neg (by decide),
    if_neg (by decide), if_pos rfl, next_gap hgap (by rintro c ⟨⟩; rfl)]
  rfl

end Nodes

/-! ## Items and members -/

section Parts

variable {bound : Nat} {p place stop : Place} {value : Node} {r : Text}

theorem items_last (hp : p.rest ≠ []) (hnode : node bound p = (value, some place))
    (hstop : place.next.rest = ']' :: r) :
    ∃ f, items (bound + 1) p = (.item value f (.ending .closed), some ⟨place.next.read + 1, r⟩) := by
  refine ⟨place.next.fault, ?_⟩
  unfold items
  dsimp only
  rw [if_neg hp, hnode]
  dsimp only
  rw [hstop]
  rfl

theorem items_more (hp : p.rest ≠ []) (hnode : node bound p = (value, some place))
    (hstop : place.next.rest = ',' :: r) {start : Place}
    (hstart : Place.next ⟨place.next.read + 1, r⟩ = start) (hbegins : BeginsToken start.rest)
    {list : Items} {o : Option Place} (hitems : items bound start = (list, o)) :
    ∃ f, items (bound + 1) p = (.item value f list, o) := by
  obtain ⟨c, r', hcons, -, hlist, -⟩ := hbegins
  refine ⟨start.fault, ?_⟩
  unfold items
  dsimp only
  rw [if_neg hp, hnode]
  dsimp only
  split
  · rename_i heq
    rw [hstop] at heq
    cases heq
  · rename_i r heq
    obtain rfl : r = _ := by simpa using heq.symm.trans hstop
    rw [hstart]
    split
    · rename_i heq
      rw [hcons] at heq
      cases heq
    · rename_i heq
      rw [hcons] at heq
      cases heq
      exact absurd rfl hlist
    · rw [hitems]
  · rename_i hne
    exact absurd hstop (hne _)

variable {read : Nat} {t : Text} {found : Found (Except Fault Text)}

/-- A member is read to its key and its value; what follows is the end of the table
or a comma and the other members. -/
theorem members_value (hkey : quoted (read + 1) t = .ok found) {colon : Nat} {start : Text}
    (hcolon : Place.next ⟨found.read, found.rest⟩ = ⟨colon, ':' :: start⟩)
    (hnode : node bound (Place.next ⟨colon + 1, start⟩) = (value, some place))
    {list : Members} {o : Option Place}
    (hstop : place.next.rest = '\x7d' :: r ∧ list = .ending .closed ∧ o = some ⟨place.next.read + 1, r⟩ ∨
      place.next.rest = ',' :: r ∧ members bound (Place.next ⟨place.next.read + 1, r⟩) = (list, o)) :
    ∃ key f, members (bound + 1) ⟨read, '"' :: t⟩ = (.member key value f list, o) ∧
      key.text? = found.value.toOption := by
  unfold members
  split
  · rename_i heq
    cases heq
  · rename_i heq hbound
    cases heq
    cases hbound
    rw [hkey]
    dsimp only
    split
    · rename_i heq
      rw [hcolon] at heq ⊢
      cases heq
      dsimp only
      rw [hnode]
      dsimp only
      rcases hstop with ⟨hstop, rfl, rfl⟩ | ⟨hstop, hmembers⟩
      · rw [hstop]
        exact ⟨_, _, rfl, by cases found.value <;> rfl⟩
      · split
        · rename_i heq
          rw [hstop] at heq
          cases heq
        · rename_i heq
          rw [hstop] at heq
          cases heq
          rw [hmembers]
          exact ⟨_, _, rfl, by cases found.value <;> rfl⟩
        · rename_i hne
          exact absurd hstop (hne _)
    · rename_i hne
      exact absurd (congrArg Place.rest hcolon) (hne _)
  · rename_i hne
    exact absurd rfl (hne _)

end Parts

/-! ## Reading what is written -/

/-- Whether the text of a piece is read to a node that shows it, up to where it ends. -/
def Reads (bound : Nat) (p : Piece) (t : Text) : Prop :=
  ∀ rest, Avoids isNumberChar rest → ∀ read, ∃ n read',
    node bound ⟨read, t ++ rest⟩ = (n, some ⟨read', rest⟩) ∧ Shows p n

theorem avoids_cons {c : Char} {t : Text} {p : Char → Bool} (hc : p c = false) : Avoids p (c :: t) := by
  rintro d hd
  obtain rfl : c = d := Option.some.inj hd
  exact hc

section Between

variable {p : Piece} {before text after : Text}

/-- A piece is read from between the space around it, up to the mark after it. -/
theorem Reads.between {bound : Nat} (h : Reads bound p text) (hbegins : BeginsToken text)
    (hbefore : IsGap before) (hafter : IsGap after) (mark : Char) (hnumber : isNumberChar mark = false)
    (hspace : isSpace mark = false) (rest : Text) (read : Nat) : ∃ n place,
      node bound (Place.next ⟨read, before ++ (text ++ (after ++ mark :: rest))⟩) = (n, some place) ∧
        place.next.rest = mark :: rest ∧ Shows p n := by
  obtain ⟨n, read', hnode, hshows⟩ :=
    h (after ++ mark :: rest) (hafter.avoids (avoids_cons hnumber)) (read + before.length)
  rw [next_gap hbefore (hbegins.append _).avoids]
  exact ⟨n, ⟨read', after ++ mark :: rest⟩, hnode, by rw [next_gap hafter (avoids_cons hspace)], hshows⟩

/-- A member is read to its key and its value, up to the mark after it: the brace, or a comma
and the other members. -/
theorem Reads.member {bound : Nat} {key : Option Text} {name between start : Text}
    (h : Reads bound p text) (hbegins : BeginsToken text) (hbefore : IsGap before) (hname : IsQuoted name key)
    (hbetween : IsGap between) (hstart : IsGap start) (hafter : IsGap after) (mark : Char)
    (hnumber : isNumberChar mark = false) (hspace : isSpace mark = false) (rest : Text) (read : Nat) :
    ∃ n past, Shows p n ∧ ∀ list o,
      (mark = '\x7d' ∧ list = .ending .closed ∧ o = some ⟨past, rest⟩ ∨
        mark = ',' ∧ members bound (Place.next ⟨past, rest⟩) = (list, o)) →
      ∃ k f, k.text? = key ∧ members (bound + 1) (Place.next ⟨read, before ++ '"' :: (name ++
        '"' :: (between ++ ':' :: (start ++ (text ++ (after ++ mark :: rest)))))⟩) =
          (.member k n f list, o) := by
  obtain ⟨v, colon, hkey, rfl⟩ := quoted_body hname
    (between ++ ':' :: (start ++ (text ++ (after ++ mark :: rest)))) (read + before.length + 1)
  obtain ⟨n, place, hnode, hstop, hshows⟩ :=
    h.between hbegins hstart hafter mark hnumber hspace rest (colon + between.length + 1)
  refine ⟨n, place.next.read + 1, hshows, fun list o hmore => ?_⟩
  rw [next_gap hbefore (avoids_cons rfl)]
  have hmore := hmore.imp (And.imp_left fun h => h ▸ hstop) (And.imp_left fun h => h ▸ hstop)
  obtain ⟨k, f, hmembers, hk⟩ :=
    members_value hkey (next_gap hbetween (avoids_cons rfl) colon) hnode hmore
  exact ⟨k, f, hk, hmembers⟩

theorem beginsToken_between (h : Writes p text) (hbefore : IsGap before) (rest : Text) (read : Nat) :
    BeginsToken (Place.next ⟨read, before ++ (text ++ rest)⟩).rest := by
  have hbegins := h.beginsToken.append rest
  rw [next_gap hbefore hbegins.avoids]
  exact hbegins

end Between

/-- After the space in front, items begin with a token. -/
theorem WritesItems.beginsToken {pieces : List Piece} {inside : Text} (h : WritesItems pieces inside)
    (rest : Text) (read : Nat) : BeginsToken (Place.next ⟨read, inside ++ rest⟩).rest := by
  cases h with
  | last hbefore hafter hitem =>
    rw [List.append_assoc, List.append_assoc]
    exact beginsToken_between hitem hbefore _ read
  | more hbefore hafter hitem hitems =>
    rw [List.append_assoc, List.append_assoc]
    exact beginsToken_between hitem hbefore _ read

/-- After the space in front, members begin with a quote. -/
theorem WritesMembers.beginsToken {pieces : List (Option Text × Piece)} {inside : Text}
    (h : WritesMembers pieces inside) (rest : Text) (read : Nat) :
    BeginsToken (Place.next ⟨read, inside ++ rest⟩).rest := by
  cases h with
  | last hbefore =>
    rw [List.append_assoc, List.cons_append, next_gap hbefore (avoids_cons rfl)]
    exact ⟨_, _, rfl, rfl, by decide, by decide⟩
  | more hbefore =>
    rw [List.append_assoc, List.cons_append, next_gap hbefore (avoids_cons rfl)]
    exact ⟨_, _, rfl, rfl, by decide, by decide⟩

mutual

/-- The text of a piece is read to a node that shows it. -/
theorem node_writes : ∀ {bound : Nat} {p : Piece} {t : Text}, Writes p t → 2 * t.length ≤ bound →
    Reads bound p t
  | 0, p, t, h, hbound => by
    obtain ⟨c, r, rfl, -⟩ := h.beginsToken
    cases hbound
  | bound + 1, p, t, h, hbound => by
    intro rest hrest read
    cases h with
    | null =>
      obtain ⟨f, hnode⟩ := node_null rest read
      exact ⟨_, _, hnode, .null⟩
    | bool b =>
      obtain ⟨f, hnode⟩ := node_bool b rest read
      exact ⟨_, _, hnode, .bool b⟩
    | number hn => exact node_number hn hrest read
    | string hbody =>
      rw [List.cons_append, List.append_assoc, List.singleton_append]
      exact node_string hbody rest read
    | noItems hgap =>
      rw [List.cons_append, List.append_assoc, List.singleton_append]
      obtain ⟨f, read', hnode⟩ := node_noItems hgap rest read
      exact ⟨_, _, hnode, .list .nil⟩
    | noMembers hgap =>
      rw [List.cons_append, List.append_assoc, List.singleton_append]
      obtain ⟨f, read', hnode⟩ := node_noMembers hgap rest read
      exact ⟨_, _, hnode, .table .nil⟩
    | list hitems =>
      rw [List.cons_append, List.append_assoc, List.singleton_append]
      simp only [List.length_cons, List.length_append, List.length_nil] at hbound
      obtain ⟨list, read', hread, hshows⟩ :=
        @items_writes bound _ _ hitems (by omega) rest (read + 1)
      obtain ⟨f, hnode⟩ := node_list rfl (hitems.beginsToken _ (read + 1)) hread
      exact ⟨_, _, hnode, .list hshows⟩
    | table hmembers =>
      rw [List.cons_append, List.append_assoc, List.singleton_append]
      simp only [List.length_cons, List.length_append, List.length_nil] at hbound
      obtain ⟨list, read', hread, hshows⟩ :=
        @members_writes bound _ _ hmembers (by omega) rest (read + 1)
      obtain ⟨f, hnode⟩ := node_table rfl (hmembers.beginsToken _ (read + 1)) hread
      exact ⟨_, _, hnode, .table hshows⟩

/-- The text of items is read to items that show them, up to the bracket. -/
theorem items_writes : ∀ {bound : Nat} {pieces : List Piece} {t : Text}, WritesItems pieces t →
    2 * t.length + 1 ≤ bound → ∀ rest read, ∃ list read',
      items bound (Place.next ⟨read, t ++ ']' :: rest⟩) = (list, some ⟨read', rest⟩) ∧
        ShowsItems pieces list
  | 0, pieces, t, h, hbound, rest, read => by cases hbound
  | bound + 1, pieces, t, h, hbound, rest, read => by
    have hne := (h.beginsToken (']' :: rest) read).ne_nil
    cases h with
    | last hbefore hafter hitem =>
      simp only [List.length_append] at hbound
      have hreads := @node_writes bound _ _ hitem (by omega)
      obtain ⟨n, place, hnode, hstop, hshows⟩ :=
        hreads.between hitem.beginsToken hbefore hafter ']' rfl rfl rest read
      rw [List.append_assoc, List.append_assoc] at hne ⊢
      obtain ⟨f, hitems⟩ := items_last hne hnode hstop
      exact ⟨_, _, hitems, .cons hshows .nil⟩
    | @more _ _ _ _ _ inside hbefore hafter hitem hmore =>
      simp only [List.length_append, List.length_cons] at hbound
      have hreads := @node_writes bound _ _ hitem (by omega)
      obtain ⟨n, place, hnode, hstop, hshows⟩ :=
        hreads.between hitem.beginsToken hbefore hafter ',' rfl rfl (inside ++ ']' :: rest) read
      obtain ⟨list, read', hread, htail⟩ :=
        @items_writes bound _ _ hmore (by omega) rest (place.next.read + 1)
      simp only [List.append_assoc, List.cons_append] at hne ⊢
      obtain ⟨f, hitems⟩ := items_more hne hnode hstop rfl (hmore.beginsToken _ _) hread
      exact ⟨_, _, hitems, .cons hshows htail⟩

/-- The text of members is read to members that show them, up to the brace. -/
theorem members_writes : ∀ {bound : Nat} {pieces : List (Option Text × Piece)} {t : Text},
    WritesMembers pieces t → 2 * t.length + 1 ≤ bound → ∀ rest read, ∃ list read',
      members bound (Place.next ⟨read, t ++ '\x7d' :: rest⟩) = (list, some ⟨read', rest⟩) ∧
        ShowsMembers pieces list
  | 0, pieces, t, h, hbound, rest, read => by cases hbound
  | bound + 1, pieces, t, h, hbound, rest, read => by
    cases h with
    | last hbefore hname hbetween hstart hvalue hafter =>
      simp only [List.length_append, List.length_cons] at hbound
      have hreads := @node_writes bound _ _ hvalue (by omega)
      obtain ⟨n, past, hshows, hmembers⟩ :=
        hreads.member hvalue.beginsToken hbefore hname hbetween hstart hafter '\x7d' rfl rfl rest read
      obtain ⟨k, f, rfl, hlast⟩ := hmembers _ _ (.inl ⟨rfl, rfl, rfl⟩)
      simp only [List.append_assoc, List.cons_append]
      exact ⟨_, _, hlast, .cons hshows .nil⟩
    | @more _ _ _ _ _ _ _ _ _ inside hbefore hname hbetween hstart hvalue hafter hmore =>
      simp only [List.length_append, List.length_cons] at hbound
      have hreads := @node_writes bound _ _ hvalue (by omega)
      obtain ⟨n, past, hshows, hmembers⟩ := hreads.member hvalue.beginsToken hbefore hname hbetween
        hstart hafter ',' rfl rfl (inside ++ '\x7d' :: rest) read
      obtain ⟨list, read', hread, htail⟩ := @members_writes bound _ _ hmore (by omega) rest past
      obtain ⟨k, f, rfl, hmore⟩ := hmembers _ _ (.inr ⟨rfl, hread⟩)
      simp only [List.append_assoc, List.cons_append]
      exact ⟨_, _, hmore, .cons hshows htail⟩

end

/-- A source that is a piece of JSON becomes a document that shows it, with nothing after it. -/
theorem exists_document {p : Piece} {source : Text} (h : IsSource p source) :
    ∃ n, document source = ⟨n, none⟩ ∧ Shows p n := by
  obtain ⟨before, text, after, hbefore, hwrites, hafter, rfl⟩ := h
  have hend : Avoids isNumberChar after := by
    have havoids := hafter.avoids (t := []) (by rintro c ⟨⟩)
    rwa [List.append_nil] at havoids
  have hbound : 2 * text.length ≤ 2 * (before ++ (text ++ after)).length + 2 := by
    simp only [List.length_append]
    omega
  obtain ⟨n, read', hnode, hshows⟩ := node_writes hwrites hbound after hend (0 + before.length)
  have hstop : (Place.next ⟨read', after⟩).rest = [] := by
    have hnext := next_gap hafter (t := []) (by rintro c ⟨⟩) read'
    rw [List.append_nil] at hnext
    rw [hnext]
  refine ⟨n, ?_, hshows⟩
  rw [document, next_gap hbefore (hwrites.beginsToken.append after).avoids, hnode]
  exact congrArg (Document.mk n) (if_pos hstop)

/-! ## Ways -/

/-- What a piece of JSON consists of. -/
def Piece.content : Piece → Content Piece
  | .list items => .items items
  | .table members => .members members
  | _ => .simple

/-- What a way leads to in a piece of JSON. -/
def Piece.at? (p : Piece) (way : List Step) : Option Piece := Content.at? Piece.content way p

theorem ShowsItems.forall₂ : ∀ {pieces : List Piece} {items : Items}, ShowsItems pieces items →
    List.Forall₂ Shows pieces items.nodes
  | _, _, .nil => .nil
  | _, _, .cons hhead htail => .cons hhead htail.forall₂

theorem ShowsMembers.forall₂ : ∀ {pieces : List (Option Text × Piece)} {members : Members},
    ShowsMembers pieces members →
    List.Forall₂ (fun m m' => m.1 = m'.1 ∧ Shows m.2 m'.2) pieces members.pairs
  | _, _, .nil => .nil
  | _, _, .cons hhead htail => .cons ⟨rfl, hhead⟩ htail.forall₂

/-- A node that shows a piece has corresponding parts. -/
theorem Shows.matches {p : Piece} {n : Node} (h : Shows p n) :
    Content.Matches Shows p.content n.content := by
  cases h with
  | list h => exact .items h.forall₂
  | table h => exact .members fun k a ha => Content.exists_lastAt_of_forall₂ h.forall₂ ha
  | _ => exact .simple

/-- A way into a piece leads to what shows its end in a node that shows the piece. -/
theorem Shows.exists_at? {p q : Piece} {n : Node} (h : Shows p n) {way : List Step}
    (hway : p.at? way = some q) : ∃ n', n.at? way = some n' ∧ Shows q n' :=
  Content.exists_at?_of_matches (fun _ _ => Shows.matches) h hway

end BuilderForge.Document.Json
