import BuilderForge.Manifest.Source
import BuilderForge.Proofs.JsonReading
import BuilderForge.Proofs.Skipping
/-
  Texts that are read as JSON.

  The other direction of reading: what is read up to some place is written by the
  grammar up to this place. A tree that ends in a flaw for good cannot be skipped, so
  a document that can be skipped, with nothing after it, comes from a piece of JSON
  (`exists_isSource`). With that every text that is read as a manifest is JSON
  (`Manifest.exists_isSource`), and what is proved of all pieces of JSON is proved
  of all manifests.
-/

namespace BuilderForge.Document.Json

/-! ## Numbers -/

section Numbers

variable {read : Nat} {t : Text}

theorem of_digits {found : Found Text} (h : digits read t = .ok found) :
    IsDigits found.value ∧ t = found.value ++ found.rest := by
  rw [digits] at h
  split at h
  · rename_i hne
    cases h
    exact ⟨⟨hne, (Text.isRun_takeWhile Char.isDigit t).1⟩, List.takeWhile_append_dropWhile.symm⟩
  · split at h <;> cases h

theorem of_wholeDigits {found : Found Text} (h : wholeDigits read t = .ok found) :
    IsDigits found.value ∧ (found.value.head? = some '0' → found.value = ['0']) ∧
      t = found.value ++ found.rest := by
  unfold wholeDigits at h
  split at h
  · split at h
    · cases h
    · cases h
      exact ⟨⟨by simp, by simp⟩, fun _ => rfl, rfl⟩
  · rename_i hne
    obtain ⟨hdigits, ht⟩ := of_digits h
    refine ⟨hdigits, fun hzero => ?_, ht⟩
    -- a zero with a digit after it is the other case
    obtain ⟨c, r, hcons⟩ := List.exists_cons_of_ne_nil hdigits.ne_nil
    rw [hcons] at hzero ht ⊢
    obtain rfl : c = '0' := Option.some.inj hzero
    cases r with
    | nil => rfl
    | cons d r => exact absurd ht (hne d _)

theorem of_fraction {found : Found (Option Text)} (h : fraction read t = .ok found) :
    (∀ ds, found.value = some ds → IsDigits ds) ∧
      t = (found.value.map ('.' :: ·)).getD [] ++ found.rest := by
  unfold fraction at h
  split at h
  · obtain ⟨f, hf, rfl⟩ := map_eq_ok_iff.1 h
    obtain ⟨hdigits, ht⟩ := of_digits hf
    refine ⟨?_, congrArg ('.' :: ·) ht⟩
    rintro ds ⟨⟩
    exact hdigits
  · cases h
    exact ⟨by rintro ds ⟨⟩, rfl⟩

theorem of_sign (read : Nat) (t : Text) : ∃ o : Option Char,
    (o = none ∨ o = some '+' ∨ o = some '-') ∧ t = o.toList ++ (sign read t).rest := by
  unfold sign
  split
  · exact ⟨some '-', .inr (.inr rfl), rfl⟩
  · exact ⟨some '+', .inr (.inl rfl), rfl⟩
  · exact ⟨none, .inl rfl, rfl⟩

theorem of_exponent {found : Found (Option (Bool × Text × Nat))} (h : exponent read t = .ok found) :
    ∃ o : Option Power, (∀ p, o = some p → p.IsProper) ∧
      t = (o.map Power.text).getD [] ++ found.rest := by
  unfold exponent at h
  split at h
  · rename_i c r
    split at h
    · rename_i hmark
      obtain ⟨f, hf, rfl⟩ := map_eq_ok_iff.1 h
      obtain ⟨hdigits, ht⟩ := of_digits hf
      obtain ⟨o, ho, hr⟩ := of_sign (read + 1) r
      refine ⟨some ⟨c, o, f.value⟩, ?_, ?_⟩
      · rintro p ⟨⟩
        exact ⟨hmark, ho, hdigits⟩
      · rw [ht] at hr
        rw [hr]
        simp [Power.text]
    · cases h
      exact ⟨none, by rintro p ⟨⟩, rfl⟩
  · cases h
    exact ⟨none, by rintro p ⟨⟩, rfl⟩

theorem of_unsigned {negative : Bool} {found : Found Parts} (h : unsigned negative read t = .ok found) :
    ∃ n : Number, n.IsProper ∧ n.negative = negative ∧
      t = n.whole ++ (n.fractionText ++ (n.powerText ++ found.rest)) := by
  obtain ⟨whole, hwhole, h⟩ := bind_eq_ok_iff.1 h
  obtain ⟨places, hplaces, h⟩ := bind_eq_ok_iff.1 h
  obtain ⟨power, hpower, h⟩ := bind_eq_ok_iff.1 h
  cases h
  obtain ⟨hdigits, hzero, rfl⟩ := of_wholeDigits hwhole
  obtain ⟨hfraction, hplaces⟩ := of_fraction hplaces
  obtain ⟨o, ho, hpower⟩ := of_exponent hpower
  refine ⟨⟨negative, whole.value, places.value, o⟩, ⟨hdigits, hzero, hfraction, ho⟩, rfl, ?_⟩
  rw [hplaces, hpower]
  rfl

/-- What is passed as a number is written as one. -/
theorem of_parts {found : Found Parts} (h : parts read t = .ok found) :
    ∃ n : Number, n.IsProper ∧ t = n.text ++ found.rest := by
  have key : ∃ negative read' r, unsigned negative read' r = .ok found ∧
      t = (if negative then ['-'] else []) ++ r := by
    cases t with
    | nil => exact ⟨false, read, [], h, rfl⟩
    | cons c r =>
      by_cases hc : c = '-'
      · subst hc
        exact ⟨true, read + 1, r, h, rfl⟩
      · rw [parts_of_ne hc] at h
        exact ⟨false, read, c :: r, h, rfl⟩
  obtain ⟨negative, read', r, hunsigned, rfl⟩ := key
  obtain ⟨n, hn, rfl, rfl⟩ := of_unsigned hunsigned
  refine ⟨n, hn, ?_⟩
  rw [Number.text]
  simp only [List.append_assoc]

end Numbers

/-! ## Strings -/

/-- A character that begins no escape is no backslash, as there is more text after it. -/
theorem ne_backslash {c : Char} {body rest : Text}
    (h : ∀ d r, c = '\\' → body ++ '"' :: rest = d :: r → False) : c ≠ '\\' := by
  intro hc
  cases body with
  | nil => exact h _ _ hc rfl
  | cons d body => exact h _ _ hc rfl

/-- What is skipped as a string is in order up to a quote. -/
theorem of_skipQuoted {read : Nat} {t : Text} {found : Found Unit} (h : skipQuoted read t = .ok found) :
    ∃ body, IsBody body ∧ t = body ++ '"' :: found.rest := by
  fun_induction skipQuoted read t with
  | case1 => cases h
  | case2 read a b c d r hhex ih =>
    obtain ⟨body, hbody, rfl⟩ := ih h
    exact ⟨_, .code hhex hbody, rfl⟩
  | case3 => cases h
  | case4 => cases h
  | case5 read c r hc hescape ih =>
    obtain ⟨body, hbody, rfl⟩ := ih h
    obtain ⟨e, he⟩ := Option.isSome_iff_exists.1 hescape
    exact ⟨_, .short he hbody, rfl⟩
  | case6 => cases h
  | case7 => cases h
  | case8 read t =>
    cases h
    exact ⟨[], .nil, rfl⟩
  | case9 => cases h
  | case10 read c t hescape hbackslash hend hquote hcontrol ih =>
    obtain ⟨body, hbody, rfl⟩ := ih h
    exact ⟨_, .plain hquote (ne_backslash hbackslash) (Nat.not_lt.1 hcontrol) hbody, rfl⟩

/-- Whether a stretch stands for a text; behind the first half of a surrogate pair it
begins with the second half. -/
def SpellsAfter : Option Nat → Text → Text → Prop
  | none, body, value => Spells body value
  | some first, body, value => ∃ a b c d body' value', isHex [a, b, c, d] ∧
      isTrailing (Numeral.value 16 [a, b, c, d]) ∧ Spells body' value' ∧
      body = '\\' :: 'u' :: a :: b :: c :: d :: body' ∧
      value = combine first (Numeral.value 16 [a, b, c, d]) :: value'

/-- What is read as a string spells its value up to a quote. -/
theorem of_readQuoted {leading : Option Nat} {read : Nat} {t : Text} :
    ∀ {found : Found Text}, readQuoted leading read t = .ok found →
      ∃ body, SpellsAfter leading body found.value ∧ t = body ++ '"' :: found.rest := by
  fun_induction readQuoted leading read t with
  | case1 => rintro found ⟨⟩
  | case2 read a b c d r hhex =>
    rename_i first htrailing ih
    intro found h
    obtain ⟨f, hf, rfl⟩ := map_eq_ok_iff.1 h
    obtain ⟨body, hbody, rfl⟩ := ih hf
    exact ⟨_, ⟨a, b, c, d, body, f.value, hhex, htrailing, hbody, rfl, rfl⟩, rfl⟩
  | case3 => rintro found ⟨⟩
  | case4 read a b c d r hhex =>
    rename_i hleading ih
    intro found h
    obtain ⟨body, ⟨a', b', c', d', body', value, hhex', htrailing, hbody, rfl, hvalue⟩, rfl⟩ := ih h
    rw [hvalue]
    exact ⟨_, .pair hhex hleading hhex' htrailing hbody, rfl⟩
  | case5 => rintro found ⟨⟩
  | case6 read a b c d r hhex =>
    rename_i hleading htrailing ih
    intro found h
    obtain ⟨f, hf, rfl⟩ := map_eq_ok_iff.1 h
    obtain ⟨body, hbody, rfl⟩ := ih hf
    exact ⟨_, .code hhex (Bool.not_eq_true _ ▸ hleading) (Bool.not_eq_true _ ▸ htrailing) hbody, rfl⟩
  | case7 => rintro found ⟨⟩
  | case8 => rintro found ⟨⟩
  | case9 read c t hc e hescape ih =>
    intro found h
    obtain ⟨f, hf, rfl⟩ := map_eq_ok_iff.1 h
    obtain ⟨body, hbody, rfl⟩ := ih hf
    exact ⟨_, .short hescape hbody, rfl⟩
  | case10 => rintro found ⟨⟩
  | case11 => rintro found ⟨⟩
  | case12 => rintro found ⟨⟩
  | case13 leading read t hleading =>
    obtain rfl : leading = none := by simpa using hleading
    rintro found ⟨⟩
    exact ⟨[], .nil, rfl⟩
  | case14 => rintro found ⟨⟩
  | case15 leading read c t hescape hbackslash hend hleading hquote hcontrol ih =>
    obtain rfl : leading = none := by simpa using hleading
    intro found h
    obtain ⟨f, hf, rfl⟩ := map_eq_ok_iff.1 h
    obtain ⟨body, hbody, rfl⟩ := ih hf
    exact ⟨_, .plain hquote (ne_backslash hbackslash) (Nat.not_lt.1 hcontrol) hbody, rfl⟩

/-- What is passed as a string is written as one, with the value that is found. -/
theorem of_quoted {read : Nat} {t : Text} {found : Found (Except Fault Text)}
    (h : quoted read t = .ok found) :
    ∃ body, IsQuoted body found.value.toOption ∧ t = body ++ '"' :: found.rest := by
  unfold quoted at h
  split at h
  · rename_i hread
    cases h
    obtain ⟨body, hbody, ht⟩ := of_readQuoted hread
    refine ⟨body, ⟨hbody.isBody, fun t' => ⟨?_, fun h' => ?_⟩⟩, ht⟩
    · rintro ⟨⟩
      exact hbody
    · exact congrArg some (hbody.eq h')
  · rename_i hread hskip
    cases h
    obtain ⟨body, hbody, ht⟩ := of_skipQuoted hskip
    refine ⟨body, ⟨hbody, fun t' => ⟨by rintro ⟨⟩, fun h' => ?_⟩⟩, ht⟩
    obtain ⟨read', hread'⟩ := readQuoted_spells h' _ read
    rw [ht, hread'] at hread
    cases hread
  · cases h

/-! ## Flaws -/

/-- Whether a flaw cannot be skipped. -/
def IsFatal (flaw : Flaw) : Prop := ∃ f, flaw.skipping = some f

/-- Nobody passes over a flaw that is fatal. -/
theorem skip_ne_ok {f : Fault} {flaw : Flaw} (h : IsFatal flaw) : (Node.flawed f flaw).skip ≠ .ok () := by
  obtain ⟨reading, skipping⟩ := flaw
  obtain ⟨g, rfl⟩ : ∃ g, skipping = some g := h
  rintro ⟨⟩

section Flaws

variable {read : Nat} {t : Text} {flaw : Flaw}

theorem isFatal_digits (h : digits read t = .error flaw) : IsFatal flaw := by
  rw [digits] at h
  split at h
  · cases h
  · split at h <;> (cases h; exact ⟨_, rfl⟩)

theorem isFatal_wholeDigits (h : wholeDigits read t = .error flaw) : IsFatal flaw := by
  unfold wholeDigits at h
  split at h
  · split at h
    · cases h
      exact ⟨_, rfl⟩
    · cases h
  · exact isFatal_digits h

theorem map_eq_error_iff {ε α β : Type} {x : Except ε α} {f : α → β} {e : ε} :
    x.map f = .error e ↔ x = .error e := by
  cases x with
  | ok a => simp [Except.map]
  | error e => simp [Except.map]

theorem isFatal_fraction (h : fraction read t = .error flaw) : IsFatal flaw := by
  unfold fraction at h
  split at h
  · exact isFatal_digits (map_eq_error_iff.1 h)
  · cases h

theorem isFatal_exponent (h : exponent read t = .error flaw) : IsFatal flaw := by
  unfold exponent at h
  split at h
  · split at h
    · exact isFatal_digits (map_eq_error_iff.1 h)
    · cases h
  · cases h

/-- A number that is not in order is not even skipped. -/
theorem isFatal_parts (h : parts read t = .error flaw) : IsFatal flaw := by
  obtain ⟨negative, read', r, hunsigned⟩ :
      ∃ negative read' r, unsigned negative read' r = .error flaw := by
    cases t with
    | nil => exact ⟨false, read, [], h⟩
    | cons c r =>
      by_cases hc : c = '-'
      · subst hc
        exact ⟨true, read + 1, r, h⟩
      · rw [parts_of_ne hc] at h
        exact ⟨false, read, c :: r, h⟩
  rw [unsigned] at hunsigned
  cases hwhole : wholeDigits read' r with
  | error e =>
    rw [hwhole] at hunsigned
    cases hunsigned
    exact isFatal_wholeDigits hwhole
  | ok whole =>
    rw [hwhole] at hunsigned
    cases hplaces : fraction whole.read whole.rest with
    | error e =>
      simp only [bind, Except.bind, hplaces] at hunsigned
      cases hunsigned
      exact isFatal_fraction hplaces
    | ok places =>
      cases hpower : exponent places.read places.rest with
      | error e =>
        simp only [bind, Except.bind, hplaces, hpower] at hunsigned
        cases hunsigned
        exact isFatal_exponent hpower
      | ok power =>
        simp only [bind, Except.bind, hplaces, hpower] at hunsigned
        cases hunsigned

theorem isFatal_quoted (h : quoted read t = .error flaw) : IsFatal flaw := by
  unfold quoted at h
  split at h
  · cases h
  · cases h
  · cases h
    exact ⟨_, rfl⟩

end Flaws

/-! ## Nodes -/

theorem exists_gap (p : Place) : ∃ gap, IsGap gap ∧ p.rest = gap ++ p.next.rest :=
  ⟨p.rest.takeWhile isSpace, (Text.isRun_takeWhile isSpace p.rest).all,
    List.takeWhile_append_dropWhile.symm⟩

theorem of_word : ∀ {w : Text} {read : Nat} {t : Text} {found : Found Unit}, word read w t = .ok found →
    t = w ++ found.rest
  | [], read, t, found, h => by
    cases h
    rfl
  | c :: w, read, [], found, h => by cases h
  | c :: w, read, d :: t, found, h => by
    rw [word] at h
    split at h
    · rename_i hcd
      rw [hcd, of_word h]
      rfl
    · cases h

/-- Whether the text up to a place is a piece of JSON. -/
def EndsPiece (t : Text) (o : Option Place) : Prop :=
  ∃ place p text, o = some place ∧ Writes p text ∧ t = text ++ place.rest

section Leaves

variable {p : Place} {n : Node} {o : Option Place}

theorem of_quotedNode (h : quotedNode p = (n, o)) (hskip : n.skip = .ok ()) :
    EndsPiece ('"' :: p.rest) o := by
  have key {found : Found (Except Fault Text)} (hfound : quoted p.read p.rest = .ok found) :
      EndsPiece ('"' :: p.rest) (some ⟨found.read, found.rest⟩) := by
    obtain ⟨body, hbody, hrest⟩ := of_quoted hfound
    refine ⟨_, _, _, rfl, .string hbody, ?_⟩
    rw [hrest, List.cons_append, List.append_assoc]
    rfl
  unfold quotedNode at h
  split at h
  · rename_i hfound
    cases h
    exact key hfound
  · rename_i hfound
    cases h
    exact key hfound
  · rename_i hflaw
    cases h
    exact absurd hskip (skip_ne_ok (isFatal_quoted hflaw))

theorem of_numberNode (h : numberNode p = (n, o)) (hskip : n.skip = .ok ()) : EndsPiece p.rest o := by
  unfold numberNode at h
  split at h
  · rename_i hflaw
    cases h
    exact absurd hskip (skip_ne_ok (isFatal_parts hflaw))
  · rename_i found hfound
    obtain ⟨number, hnumber, hrest⟩ := of_parts hfound
    split at h
    · cases h
      exact ⟨_, _, _, rfl, .number hnumber, hrest⟩
    · cases h
      exact ⟨_, _, _, rfl, .number hnumber, hrest⟩

theorem of_nullNode (h : nullNode p = (n, o)) (hskip : n.skip = .ok ()) : EndsPiece p.rest o := by
  unfold nullNode at h
  split at h
  · rename_i hword
    cases h
    exact ⟨_, _, _, rfl, .null, of_word hword⟩
  · cases h
    cases hskip

theorem of_boolNode {b : Bool} (h : boolNode p (if b then "true" else "false") b = (n, o))
    (hskip : n.skip = .ok ()) : EndsPiece p.rest o := by
  unfold boolNode at h
  split at h
  · rename_i hword
    cases h
    refine ⟨_, _, _, rfl, .bool b, ?_⟩
    have hrest := of_word hword
    cases b <;> exact hrest
  · cases h
    exact absurd hskip (skip_ne_ok ⟨_, rfl⟩)

end Leaves

/-- Space in front belongs to the first item. -/
theorem WritesItems.gap {pieces : List Piece} {gap t : Text} (hgap : IsGap gap)
    (h : WritesItems pieces t) :
    WritesItems pieces (gap ++ t) := by
  have happend {before : Text} (hbefore : IsGap before) : IsGap (gap ++ before) :=
    fun c hc => (List.mem_append.1 hc).elim (hgap c) (hbefore c)
  cases h with
  | last hbefore hafter hitem =>
    rw [← List.append_assoc]
    exact .last (happend hbefore) hafter hitem
  | more hbefore hafter hitem hitems =>
    rw [← List.append_assoc]
    exact .more (happend hbefore) hafter hitem hitems

/-- Space in front belongs to the first member. -/
theorem WritesMembers.gap {pieces : List (Option Text × Piece)} {gap t : Text} (hgap : IsGap gap)
    (h : WritesMembers pieces t) : WritesMembers pieces (gap ++ t) := by
  have happend {before : Text} (hbefore : IsGap before) : IsGap (gap ++ before) :=
    fun c hc => (List.mem_append.1 hc).elim (hgap c) (hbefore c)
  cases h with
  | last hbefore hname hbetween hstart hvalue hafter =>
    rw [← List.append_assoc]
    exact .last (happend hbefore) hname hbetween hstart hvalue hafter
  | more hbefore hname hbetween hstart hvalue hafter hmembers =>
    rw [← List.append_assoc]
    exact .more (happend hbefore) hname hbetween hstart hvalue hafter hmembers

theorem skip_item {value : Node} {after : Fault} {rest : Items}
    (h : (Items.item value after rest).skip = .ok ()) : value.skip = .ok () ∧ rest.skip = .ok () := by
  obtain ⟨⟨⟩, hvalue, hrest⟩ := bind_eq_ok_iff.1 h
  exact ⟨hvalue, hrest⟩

theorem skip_member {key : Key} {value : Node} {after : Fault} {rest : Members}
    (h : (Members.member key value after rest).skip = .ok ()) :
    value.skip = .ok () ∧ rest.skip = .ok () := by
  obtain ⟨⟨⟩, hvalue, hrest⟩ := bind_eq_ok_iff.1 h
  exact ⟨hvalue, hrest⟩

mutual

/-- What is read as a node, and can be skipped, is written as a piece of JSON. -/
theorem of_node : ∀ {bound : Nat} {p : Place} {n : Node} {o : Option Place}, node bound p = (n, o) →
    n.skip = .ok () → EndsPiece p.rest o
  | 0, p, n, o, h, hskip => by
    cases h
    exact absurd hskip (skip_ne_ok ⟨_, rfl⟩)
  | bound + 1, ⟨read, []⟩, n, o, h, hskip => by
    cases h
    exact absurd hskip (skip_ne_ok ⟨_, rfl⟩)
  | bound + 1, ⟨read, c :: t⟩, n, o, h, hskip => by
    unfold node at h
    dsimp only at h
    split at h
    · rename_i hc
      subst hc
      exact of_quotedNode h hskip
    split at h
    · exact of_numberNode h hskip
    split at h
    · exact of_nullNode h hskip
    split at h
    · exact of_boolNode (b := true) h hskip
    split at h
    · exact of_boolNode (b := false) h hskip
    obtain ⟨gap, hgap, ht⟩ := exists_gap ⟨read + 1, t⟩
    dsimp only at ht
    split at h
    · rename_i hc
      subst hc
      split at h
      · rename_i r hclosed
        cases h
        refine ⟨_, _, _, rfl, .noItems hgap, ?_⟩
        rw [ht, hclosed, List.cons_append, List.append_assoc]
        rfl
      · cases h
        obtain ⟨place, pieces, inside, ho, hwrites, hinside⟩ := of_items rfl hskip
        refine ⟨place, _, _, ho, .list (hwrites.gap hgap), ?_⟩
        rw [ht, hinside]
        simp
    split at h
    · rename_i hc
      subst hc
      split at h
      · rename_i r hclosed
        cases h
        refine ⟨_, _, _, rfl, .noMembers hgap, ?_⟩
        rw [ht, hclosed, List.cons_append, List.append_assoc]
        rfl
      · cases h
        obtain ⟨place, pieces, inside, ho, hwrites, hinside⟩ := of_members rfl hskip
        refine ⟨place, _, _, ho, .table (hwrites.gap hgap), ?_⟩
        rw [ht, hinside]
        simp
    · cases h
      exact absurd hskip (skip_ne_ok ⟨_, rfl⟩)

/-- What is read as items, and can be skipped, is written as items up to a bracket. -/
theorem of_items : ∀ {bound : Nat} {p : Place} {list : Items} {o : Option Place},
    items bound p = (list, o) → list.skip = .ok () → ∃ place pieces inside,
      o = some place ∧ WritesItems pieces inside ∧ p.rest = inside ++ ']' :: place.rest
  | 0, p, list, o, h, hskip => by
    cases h
    cases hskip
  | bound + 1, p, list, o, h, hskip => by
    unfold items at h
    dsimp only at h
    split at h
    · cases h
      cases hskip
    split at h
    · rename_i value hnode
      cases h
      obtain ⟨place, _, _, ho, -⟩ := of_node hnode (skip_item hskip).1
      cases ho
    rename_i value place hnode
    obtain ⟨after, hafter, hplace⟩ := exists_gap place
    split at h
    · rename_i r hstop
      cases h
      obtain ⟨_, piece, text, ⟨⟩, hwrites, hrest⟩ := of_node hnode (skip_item hskip).1
      refine ⟨_, _, _, rfl, .last isGap_nil hafter hwrites, ?_⟩
      rw [hrest, hplace, hstop]
      simp
    · rename_i r hstop
      obtain ⟨before, hbefore, hr⟩ := exists_gap ⟨place.next.read + 1, r⟩
      dsimp only at hr
      split at h
      · cases h
        cases (skip_item hskip).2
      · cases h
        cases (skip_item hskip).2
      · cases h
        obtain ⟨_, piece, text, ⟨⟩, hwrites, hrest⟩ := of_node hnode (skip_item hskip).1
        obtain ⟨last, pieces, inside, ho, hmore, hinside⟩ := of_items rfl (skip_item hskip).2
        refine ⟨last, _, _, ho, .more isGap_nil hafter hwrites (hmore.gap hbefore), ?_⟩
        rw [hrest, hplace, hstop, hr, hinside]
        simp
    · cases h
      cases (skip_item hskip).2

/-- What is read as members, and can be skipped, is written as members up to a brace. -/
theorem of_members : ∀ {bound : Nat} {p : Place} {list : Members} {o : Option Place},
    members bound p = (list, o) → list.skip = .ok () → ∃ place pieces inside,
      o = some place ∧ WritesMembers pieces inside ∧ p.rest = inside ++ '\x7d' :: place.rest
  | 0, p, list, o, h, hskip => by
    cases h
    cases hskip
  | bound + 1, p, list, o, h, hskip => by
    unfold members at h
    split at h
    · rename_i heq
      cases heq
    · rename_i bound' t heq hquote
      cases heq
      split at h
      · rename_i flaw hflaw
        cases h
        obtain ⟨reading, skipping⟩ := flaw
        obtain ⟨f, rfl⟩ : ∃ f, skipping = some f := isFatal_quoted hflaw
        cases hskip
      · rename_i found hfound
        obtain ⟨name, hname, ht⟩ := of_quoted hfound
        obtain ⟨between, hbetween, hcolon⟩ := exists_gap ⟨found.read, found.rest⟩
        dsimp only at h hcolon
        split at h
        · rename_i r hr
          obtain ⟨start, hstart, hvalue⟩ := exists_gap ⟨(Place.next ⟨found.read, found.rest⟩).read + 1, r⟩
          dsimp only at hvalue
          split at h
          · rename_i value hnode
            cases h
            obtain ⟨place, _, _, ho, -⟩ := of_node hnode (skip_member hskip).1
            cases ho
          rename_i value place hnode
          obtain ⟨after, hafter, hplace⟩ := exists_gap place
          split at h
          · rename_i r' hstop
            cases h
            obtain ⟨_, piece, text, ⟨⟩, hwrites, hrest⟩ := of_node hnode (skip_member hskip).1
            refine ⟨_, _, _, rfl, .last isGap_nil hname hbetween hstart hwrites hafter, ?_⟩
            rw [hquote, ht, hcolon, hr, hvalue, hrest, hplace, hstop]
            simp
          · rename_i r' hstop
            obtain ⟨before, hbefore, hr'⟩ := exists_gap ⟨place.next.read + 1, r'⟩
            dsimp only at hr'
            cases h
            obtain ⟨_, piece, text, ⟨⟩, hwrites, hrest⟩ := of_node hnode (skip_member hskip).1
            obtain ⟨last, pieces, inside, ho, hmore, hinside⟩ := of_members rfl (skip_member hskip).2
            refine ⟨last, _, _, ho, .more isGap_nil hname hbetween hstart hwrites hafter
              (hmore.gap hbefore), ?_⟩
            rw [hquote, ht, hcolon, hr, hvalue, hrest, hplace, hstop, hr', hinside]
            simp
          · cases h
            cases (skip_member hskip).2
        · cases h
          exact absurd (skip_member hskip).1 (skip_ne_ok ⟨_, rfl⟩)
    · cases h
      cases hskip

end

/-! ## Sources -/

/-- A text whose document can be skipped, with nothing after it, is a piece of JSON. -/
theorem exists_isSource {source : Text} (hskip : (document source).root.skip = .ok ())
    (htrailing : (document source).trailing = none) : ∃ p, IsSource p source := by
  obtain ⟨before, hbefore, hsource⟩ := exists_gap ⟨0, source⟩
  dsimp only at hsource
  unfold document at hskip htrailing
  dsimp only at hskip htrailing
  split at hskip
  · rename_i hnode
    obtain ⟨place, _, _, ho, -⟩ := of_node hnode hskip
    cases ho
  · rename_i root place hnode
    obtain ⟨_, p, text, ⟨⟩, hwrites, hrest⟩ := of_node hnode hskip
    rw [hnode] at htrailing
    dsimp only at htrailing
    split at htrailing
    · rename_i hend
      obtain ⟨after, hafter, hplace⟩ := exists_gap place
      rw [hend, List.append_nil] at hplace
      exact ⟨p, before, text, after, hbefore, hwrites, hafter, by rw [hsource, hrest, hplace]⟩
    · cases htrailing

end BuilderForge.Document.Json

namespace BuilderForge

open Document.Json (IsSource)

theorem Manifest.ofDocument_of_parse {source : Text} {m : Manifest} (h : parse .json source = .ok m) :
    ofDocument .json (Document.Json.document source) = .ok m := by
  unfold parse at h
  dsimp only at h
  cases hread : ofDocument .json (Document.Json.document source) with
  | ok m' =>
    rw [hread] at h
    cases h
    rfl
  | error f =>
    rw [hread] at h
    cases h

/-- Every text that is read as a JSON manifest is a piece of JSON. -/
theorem Manifest.exists_isSource {source : Text} {m : Manifest} (h : parse .json source = .ok m) :
    ∃ p, IsSource p source := by
  obtain ⟨hskip, htrailing⟩ := skip_of_ofDocument (ofDocument_of_parse h)
  exact Document.Json.exists_isSource hskip htrailing

/-- What stands in the value of a default is read at its place: a way into the piece that
the source is leads to the same place in the value. -/
theorem Manifest.exists_at?_defaultValue? {source : Text} {m : Manifest} (h : parse .json source = .ok m)
    {p q : Document.Json.Piece} (hp : IsSource p source) {i j k : Nat} {way : List Step}
    (hway : p.at? (defaultWay i j k ++ way) = some q) :
    ∃ v v' n, m.defaultValue? i j k = some v ∧ v.at? way = some v' ∧ Document.Json.Shows q n ∧
      n.asValue = .ok v' := by
  obtain ⟨root, hdocument, hshows⟩ := Document.Json.exists_document hp
  have hread := ofDocument_of_parse h
  rw [hdocument] at hread
  obtain ⟨n, hn, hq⟩ := hshows.exists_at? hway
  rw [Document.Node.at?, Content.at?_append] at hn
  obtain ⟨c, hc, hn⟩ := Option.bind_eq_some_iff.1 hn
  obtain ⟨v, hv, hasValue⟩ := exists_defaultValue? hread hc
  obtain ⟨v', hv', hn'⟩ := exists_at?_of_asValue hasValue hn
  exact ⟨v, v', n, hv, hv', hq, hn'⟩

/-! ## Manifests with one default -/

section OneDefault

open Document.Json (Piece Writes IsQuoted isPlain isQuoted_of_isPlain memberText)

/-- A manifest with one parameter, whose default has a value. -/
def Manifest.withDefault (p : Piece) : Piece :=
  .table [(some "entities".toList, .list [.table [
    (some "name".toList, .string (some "Foo".toList)),
    (some "methods".toList, .list [.table [
      (some "name".toList, .string (some "setBar".toList)),
      (some "params".toList, .list [.table [
        (some "name".toList, .string (some "bar".toList)),
        (some "default".toList, .table [(some "value".toList, p)])]])]])]])]

/-- The text of a manifest with one parameter, whose default has the value of a text. -/
def Manifest.textWithDefault (t : Text) : Text :=
  let value := braces (memberText "value".toList t)
  let param := braces (memberText "name".toList (quotes "bar".toList) ++
    ',' :: memberText "default".toList value)
  let method := braces (memberText "name".toList (quotes "setBar".toList) ++
    ',' :: memberText "params".toList (brackets param))
  let entity := braces (memberText "name".toList (quotes "Foo".toList) ++
    ',' :: memberText "methods".toList (brackets method))
  braces (memberText "entities".toList (brackets entity))
where
  braces (t : Text) : Text := '\x7b' :: (t ++ ['\x7d'])
  brackets (t : Text) : Text := '[' :: (t ++ [']'])
  quotes (t : Text) : Text := '"' :: (t ++ ['"'])

theorem Manifest.at?_withDefault (p : Piece) : (withDefault p).at? (defaultWay 0 0 0) = some p := rfl

/-- A table with a name and one more member. -/
theorem writes_named {p : Piece} {n k t : Text} (hn : n.all isPlain) (hk : k.all isPlain) (h : Writes p t) :
    Writes (.table [(some "name".toList, .string (some n)), (some k, p)])
      ('\x7b' :: (memberText "name".toList ('"' :: (n ++ ['"'])) ++ ',' :: memberText k t ++ ['\x7d'])) := by
  have hname : IsQuoted "name".toList (some "name".toList) := isQuoted_of_isPlain (by decide)
  exact .table ((Writes.string (isQuoted_of_isPlain hn)).memberComma hname (h.member (isQuoted_of_isPlain hk)))

theorem Manifest.isSource_textWithDefault {p : Piece} {t : Text} (h : Writes p t) :
    IsSource (withDefault p) (textWithDefault t) := by
  have hvalue := Writes.table (h.member (isQuoted_of_isPlain (t := "value".toList) (by decide)))
  have hparam := writes_named (n := "bar".toList) (k := "default".toList) (by decide) (by decide) hvalue
  have hmethod := writes_named (n := "setBar".toList) (k := "params".toList) (by decide) (by decide)
    (.list hparam.single)
  have hentity := writes_named (n := "Foo".toList) (k := "methods".toList) (by decide) (by decide)
    (.list hmethod.single)
  have hentities : IsQuoted "entities".toList (some "entities".toList) := isQuoted_of_isPlain (by decide)
  exact (Writes.table ((Writes.list hentity.single).member hentities)).isSource

end OneDefault

end BuilderForge
