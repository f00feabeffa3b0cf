import BuilderForge.Proofs.Shortening
/-
  The one way in which a line of code is cut.

  `Stands` says of a piece where it may stand, by the text before it and the
  text after it: a literal runs from a quote to its first match without a
  backslash, or to the end of the line; a name is a path with a separator in
  front that follows no label, and nothing goes on with it; every other
  character is no quote and begins no name. A line splits into pieces that
  stand where they are (`IsSplit`) in one way, and this is the way it is cut:
  `isSplit_iff`.
-/

namespace BuilderForge.Php

/-! ## Literals -/

/-- What may stand between the quotes of a literal. A backslash takes the
character after it along. -/
inductive LiteralBody (quote : Char) : Text → Prop where
  | nil : LiteralBody quote []
  | plain {c : Char} {t : Text} (hquote : c ≠ quote) (hescape : c ≠ '\\') (h : LiteralBody quote t) :
    LiteralBody quote (c :: t)
  | escaped (c : Char) {t : Text} (h : LiteralBody quote t) : LiteralBody quote ('\\' :: c :: t)

/-- A literal after its opening quote, and what comes after it. -/
inductive LiteralEnd (quote : Char) : Text → Text → Prop where
  /-- The quote comes again. -/
  | closed {body : Text} (h : LiteralBody quote body) (after : Text) : LiteralEnd quote (body ++ [quote]) after
  /-- The line ends. -/
  | unclosed {body : Text} (h : LiteralBody quote body) : LiteralEnd quote body []
  /-- The line ends in a backslash that has nothing to take along. -/
  | cutShort {body : Text} (h : LiteralBody quote body) : LiteralEnd quote (body ++ ['\\']) []

theorem cutLiteral_plain {quote c : Char} (hquote : c ≠ quote) (hescape : c ≠ '\\') (t : Text) :
    cutLiteral quote (c :: t) = (c :: (cutLiteral quote t).1, (cutLiteral quote t).2) := by
  cases t with
  | nil => rfl
  | cons d t => rw [cutLiteral, if_neg hescape, if_neg hquote]

theorem cutLiteral_escaped (quote c : Char) (t : Text) : cutLiteral quote ('\\' :: c :: t) =
    ('\\' :: c :: (cutLiteral quote t).1, (cutLiteral quote t).2) := by
  rw [cutLiteral, if_pos rfl]

theorem cutLiteral_quote {quote : Char} (hquote : quote ≠ '\\') (t : Text) :
    cutLiteral quote (quote :: t) = ([quote], t) := by
  cases t with
  | nil => rfl
  | cons d t => rw [cutLiteral, if_neg hquote, if_pos rfl]

/-- The inside of a literal is passed over. -/
theorem LiteralBody.cutLiteral_append {quote : Char} {body : Text} (h : LiteralBody quote body)
    (t : Text) : cutLiteral quote (body ++ t) = (body ++ (cutLiteral quote t).1, (cutLiteral quote t).2) := by
  induction h with
  | nil => rfl
  | plain hquote hescape _ ih => rw [List.cons_append, cutLiteral_plain hquote hescape, ih]; rfl
  | escaped c _ ih => rw [List.cons_append, List.cons_append, cutLiteral_escaped, ih]; rfl

theorem LiteralEnd.cutLiteral_eq {quote : Char} (hquote : quote ≠ '\\') {body after : Text}
    (h : LiteralEnd quote body after) : cutLiteral quote (body ++ after) = (body, after) := by
  cases h with
  | closed h _ =>
    rw [List.append_assoc, h.cutLiteral_append, List.singleton_append, cutLiteral_quote hquote]
  | unclosed h =>
    rw [h.cutLiteral_append, cutLiteral, List.append_nil]
  | cutShort h =>
    rw [List.append_nil, h.cutLiteral_append, cutLiteral]

theorem LiteralEnd.cons_plain {quote c : Char} (hquote : c ≠ quote) (hescape : c ≠ '\\')
    {body after : Text} (h : LiteralEnd quote body after) : LiteralEnd quote (c :: body) after := by
  cases h with
  | closed h _ => exact .closed (.plain hquote hescape h) _
  | unclosed h => exact .unclosed (.plain hquote hescape h)
  | cutShort h => exact .cutShort (.plain hquote hescape h)

theorem LiteralEnd.cons_escaped (c : Char) {quote : Char} {body after : Text}
    (h : LiteralEnd quote body after) : LiteralEnd quote ('\\' :: c :: body) after := by
  cases h with
  | closed h _ => exact .closed (.escaped c h) _
  | unclosed h => exact .unclosed (.escaped c h)
  | cutShort h => exact .cutShort (.escaped c h)

theorem literalEnd_cutLiteral (quote : Char) (t : Text) :
    LiteralEnd quote (cutLiteral quote t).1 (cutLiteral quote t).2 := by
  fun_induction cutLiteral quote t with
  | case1 => exact .unclosed .nil
  | case2 c =>
    by_cases hquote : c = quote
    · rw [hquote]
      exact .closed .nil []
    by_cases hescape : c = '\\'
    · rw [hescape]
      exact .cutShort .nil
    · exact .unclosed (.plain hquote hescape .nil)
  | case3 d t _ _ h ih =>
    rw [h] at ih
    exact ih.cons_escaped d
  | case4 d t hescape => exact .closed .nil _
  | case5 c d t hescape hquote _ _ h ih =>
    rw [h] at ih
    exact ih.cons_plain hquote hescape

/-! ## Names -/

/-- Whether a text goes on with a name that stands before it. -/
def continuesName : Text → Bool
  | [] => false
  | c :: t => Name.isLabelChar c || (c = Name.separator && startsLabel t)

theorem startsLabel_append {s : Text} (h : startsLabel s) (t : Text) : startsLabel (s ++ t) := by
  cases s with
  | nil => cases h
  | cons c s => exact h

theorem startsLabel_of_isPath {t : Text} (h : Name.isPath t) : startsLabel t := by
  cases t with
  | nil => cases h
  | cons c t =>
    have hc : c ≠ Name.separator := by
      rintro rfl
      rw [Name.not_isPath_cons_separator] at h
      cases h
    obtain ⟨p, ps, -, hpieces⟩ := Text.pieces_cons_of_ne hc t
    rw [Name.isPath, hpieces, List.all_cons, Bool.and_eq_true, Name.isLabel, Bool.and_eq_true] at h
    exact h.1.1

/-- Characters of names are cut off together as long as a label follows each separator. -/
theorem cutName_of_linked {rest : Text} (hrest : continuesName rest = false)
    {name : Text} (hchars : ∀ c ∈ name, Name.isNameChar c)
    (hlinked : ∀ before after, name = before ++ Name.separator :: after → startsLabel after) :
    cutName (name ++ rest) = (name, rest) := by
  induction name with
  | nil =>
    cases rest with
    | nil => rfl
    | cons c rest => rw [List.nil_append, cutName, ← continuesName, hrest, if_neg (by simp)]
  | cons c name ih =>
    have hgo : (Name.isLabelChar c || (c = Name.separator && startsLabel (name ++ rest))) = true := by
      have hc := hchars c List.mem_cons_self
      rw [Name.isNameChar, Bool.or_eq_true, decide_eq_true_iff] at hc
      rcases hc with hc | rfl
      · rw [hc, Bool.true_or]
      · rw [startsLabel_append (hlinked [] name rfl) rest]
        simp
    have hname := ih (fun d hd => hchars d (List.mem_cons_of_mem c hd))
      fun before after heq => hlinked (c :: before) after (by rw [heq]; rfl)
    rw [List.cons_append, cutName, if_pos hgo, hname]

/-- A path is cut off a text that does not go on with it. -/
theorem cutName_append {name rest : Text} (hname : Name.isPath name)
    (hrest : continuesName rest = false) : cutName (name ++ rest) = (name, rest) := by
  refine cutName_of_linked hrest (fun c hc => Name.isNameChar_of_mem hname hc) ?_
  rintro before after rfl
  rw [Name.isPath_append, Bool.and_eq_true] at hname
  exact startsLabel_of_isPath hname.2

theorem continuesName_cutName (t : Text) : continuesName (cutName t).2 = false := by
  fun_induction cutName t with
  | case1 => rfl
  | case2 c t _ _ _ h ih => rwa [h] at ih
  | case3 c t h => simpa [continuesName] using h

/-- What is cut off goes on with a label before it, and is a path where a label begins. -/
theorem isPath_cutName (t : Text) :
    (∀ label, Name.isLabel label → Name.isPath (label ++ (cutName t).1)) ∧
      (startsLabel t → Name.isPath (cutName t).1) := by
  fun_induction cutName t with
  | case1 =>
    refine ⟨fun label hlabel => ?_, fun h => by cases h⟩
    rw [List.append_nil]
    exact Name.isPath_of_isLabel hlabel
  | case2 c t hgo name rest h ih =>
    rw [h] at ih
    rw [Bool.or_eq_true, Bool.and_eq_true, decide_eq_true_iff] at hgo
    constructor
    · intro label hlabel
      obtain hc | ⟨rfl, hstart⟩ := hgo
      · have hlonger : Name.isLabel (label ++ [c]) := Name.isLabel_append hlabel (by simpa using hc)
        have hpath := ih.1 _ hlonger
        rwa [List.append_assoc] at hpath
      · rw [Name.isPath_append, Bool.and_eq_true]
        exact ⟨Name.isPath_of_isLabel hlabel, ih.2 hstart⟩
    · intro hstart
      have hlabel : Name.isLabel [c] := by
        rw [Name.isLabel, Bool.and_eq_true]
        exact ⟨hstart, rfl⟩
      exact ih.1 [c] hlabel
  | case3 c t h =>
    refine ⟨fun label hlabel => ?_, fun hstart => ?_⟩
    · rw [List.append_nil]
      exact Name.isPath_of_isLabel hlabel
    · rw [Name.isLabelChar_of_isLabelStart hstart] at h
      exact absurd rfl h

/-! ## Pieces -/

/-- Whether a text ends in a character of labels. -/
def endsInLabel (t : Text) : Bool := (t.getLast?.map Name.isLabelChar).getD false

theorem endsInLabel_concat (s : Text) (c : Char) : endsInLabel (s ++ [c]) = Name.isLabelChar c := by
  rw [endsInLabel, List.getLast?_concat]
  rfl

theorem endsInLabel_append {t : Text} (hne : t ≠ []) (s : Text) :
    endsInLabel (s ++ t) = endsInLabel t := by
  obtain hnil | ⟨t, c, rfl⟩ := List.eq_nil_or_concat t
  · exact absurd hnil hne
  · rw [List.concat_eq_append, ← List.append_assoc, endsInLabel_concat, endsInLabel_concat]

theorem endsInLabel_of_isPath {t : Text} (h : Name.isPath t) : endsInLabel t := by
  obtain ⟨c, hc⟩ : ∃ c, t.getLast? = some c :=
    Option.isSome_iff_exists.1 (List.getLast?_isSome.2 (Name.ne_nil_of_isPath h))
  obtain ⟨s, rfl⟩ := List.getLast?_eq_some_iff.1 hc
  have hchar := Name.isNameChar_of_mem h (List.mem_append_right s (List.mem_singleton_self c))
  rw [Name.isNameChar, Bool.or_eq_true, decide_eq_true_iff] at hchar
  rw [endsInLabel_concat]
  refine hchar.resolve_right ?_
  rintro rfl
  -- nothing would stand behind the separator
  rw [Name.isPath_append, Bool.and_eq_true] at h
  cases h.2

/-- A name ends in a label. -/
theorem endsInLabel_name {path : Text} (h : Name.isPath path) (before : Text) :
    endsInLabel (before ++ Name.separator :: path) = true := by
  rw [List.append_cons, endsInLabel_append (Name.ne_nil_of_isPath h)]
  exact endsInLabel_of_isPath h

/-- Whether a piece may stand between two texts. -/
inductive Stands (before : Text) : Piece → Text → Prop where
  | literal {quote : Char} {body after : Text} (hquote : quote = '\'' ∨ quote = '"')
      (hend : LiteralEnd quote body after) : Stands before (.literal (quote :: body)) after
  | name {path after : Text} (hbefore : endsInLabel before = false) (hpath : Name.isPath path)
      (hafter : continuesName after = false) : Stands before (.name (Name.separator :: path)) after
  | other {c : Char} {after : Text} (hquote : ¬ (c = '\'' ∨ c = '"'))
      (hname : c = Name.separator → endsInLabel before = true ∨ startsLabel after = false) :
      Stands before (.other c) after

/-- The pieces of a text that comes after another one: each stands where it is. -/
inductive Splits : Text → Text → List Piece → Prop where
  | nil (before : Text) : Splits before [] []
  | cons {before t after : Text} {p : Piece} {ps : List Piece} (ht : t = p.source ++ after)
      (h : Stands before p after) (hps : Splits (before ++ p.source) after ps) : Splits before t (p :: ps)

/-- Whether a line is made of pieces that stand where they are. -/
def IsSplit (line : Text) (ps : List Piece) : Prop := Splits [] line ps

theorem cutPieces_nil (afterLabel : Bool) : cutPieces afterLabel [] = [] := by
  rw [cutPieces]

theorem ne_escape_of_quote {quote : Char} (h : quote = '\'' ∨ quote = '"') : quote ≠ '\\' := by
  rintro rfl
  exact absurd h (by decide)

/-- A piece is cut off where it stands, and the rest is cut as what comes after it. -/
theorem Stands.cutPieces_eq {before after : Text} {p : Piece} (h : Stands before p after) :
    cutPieces (endsInLabel before) (p.source ++ after) =
      p :: cutPieces (endsInLabel (before ++ p.source)) after := by
  cases h with
  | literal hquote hend =>
    have hcut := hend.cutLiteral_eq (ne_escape_of_quote hquote)
    rw [Piece.source, List.cons_append, cutPieces, if_pos hquote, hcut]
    cases hend with
    | closed _ _ =>
      rw [← List.cons_append, ← List.append_assoc, endsInLabel_concat]
      rcases hquote with rfl | rfl <;> rfl
    | unclosed _ => rw [cutPieces_nil, cutPieces_nil]
    | cutShort _ => rw [cutPieces_nil, cutPieces_nil]
  | @name path _ hbefore hpath hafter =>
    have hstart := startsLabel_append (startsLabel_of_isPath hpath) after
    have hquote : ¬ (Name.separator = '\'' ∨ Name.separator = '"') := by decide
    rw [Piece.source, List.cons_append, cutPieces, if_neg hquote, if_pos (by simp [hbefore, hstart]),
      cutName_append hpath hafter, endsInLabel_name hpath]
  | @other c _ hquote hname =>
    have hno : ¬ (c = Name.separator && !endsInLabel before && startsLabel after) = true := by
      rw [Bool.and_eq_true, Bool.and_eq_true, decide_eq_true_iff, Bool.not_eq_true']
      rintro ⟨⟨hc, hbefore⟩, hafter⟩
      rcases hname hc with h | h
      · rw [hbefore] at h
        cases h
      · rw [hafter] at h
        cases h
    rw [Piece.source, List.singleton_append, cutPieces, if_neg hquote, if_neg hno, endsInLabel_concat]

/-- There is no other split than the cut. -/
theorem Splits.eq_cutPieces {before t : Text} {ps : List Piece} (h : Splits before t ps) :
    ps = cutPieces (endsInLabel before) t := by
  induction h with
  | nil before => rw [cutPieces_nil]
  | cons ht h _ ih => rw [ht, h.cutPieces_eq, ← ih]

/-- The pieces that a text is cut into stand where they are. -/
theorem splits_cutPieces (afterLabel : Bool) (t : Text) : ∀ before, endsInLabel before = afterLabel →
    Splits before t (cutPieces afterLabel t) := by
  fun_induction cutPieces afterLabel t with
  | case1 => exact fun before _ => .nil before
  | case2 afterLabel quote t hquote ih =>
    intro before hbefore
    have hend := literalEnd_cutLiteral quote t
    have ht : quote :: t = (Piece.literal (quote :: (cutLiteral quote t).1)).source ++ (cutLiteral quote t).2 := by
      rw [Piece.source, List.cons_append, append_cutLiteral]
    refine .cons ht (.literal hquote hend) ?_
    generalize (cutLiteral quote t).1 = body at hend ⊢
    generalize (cutLiteral quote t).2 = rest at hend ih ⊢
    -- behind a literal that is not closed there is nothing left
    cases hend with
    | closed _ _ =>
      refine ih _ ?_
      rw [Piece.source, ← List.cons_append, ← List.append_assoc, endsInLabel_concat]
      rcases hquote with rfl | rfl <;> rfl
    | unclosed _ =>
      rw [cutPieces_nil]
      exact .nil _
    | cutShort _ =>
      rw [cutPieces_nil]
      exact .nil _
  | case3 afterLabel c t _ hname ih =>
    intro before hbefore
    rw [Bool.and_eq_true, Bool.and_eq_true, decide_eq_true_iff, Bool.not_eq_true'] at hname
    obtain ⟨⟨rfl, hlabel⟩, hstart⟩ := hname
    have hpath := (isPath_cutName t).2 hstart
    have ht : Name.separator :: t =
        (Piece.name (Name.separator :: (cutName t).1)).source ++ (cutName t).2 := by
      rw [Piece.source, List.cons_append, append_cutName]
    exact .cons ht (.name (hbefore.trans hlabel) hpath (continuesName_cutName t))
      (ih _ (endsInLabel_name hpath before))
  | case4 afterLabel c t hquote hno ih =>
    intro before hbefore
    have hother : c = Name.separator → endsInLabel before = true ∨ startsLabel t = false := by
      rintro rfl
      rw [hbefore]
      cases afterLabel with
      | true => exact .inl rfl
      | false => exact .inr (by simpa using hno)
    exact .cons rfl (.other hquote hother) (ih _ (endsInLabel_concat before c))

/-- A line splits in one way, and this is how it is cut. -/
theorem isSplit_iff {line : Text} {ps : List Piece} : IsSplit line ps ↔ ps = cutPieces false line := by
  constructor
  · exact Splits.eq_cutPieces
  · rintro rfl
    exact splits_cutPieces false line [] rfl

/-! ## Texts without quotes -/

/-- Whether a character begins neither a literal nor a name. -/
def isInert (c : Char) : Bool := c ≠ '\'' && c ≠ '"' && c ≠ Name.separator

theorem cutPieces_inert {s : Text} (hs : s.all isInert) (afterLabel : Bool) (t : Text) :
    cutPieces afterLabel (s ++ t) =
      s.map .other ++ cutPieces ((s.getLast?.map Name.isLabelChar).getD afterLabel) t := by
  induction s generalizing afterLabel with
  | nil => rfl
  | cons c s ih =>
    rw [List.all_cons, Bool.and_eq_true] at hs
    have hc : c ≠ '\'' ∧ c ≠ '"' ∧ c ≠ Name.separator := by simpa [isInert, and_assoc] using hs.1
    have hquote : ¬ (c = '\'' ∨ c = '"') := not_or.2 ⟨hc.1, hc.2.1⟩
    rw [List.cons_append, cutPieces, if_neg hquote, if_neg (by simp [hc.2.2]), ih hs.2, List.map_cons,
      List.cons_append, List.getLast?_cons]
    cases s.getLast? <;> rfl

theorem cutPieces_of_inert {s : Text} (hs : s.all isInert) (afterLabel : Bool) :
    cutPieces afterLabel s = s.map .other := by
  have h := cutPieces_inert hs afterLabel []
  rwa [List.append_nil, cutPieces, List.append_nil] at h

end BuilderForge.Php
