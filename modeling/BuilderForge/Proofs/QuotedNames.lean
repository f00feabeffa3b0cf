import BuilderForge.Manifest.Source
import BuilderForge.Proofs.Texts
import BuilderForge.Proofs.Utf8
import Mathlib.Data.List.Basic
/-
  Where the labels of a report point.

  A name is looked for between quotes, in three ways (`IsQuoting`), and each
  search goes on behind what it found. `mem_occurrences` says that a search
  finds the pattern only where it stands, `exists_occurrence` that nothing
  stands before the first one it finds. The places of the three searches are
  put together by their offsets alone. This loses nothing: a name and the name
  with its backslashes doubled do not both stand behind one quote
  (`IsQuoted.eq_of_offset`), so the places are the places found, in the order
  of the text (`mem_places_iff`, `pairwise_places`).

  Which name a report is about is read off its violation (`Concerns`): the name
  that is not as it should be, or the parameter that a method cannot have.
-/

namespace BuilderForge

namespace Text

/-- Whether a text stands in another one at an offset. -/
def StandsAt (s : Text) (offset : Nat) (t : Text) : Prop :=
  ∃ before after, t = before ++ (s ++ after) ∧ byteSize before = offset

theorem StandsAt.cons {s t : Text} {offset : Nat} (h : StandsAt s offset t) (c : Char) :
    StandsAt s (c.utf8Size + offset) (c :: t) := by
  obtain ⟨before, after, rfl, rfl⟩ := h
  exact ⟨c :: before, after, rfl, rfl⟩

/-- As many bytes of a text are one beginning of it. -/
theorem eq_of_byteSize_eq {s s' t t' : Text} (h : s ++ t = s' ++ t') (hsize : byteSize s = byteSize s') :
    s = s' ∧ t = t' := by
  have hdrop := dropBytes?_append s t
  rw [h, hsize, dropBytes?_append, Option.some_inj] at hdrop
  subst hdrop
  exact ⟨List.append_cancel_right h, rfl⟩

end Text

/-- Whether a span of a source is a text: the span lies in the source, and cuts
no character in two. -/
def Span.Reads (s : Span) (source t : Text) : Prop :=
  Text.StandsAt t s.offset source ∧ Text.byteSize t = s.length

/-- A span of a source is one text. -/
theorem Span.Reads.eq {s : Span} {source t t' : Text} (h : s.Reads source t) (h' : s.Reads source t') :
    t = t' := by
  obtain ⟨⟨before, after, rfl, hbefore⟩, hlength⟩ := h
  obtain ⟨⟨before', after', hsource, hbefore'⟩, hlength'⟩ := h'
  obtain ⟨rfl, hrest⟩ := Text.eq_of_byteSize_eq hsource (hbefore.trans hbefore'.symm)
  exact (Text.eq_of_byteSize_eq hrest (hlength.trans hlength'.symm)).1

namespace Label

/-! ## One search -/

/-- A search finds a pattern where it stands. -/
theorem mem_occurrences {pattern t : Text} {covered offset o : Nat}
    (h : o ∈ occurrences pattern covered offset t) : ∃ n, o = offset + n ∧ Text.StandsAt pattern n t := by
  -- what is found behind the first character stands behind it
  have hbehind {c : Char} {t : Text} {offset : Nat}
      (h : ∃ n, o = offset + c.utf8Size + n ∧ Text.StandsAt pattern n t) :
      ∃ n, o = offset + n ∧ Text.StandsAt pattern n (c :: t) := by
    obtain ⟨n, ho, hstands⟩ := h
    exact ⟨c.utf8Size + n, by rw [ho, Nat.add_assoc], hstands.cons c⟩
  fun_induction occurrences pattern covered offset t with
  | case1 => cases h
  | case2 offset c t n ih => exact hbehind (ih h)
  | case3 offset c t hprefix ih =>
    rcases List.mem_cons.1 h with rfl | h
    · obtain ⟨after, ht⟩ := List.isPrefixOf_iff_prefix.1 hprefix
      exact ⟨0, rfl, [], after, ht.symm, rfl⟩
    · exact hbehind (ih h)
  | case4 offset c t hprefix ih => exact hbehind (ih h)

/-- A pattern does not stand before the first place where a search finds it. -/
theorem exists_occurrence {pattern t : Text} {n : Nat} (hpattern : pattern ≠ [])
    (h : Text.StandsAt pattern n t) (offset : Nat) :
    ∃ o ∈ occurrences pattern 0 offset t, o ≤ offset + n := by
  obtain ⟨before, after, rfl, rfl⟩ := h
  induction before generalizing offset with
  | nil =>
    obtain ⟨c, rest, rfl⟩ := List.exists_cons_of_ne_nil hpattern
    refine ⟨offset, ?_, Nat.le_refl _⟩
    have hprefix : (c :: rest).isPrefixOf (c :: (rest ++ after)) :=
      List.isPrefixOf_iff_prefix.2 (List.prefix_append (c :: rest) after)
    rw [List.nil_append, List.cons_append, occurrences, if_pos hprefix]
    exact List.mem_cons_self
  | cons c before ih =>
    rw [List.cons_append, occurrences]
    split
    · exact ⟨offset, List.mem_cons_self, Nat.le_add_right _ _⟩
    · obtain ⟨o, ho, hle⟩ := ih (offset + c.utf8Size)
      exact ⟨o, ho, by rwa [Text.byteSize, ← Nat.add_assoc]⟩

/-! ## Ways of quoting -/

/-- Texts, each with the text that has two backslashes for each one in it. -/
inductive Doubles : Text → Text → Prop where
  | nil : Doubles [] []
  | backslash {t inner : Text} (h : Doubles t inner) : Doubles ('\\' :: t) ('\\' :: '\\' :: inner)
  | other {c : Char} {t inner : Text} (hc : c ≠ '\\') (h : Doubles t inner) :
    Doubles (c :: t) (c :: inner)

theorem doubled_backslash (t : Text) : doubled ('\\' :: t) = '\\' :: '\\' :: doubled t := rfl

theorem doubled_cons {c : Char} (hc : c ≠ '\\') (t : Text) : doubled (c :: t) = c :: doubled t := by
  rw [doubled, List.flatMap_cons, if_neg hc]
  rfl

theorem doubles_iff {t inner : Text} : Doubles t inner ↔ doubled t = inner := by
  constructor
  · intro h
    induction h with
    | nil => rfl
    | backslash _ ih => rw [doubled_backslash, ih]
    | other hc _ ih => rw [doubled_cons hc, ih]
  · rintro rfl
    induction t with
    | nil => exact .nil
    | cons c t ih =>
      by_cases hc : c = '\\'
      · rw [hc, doubled_backslash]
        exact .backslash ih
      · rw [doubled_cons hc]
        exact .other hc ih

/-- How a name is quoted: which quotes, and what stands between them. -/
inductive IsQuoting (name : Text) : Char → Text → Prop where
  | double : IsQuoting name '"' name
  | escaped {inner : Text} (h : Doubles name inner) : IsQuoting name '"' inner
  | single : IsQuoting name '\'' name

theorem IsQuoting.utf8Size {name inner : Text} {quote : Char} (h : IsQuoting name quote inner) :
    quote.utf8Size = 1 := by
  cases h <;> rfl

end Label

/-- Whether a span of a source is a name as it is quoted, and lies between the
quotes; it begins a byte behind those before the quotes. -/
def Span.IsQuoted (s : Span) (name source : Text) : Prop :=
  ∃ quote inner, Label.IsQuoting name quote inner ∧ s.length = (Text.encode inner).length ∧
    ∃ before after, source = before ++ (quote :: inner ++ quote :: after) ∧
      s.offset = (Text.encode before).length + 1

theorem Span.isQuoted_iff {s : Span} {name source : Text} : s.IsQuoted name source ↔
    ∃ quote inner, Label.IsQuoting name quote inner ∧ s.length = Text.byteSize inner ∧
      ∃ before after, source = before ++ (quote :: inner ++ quote :: after) ∧
        s.offset = Text.byteSize before + 1 := by
  simp only [IsQuoted, Text.length_encode]

namespace Label

/-- Between quotes a search finds what is quoted. -/
theorem mem_quotedSpans {name inner source : Text} {quote : Char} (hquoting : IsQuoting name quote inner)
    {s : Span} (h : s ∈ quotedSpans quote inner source) : s.IsQuoted name source := by
  obtain ⟨o, ho, rfl⟩ := List.mem_map.1 h
  obtain ⟨n, rfl, before, after, rfl, hbefore⟩ := mem_occurrences ho
  refine Span.isQuoted_iff.2 ⟨quote, inner, hquoting, rfl, before, after, by simp, ?_⟩
  rw [hbefore, Nat.zero_add]

/-- Nothing that is quoted in one way stands before the first place where a search finds it. -/
theorem exists_quotedSpan {inner source : Text} {quote : Char} {n : Nat}
    (h : Text.StandsAt (quote :: inner ++ [quote]) n source) :
    ∃ s ∈ quotedSpans quote inner source, s.offset ≤ n + 1 := by
  obtain ⟨o, ho, hle⟩ := exists_occurrence (by simp) h 0
  rw [Nat.zero_add] at hle
  exact ⟨_, List.mem_map_of_mem ho, Nat.succ_le_succ hle⟩

/-- Doubling makes the run of backslashes at the start of a text twice as long. -/
theorem length_takeWhile_doubled {quote : Char} (hquote : quote ≠ '\\') (name after after' : Text) :
    ((doubled name ++ quote :: after).takeWhile (· = '\\')).length =
      2 * ((name ++ quote :: after').takeWhile (· = '\\')).length := by
  induction name with
  | nil => simp [doubled, hquote]
  | cons c name ih =>
    by_cases hc : c = '\\'
    · rw [hc, doubled_backslash]
      simp [ih]
      omega
    · rw [doubled_cons hc]
      simp [hc]

/-- A name and the name with its backslashes doubled do not both stand before a
quote, unless there are none. -/
theorem doubled_eq_self {quote : Char} (hquote : quote ≠ '\\') {name after after' : Text}
    (h : name ++ quote :: after = doubled name ++ quote :: after') : doubled name = name := by
  induction name with
  | nil => rfl
  | cons c name ih =>
    by_cases hc : c = '\\'
    · -- the run of backslashes would be twice as long as it is
      have hrun := length_takeWhile_doubled hquote (c :: name) after' after
      rw [← h, hc, List.cons_append, List.takeWhile_cons_of_pos (by decide), List.length_cons] at hrun
      omega
    · rw [doubled_cons hc, List.cons_append, List.cons_append] at h
      rw [doubled_cons hc, ih (List.cons.inj h).2]

end Label

/-- What is quoted at one place is one span. -/
theorem Span.IsQuoted.eq_of_offset {name source : Text} {s s' : Span} (h : s.IsQuoted name source)
    (h' : s'.IsQuoted name source) (hoffset : s.offset = s'.offset) : s = s' := by
  obtain ⟨quote, inner, hquoting, hlength, before, after, hsource, hbefore⟩ := isQuoted_iff.1 h
  obtain ⟨quote', inner', hquoting', hlength', before', after', hsource', hbefore'⟩ :=
    isQuoted_iff.1 h'
  have hsize : Text.byteSize before = Text.byteSize before' := by omega
  rw [hsource] at hsource'
  obtain ⟨-, hrest⟩ := Text.eq_of_byteSize_eq hsource' hsize
  obtain ⟨rfl, hrest⟩ := List.cons.inj hrest
  have hinner : inner = inner' := by
    cases hquoting with
    | double =>
      cases hquoting' with
      | double => rfl
      | escaped hdoubles =>
        rw [← Label.doubles_iff.1 hdoubles] at hrest ⊢
        exact (Label.doubled_eq_self (by decide) hrest).symm
    | escaped hdoubles =>
      rw [← Label.doubles_iff.1 hdoubles] at hrest ⊢
      cases hquoting' with
      | double => exact Label.doubled_eq_self (by decide) hrest.symm
      | escaped hdoubles' => exact Label.doubles_iff.1 hdoubles'
    | single =>
      cases hquoting'
      rfl
  rw [Span.mk.injEq]
  exact ⟨hoffset, by rw [hlength, hlength', hinner]⟩

namespace Label

/-! ## The three searches together -/

theorem distinct_sublist (last : Option Nat) (spans : List Span) : (distinct last spans).Sublist spans := by
  fun_induction distinct last spans with
  | case1 => exact List.Sublist.refl _
  | case2 s rest ih => exact ih.cons s
  | case3 _ s rest _ ih => exact ih.cons_cons s

/-- In ascending order, of the spans that begin at one place the first one stays. -/
theorem exists_mem_distinct {last : Option Nat} {spans : List Span} {s : Span} (h : s ∈ spans) :
    last = some s.offset ∨ ∃ s' ∈ distinct last spans, s'.offset = s.offset := by
  fun_induction distinct last spans with
  | case1 => cases h
  | case2 t rest ih =>
    rcases List.mem_cons.1 h with rfl | h
    · exact .inl rfl
    · exact ih h
  | case3 last t rest hlast ih =>
    rcases List.mem_cons.1 h with rfl | h
    · exact .inr ⟨s, List.mem_cons_self, rfl⟩
    · rcases ih h with hoffset | ⟨s', hs', hoffset⟩
      · exact .inr ⟨t, List.mem_cons_self, Option.some.inj hoffset⟩
      · exact .inr ⟨s', List.mem_cons_of_mem _ hs', hoffset⟩

theorem pairwise_distinct {last : Option Nat} {spans : List Span}
    (h : spans.Pairwise fun s s' => s.offset ≤ s'.offset) (hlast : ∀ s ∈ spans, ∀ o ∈ last, o ≤ s.offset) :
    (distinct last spans).Pairwise (fun s s' => s.offset < s'.offset) ∧
      ∀ s ∈ distinct last spans, ∀ o ∈ last, o < s.offset := by
  fun_induction distinct last spans with
  | case1 => exact ⟨List.Pairwise.nil, by simp⟩
  | case2 t rest ih =>
    exact ih (List.pairwise_cons.1 h).2 fun s hs => hlast s (List.mem_cons_of_mem _ hs)
  | case3 last t rest hne ih =>
    obtain ⟨hle, hrest⟩ := List.pairwise_cons.1 h
    obtain ⟨hpairwise, hlt⟩ := ih hrest fun s hs o ho => by
      cases ho
      exact hle s hs
    refine ⟨List.pairwise_cons.2 ⟨fun s hs => hlt s hs _ rfl, hpairwise⟩, fun s hs o ho => ?_⟩
    have hlt' : o < t.offset := by
      refine Nat.lt_of_le_of_ne (hlast t List.mem_cons_self o ho) fun heq => hne ?_
      rw [← heq, Option.mem_def.1 ho]
    rcases List.mem_cons.1 hs with rfl | hs
    · exact hlt'
    · exact Nat.lt_trans hlt' (hlt s hs _ rfl)

/-- What the three searches for a name find, in ascending order. -/
def found (name source : Text) : List Span :=
  (quotedSpans '"' name source ++ quotedSpans '"' (doubled name) source ++
    quotedSpans '\'' name source).mergeSort fun a b => a.offset ≤ b.offset

theorem places_eq {name : Text} (h : name ≠ []) (source : Text) :
    places name source = distinct none (found name source) := if_neg h

theorem mem_found_iff {name source : Text} {s : Span} : s ∈ found name source ↔
    ∃ quote inner, IsQuoting name quote inner ∧ s ∈ quotedSpans quote inner source := by
  rw [found, List.mem_mergeSort, List.mem_append, List.mem_append]
  constructor
  · rintro ((hs | hs) | hs)
    · exact ⟨_, _, .double, hs⟩
    · exact ⟨_, _, .escaped (doubles_iff.2 rfl), hs⟩
    · exact ⟨_, _, .single, hs⟩
  · rintro ⟨quote, inner, hquoting, hs⟩
    cases hquoting with
    | double => exact .inl (.inl hs)
    | escaped hdoubles =>
      rw [← doubles_iff.1 hdoubles] at hs
      exact .inl (.inr hs)
    | single => exact .inr hs

theorem isQuoted_of_mem_found {name source : Text} {s : Span} (h : s ∈ found name source) :
    s.IsQuoted name source := by
  obtain ⟨quote, inner, hquoting, hs⟩ := mem_found_iff.1 h
  exact mem_quotedSpans hquoting hs

theorem pairwise_found (name source : Text) :
    (found name source).Pairwise fun s s' => s.offset ≤ s'.offset := by
  let le (s s' : Span) : Bool := s.offset ≤ s'.offset
  have htrans (a b c : Span) (hab : le a b) (hbc : le b c) : le a c :=
    decide_eq_true (Nat.le_trans (of_decide_eq_true hab) (of_decide_eq_true hbc))
  have htotal (a b : Span) : le a b || le b a := by
    rw [Bool.or_eq_true, decide_eq_true_iff, decide_eq_true_iff]
    exact Nat.le_total _ _
  exact (List.pairwise_mergeSort htrans htotal _).imp of_decide_eq_true

/-- Nothing is lost when the searches are put together. -/
theorem mem_places_iff {name source : Text} {s : Span} :
    s ∈ places name source ↔ name ≠ [] ∧ s ∈ found name source := by
  by_cases hname : name = []
  · rw [places, if_pos hname]
    exact iff_of_false List.not_mem_nil fun h => h.1 hname
  · rw [places_eq hname, and_iff_right hname]
    refine ⟨fun h => (distinct_sublist _ _).mem h, fun h => ?_⟩
    obtain ⟨s', hs', hoffset⟩ : ∃ s' ∈ distinct none (found name source), s'.offset = s.offset :=
      (exists_mem_distinct h).resolve_left (Option.some_ne_none s.offset).symm
    -- the span that stays at this place is the same one
    have hquoted := isQuoted_of_mem_found ((distinct_sublist _ _).mem hs')
    rwa [← hquoted.eq_of_offset (isQuoted_of_mem_found h) hoffset]

theorem pairwise_places (name source : Text) :
    (places name source).Pairwise fun s s' => s.offset < s'.offset := by
  by_cases hname : name = []
  · rw [places, if_pos hname]
    exact List.Pairwise.nil
  · rw [places_eq hname]
    exact (pairwise_distinct (pairwise_found name source) (by simp)).1

/-- No quoted name stands before the first place. -/
theorem exists_place {name source inner : Text} {quote : Char} {n : Nat} (hname : name ≠ [])
    (hquoting : IsQuoting name quote inner) (h : Text.StandsAt (quote :: inner ++ [quote]) n source) :
    ∃ s ∈ places name source, s.offset ≤ n + 1 := by
  obtain ⟨s, hs, hle⟩ := exists_quotedSpan h
  exact ⟨s, mem_places_iff.2 ⟨hname, mem_found_iff.2 ⟨quote, inner, hquoting, hs⟩⟩, hle⟩

/-! ## Labels -/

/-- Whether spans of a source point at a name in it. -/
structure PointAt (name source : Text) (spans : List Span) : Prop where
  quoted : ∀ s ∈ spans, s.IsQuoted name source
  ascending : spans.Pairwise fun s s' => s.offset < s'.offset
  ne_nil_iff : spans ≠ [] ↔ name ≠ [] ∧
    ∃ quote inner, IsQuoting name quote inner ∧ quote :: inner ++ [quote] <:+: source
  /-- No quoted name stands before the first of them. -/
  first : ∀ s ∈ spans.head?, ∀ s', Span.IsQuoted s' name source → s.offset ≤ s'.offset

theorem pointAt_places (name source : Text) : PointAt name source (places name source) where
  quoted s hs := isQuoted_of_mem_found (mem_places_iff.1 hs).2
  ascending := pairwise_places name source
  ne_nil_iff := by
    constructor
    · intro h
      obtain ⟨s, hs⟩ := List.exists_mem_of_ne_nil _ h
      obtain ⟨hname, hs⟩ := mem_places_iff.1 hs
      obtain ⟨quote, inner, hquoting, -, before, after, hsource, -⟩ := isQuoted_of_mem_found hs
      exact ⟨hname, quote, inner, hquoting, before, after, by simp [hsource]⟩
    · rintro ⟨hname, quote, inner, hquoting, before, after, hsource⟩
      have hstands : Text.StandsAt (quote :: inner ++ [quote]) (Text.byteSize before) source :=
        ⟨before, after, by rw [← hsource, List.append_assoc], rfl⟩
      obtain ⟨s, hs, -⟩ := exists_place hname hquoting hstands
      exact List.ne_nil_of_mem hs
  first s hs s' hs' := by
    obtain ⟨rest, hplaces⟩ := List.head?_eq_some_iff.1 hs
    have hname := (mem_places_iff.1 (hplaces ▸ List.mem_cons_self)).1
    obtain ⟨quote, inner, hquoting, -, before, after, hsource, hoffset⟩ := Span.isQuoted_iff.1 hs'
    have hstands : Text.StandsAt (quote :: inner ++ [quote]) (Text.byteSize before) source :=
      ⟨before, after, by simp [hsource], rfl⟩
    obtain ⟨t, ht, hle⟩ := exists_place hname hquoting hstands
    have hascending := pairwise_places name source
    rw [hplaces] at ht hascending
    rw [hoffset]
    rcases List.mem_cons.1 ht with rfl | ht
    · exact hle
    · exact Nat.le_trans (Nat.le_of_lt ((List.pairwise_cons.1 hascending).1 t ht)) hle

/-- Some of the spans that point at a name do so, if they are the first ones. -/
theorem PointAt.take {name source : Text} {spans : List Span} (h : PointAt name source spans) {n : Nat}
    (hn : n ≠ 0) : PointAt name source (spans.take n) where
  quoted s hs := h.quoted s (List.mem_of_mem_take hs)
  ascending := h.ascending.sublist (List.take_sublist n spans)
  ne_nil_iff := by
    rw [← h.ne_nil_iff, ne_eq, ne_eq, List.take_eq_nil_iff, or_iff_right hn]
  first s hs := by
    rw [List.head?_take, if_neg hn] at hs
    exact h.first s hs

/-- Remarks are made at the first places, as many as there are remarks. -/
theorem map_span_attach (texts : List Text) (name source : Text) :
    (attach texts name source).map span = (places name source).take texts.length := by
  rw [attach]
  generalize places name source = spans
  induction texts generalizing spans with
  | nil => rfl
  | cons t texts ih =>
    cases spans with
    | nil => rfl
    | cons s spans =>
      rw [List.zipWith_cons_cons, List.map_cons, ih, List.length_cons, List.take_succ_cons]

theorem pointAt_attach {texts : List Text} (h : texts ≠ []) (name source : Text) :
    PointAt name source ((attach texts name source).map span) := by
  rw [map_span_attach]
  exact (pointAt_places name source).take fun hlength => h (List.length_eq_zero_iff.1 hlength)

end Label

/-- The name that a violation is about, which is looked for in the source. -/
inductive Violation.Concerns : Violation → Text → Prop where
  | malformed (role : Role) (name : Text) : Concerns (.malformed role name) name
  | reserved (name : Text) : Concerns (.reserved name) name
  | selfParameter (parameter method : Text) : Concerns (.selfParameter parameter method) parameter
  | repeatedParameter (parameter method : Text) :
    Concerns (.repeatedParameter parameter method) parameter
  | repeatedEntity (name : Text) : Concerns (.repeatedEntity name) name

theorem Violation.concerns_iff {v : Violation} {name : Text} : v.Concerns name ↔ v.subject = name := by
  constructor
  · intro h
    cases h <;> rfl
  · rintro rfl
    cases v with
    | malformed role name => exact .malformed role name
    | reserved name => exact .reserved name
    | selfParameter parameter method => exact .selfParameter parameter method
    | repeatedParameter parameter method => exact .repeatedParameter parameter method
    | repeatedEntity name => exact .repeatedEntity name

theorem Violation.labelTexts_ne_nil (v : Violation) : v.labelTexts ≠ [] := by
  cases v <;> exact List.cons_ne_nil _ _

namespace Manifest

/-- A report has its cause from the check, and its labels from the cause. -/
theorem check_of_ofSource {format : Document.Format} {path source : Text} {r : Report}
    (h : ofSource format path source = .error r) :
    check format source = .error r.cause ∧ r.labels = r.cause.labels source := by
  unfold ofSource at h
  cases hcheck : check format source with
  | ok m =>
    rw [hcheck] at h
    cases h
  | error cause =>
    rw [hcheck] at h
    cases h
    exact ⟨rfl, rfl⟩

/-- The labels of a report on a manifest that is not valid. -/
theorem labels_of_invalid {format : Document.Format} {path source : Text} {r : Report} {v : Violation}
    (h : ofSource format path source = .error r) (hv : r.cause = .invalid v) :
    r.labels = Label.attach v.labelTexts v.subject source := by
  rw [(check_of_ofSource h).2, hv, Cause.labels]

/-- Every cause gets its report. -/
theorem ofSource_of_check {format : Document.Format} {source : Text} {cause : Cause}
    (h : check format source = .error cause) (path : Text) :
    ofSource format path source = .error ⟨cause, some path, cause.labels source⟩ := by
  rw [ofSource, h]
  rfl

/-- What is wrong with the manifest of a source, if it is rejected for that. -/
def rejection? (format : Document.Format) (source : Text) : Option Violation :=
  match check format source with
  | .error (.invalid v) => some v
  | _ => none

theorem ofSource_of_rejection {format : Document.Format} {source : Text} {v : Violation}
    (h : rejection? format source = some v) (path : Text) :
    ofSource format path source =
      .error ⟨.invalid v, some path, Label.attach v.labelTexts v.subject source⟩ := by
  unfold rejection? at h
  split at h
  · rename_i hcheck
    cases h
    exact ofSource_of_check hcheck path
  · cases h

end Manifest

/-- The places of any name in any text, and the labels of every report on a
manifest that is not valid, lie between quotes on the name or, in double quotes,
on the name with its backslashes doubled, one behind the other; and there are
some exactly if there is a name and it stands in the text so quoted. The name is
the one that the violation is about, and every violation has its report. -/
theorem points_at_quoted_names :
    (∀ name source, Label.PointAt name source (Label.places name source)) ∧
    (∀ format path source r v, Manifest.ofSource format path source = .error r →
      r.cause = .invalid v →
        ∃ name, v.Concerns name ∧ Label.PointAt name source (r.labels.map Label.span)) ∧
    ∀ format path source v, Manifest.check format source = .error (.invalid v) →
      ∃ r, Manifest.ofSource format path source = .error r ∧ r.cause = .invalid v := by
  refine ⟨Label.pointAt_places, fun format path source r v h hv => ?_,
    fun format path source v h => ?_⟩
  · refine ⟨v.subject, Violation.concerns_iff.2 rfl, ?_⟩
    rw [Manifest.labels_of_invalid h hv]
    exact Label.pointAt_attach v.labelTexts_ne_nil v.subject source
  · exact ⟨_, Manifest.ofSource_of_check h path, rfl⟩

/-- A manifest that declares an entity twice, once with its name between single quotes. -/
def twinSource : Text :=
  "[[entities]]\nname = \"App\\\\Foo\"\n\n[[entities]]\nname = 'App\\Foo'\n".toList

theorem ofSource_twinSource (path : Text) : Manifest.ofSource .toml path twinSource =
    .error ⟨.invalid (.repeatedEntity "App\\Foo".toList), some path,
      Label.attach ["first declared here".toList, "declared again here".toList]
        "App\\Foo".toList twinSource⟩ :=
  Manifest.ofSource_of_rejection (by decide +kernel) path

theorem points_at_quoted_names_twins : ∃ r,
    Manifest.ofSource .toml "builders.toml".toList twinSource = .error r ∧
    r.cause = .invalid (.repeatedEntity "App\\Foo".toList) ∧
    Label.PointAt "App\\Foo".toList twinSource (r.labels.map Label.span) := by
  have hreport := ofSource_twinSource "builders.toml".toList
  obtain ⟨name, hname, hpoint⟩ := points_at_quoted_names.2.1 _ _ _ _ _ hreport rfl
  cases hname
  exact ⟨_, hreport, rfl, hpoint⟩

end BuilderForge
