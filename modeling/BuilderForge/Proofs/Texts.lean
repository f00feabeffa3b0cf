import BuilderForge.Text.Basic
/-
  Cuts in texts, as equations.

  The pieces of a text at a separator are the texts without the separator that
  it is made of: `pieces_append_sep`, `mem_pieces_of_mem`. Cutting into lines
  and trimming take characters away and put none in, and trimming stops where
  the blanks at the ends stop: `trim_eq_iff`.
-/

namespace BuilderForge.Text

/-! ## Pieces -/

theorem pieces_ne_nil (sep : Char) (t : Text) : pieces sep t ≠ [] := by
  cases t with
  | nil => simp [pieces]
  | cons c t =>
    rw [pieces]
    split
    · simp
    · split <;> simp

theorem pieces_cons_of_ne {sep c : Char} (h : c ≠ sep) (t : Text) :
    ∃ p ps, pieces sep t = p :: ps ∧ pieces sep (c :: t) = (c :: p) :: ps := by
  obtain ⟨p, ps, hp⟩ := List.exists_cons_of_ne_nil (pieces_ne_nil sep t)
  exact ⟨p, ps, hp, by rw [pieces, if_neg h, hp]⟩

@[simp] theorem pieces_cons_self (sep : Char) (t : Text) :
    pieces sep (sep :: t) = [] :: pieces sep t := by
  rw [pieces, if_pos rfl]

/-- A separator ends one piece and begins the next. -/
theorem pieces_append_sep (sep : Char) (s t : Text) :
    pieces sep (s ++ sep :: t) = pieces sep s ++ pieces sep t := by
  induction s with
  | nil => rw [List.nil_append, pieces_cons_self]; rfl
  | cons c s ih =>
    rw [List.cons_append]
    by_cases h : c = sep
    · rw [h, pieces_cons_self, pieces_cons_self, ih, List.cons_append]
    · -- the character goes to the first piece on both sides
      obtain ⟨p, ps, hp, hc⟩ := pieces_cons_of_ne h s
      obtain ⟨q, qs, hq, hd⟩ := pieces_cons_of_ne h (s ++ sep :: t)
      rw [hc, hd]
      rw [ih, hp, List.cons_append] at hq
      cases hq
      rfl

theorem pieces_of_not_mem {sep : Char} {t : Text} (h : sep ∉ t) : pieces sep t = [t] := by
  induction t with
  | nil => rfl
  | cons c t ih =>
    rw [List.mem_cons, not_or] at h
    rw [pieces, if_neg (Ne.symm h.1), ih h.2]

/-- A character of a text is the separator or stands in a piece. -/
theorem mem_pieces_of_mem {sep c : Char} {t : Text} (h : c ∈ t) :
    c = sep ∨ ∃ p ∈ pieces sep t, c ∈ p := by
  induction t with
  | nil => cases h
  | cons d t ih =>
    by_cases hd : d = sep
    · rw [hd, pieces_cons_self]
      rcases List.mem_cons.1 h with rfl | h
      · exact .inl hd
      · exact (ih h).imp_right fun ⟨p, hp, hc⟩ => ⟨p, List.mem_cons_of_mem _ hp, hc⟩
    · obtain ⟨p, ps, hp, hc⟩ := pieces_cons_of_ne hd t
      rw [hc]
      rcases List.mem_cons.1 h with rfl | h
      · exact .inr ⟨_, List.mem_cons_self, List.mem_cons_self⟩
      · refine (ih h).imp_right fun ⟨q, hq, hcq⟩ => ?_
        rw [hp] at hq
        rcases List.mem_cons.1 hq with rfl | hq
        · exact ⟨_, List.mem_cons_self, List.mem_cons_of_mem _ hcq⟩
        · exact ⟨q, List.mem_cons_of_mem _ hq, hcq⟩

/-- A piece holds characters of the text other than the separator. -/
theorem mem_of_mem_pieces {sep : Char} {t : Text} : ∀ p ∈ pieces sep t, ∀ c ∈ p, c ∈ t ∧ c ≠ sep := by
  induction t with
  | nil => simp [pieces]
  | cons d t ih =>
    intro p hp c hc
    by_cases hd : d = sep
    · rw [hd, pieces_cons_self] at hp
      rcases List.mem_cons.1 hp with rfl | hp
      · cases hc
      · exact (ih p hp c hc).imp_left (List.mem_cons_of_mem _)
    · obtain ⟨q, qs, hq, hcons⟩ := pieces_cons_of_ne hd t
      rw [hcons] at hp
      rcases List.mem_cons.1 hp with rfl | hp
      · rcases List.mem_cons.1 hc with rfl | hc
        · exact ⟨List.mem_cons_self, hd⟩
        · exact (ih q (hq ▸ List.mem_cons_self) c hc).imp_left (List.mem_cons_of_mem _)
      · exact (ih p (hq ▸ List.mem_cons_of_mem _ hp) c hc).imp_left (List.mem_cons_of_mem _)

/-- A change of characters that takes the separator, and nothing else, to
another one goes piece by piece. -/
theorem pieces_map {sep sep' : Char} {f : Char → Char} {t : Text} (hf : ∀ c ∈ t, f c = sep' ↔ c = sep) :
    pieces sep' (t.map f) = (pieces sep t).map (List.map f) := by
  induction t with
  | nil => rfl
  | cons c t ih =>
    have hc := hf c List.mem_cons_self
    rw [List.map_cons]
    specialize ih fun d hd => hf d (List.mem_cons_of_mem c hd)
    by_cases h : c = sep
    · rw [hc.2 h, h, pieces_cons_self, pieces_cons_self, ih]
      rfl
    · obtain ⟨p, ps, hp, hcons⟩ := pieces_cons_of_ne h t
      rw [hcons, pieces, if_neg (mt hc.1 h), ih, hp]
      rfl

theorem map_replace_of_notMem {sep : Char} (sep' : Char) {t : Text} (h : sep ∉ t) :
    (t.map fun c => if c = sep then sep' else c) = t := by
  induction t with
  | nil => rfl
  | cons c t ih =>
    rw [List.mem_cons, not_or] at h
    rw [List.map_cons, if_neg (Ne.symm h.1), ih h.2]

/-- Another separator that was not in the text makes the same pieces. -/
theorem pieces_replace {sep sep' : Char} {t : Text} (h : sep' ∉ t) :
    pieces sep' (t.map fun c => if c = sep then sep' else c) = pieces sep t := by
  have hsep : ∀ c ∈ t, (if c = sep then sep' else c) = sep' ↔ c = sep := by
    intro c hc
    split
    · rename_i heq
      exact iff_of_true rfl heq
    · rename_i hne
      exact iff_of_false (fun heq => h (heq ▸ hc)) hne
  rw [pieces_map hsep]
  calc (pieces sep t).map (List.map fun c => if c = sep then sep' else c)
      = (pieces sep t).map id := List.map_congr_left fun p hp =>
        map_replace_of_notMem sep' fun hc => (mem_of_mem_pieces p hp sep hc).2 rfl
    _ = pieces sep t := List.map_id _

/-- A text tells what stands before the first `c` in it. -/
theorem eq_of_append_cons {c : Char} {s s' t t' : Text} (hs : c ∉ s) (hs' : c ∉ s')
    (h : s ++ c :: t = s' ++ c :: t') : s = s' ∧ t = t' := by
  induction s generalizing s' with
  | nil =>
    cases s' with
    | nil => exact ⟨rfl, (List.cons.inj h).2⟩
    | cons d s' => exact absurd (List.mem_cons.2 (.inl (List.cons.inj h).1)) hs'
  | cons d s ih =>
    cases s' with
    | nil => exact absurd (List.mem_cons.2 (.inl (List.cons.inj h).1.symm)) hs
    | cons d' s' =>
      obtain ⟨rfl, htail⟩ := List.cons.inj h
      obtain ⟨rfl, ht⟩ := ih (fun hc => hs (List.mem_cons_of_mem _ hc))
        (fun hc => hs' (List.mem_cons_of_mem _ hc)) htail
      exact ⟨rfl, ht⟩

/-- The pieces at line ends of lines each with its end. -/
theorem pieces_flatMap_lineEnd {α : Type} (f : α → Text) (l : List α)
    (h : ∀ a ∈ l, '\n' ∉ f a) : pieces '\n' (l.flatMap fun a => f a ++ ['\n']) = l.map f ++ [[]] := by
  induction l with
  | nil => rfl
  | cons a l ih =>
    rw [List.flatMap_cons, List.append_assoc, List.singleton_append, pieces_append_sep,
      pieces_of_not_mem (h a List.mem_cons_self), ih fun b hb => h b (List.mem_cons_of_mem _ hb)]
    rfl

/-! ## Joins and lines -/

theorem join_singleton (sep p : Text) : join sep [p] = p := by
  simp [join, List.intercalate]

theorem join_cons_cons (sep p q : Text) (ps : List Text) :
    join sep (p :: q :: ps) = p ++ (sep ++ join sep (q :: ps)) := by
  simp [join, List.intercalate, List.intersperse]

/-- The pieces of a text with the separator between them are the text. -/
theorem join_pieces (sep : Char) (t : Text) : join [sep] (pieces sep t) = t := by
  induction t with
  | nil => rfl
  | cons c t ih =>
    obtain ⟨p, ps, hp⟩ := List.exists_cons_of_ne_nil (pieces_ne_nil sep t)
    rw [hp] at ih
    by_cases h : c = sep
    · rw [h, pieces_cons_self, hp, join_cons_cons, ih]
      rfl
    · rw [pieces, if_neg h, hp]
      cases ps with
      | nil =>
        rw [join_singleton] at ih ⊢
        rw [ih]
      | cons q ps =>
        rw [join_cons_cons] at ih ⊢
        rw [List.cons_append, ih]

/-- Texts without the separator are the pieces of what they make with it between them. -/
theorem pieces_join {sep : Char} : ∀ {ps : List Text}, ps ≠ [] → (∀ p ∈ ps, sep ∉ p) →
    pieces sep (join [sep] ps) = ps
  | [], h, _ => absurd rfl h
  | [p], _, h => by rw [join_singleton, pieces_of_not_mem (h p List.mem_cons_self)]
  | p :: q :: ps, _, h => by
    have hrest : ∀ r ∈ q :: ps, sep ∉ r := fun r hr => h r (List.mem_cons_of_mem p hr)
    rw [join_cons_cons, List.singleton_append, pieces_append_sep,
      pieces_of_not_mem (h p List.mem_cons_self), pieces_join (List.cons_ne_nil q ps) hrest,
      List.singleton_append]

/-- Fewer pieces make a shorter beginning. -/
theorem join_prefix {sep : Text} : ∀ {ps qs : List Text}, ps <+: qs → join sep ps <+: join sep qs
  | [], _, _ => List.nil_prefix
  | [p], q :: qs, h => by
    obtain ⟨rfl, -⟩ := List.cons_prefix_cons.1 h
    cases qs with
    | nil => exact List.prefix_rfl
    | cons r qs =>
      rw [join_singleton, join_cons_cons]
      exact List.prefix_append p _
  | p :: p' :: ps, q :: qs, h => by
    obtain ⟨rfl, rest, rfl⟩ := List.cons_prefix_cons.1 h
    rw [List.cons_append, join_cons_cons, join_cons_cons, List.prefix_append_right_inj,
      List.prefix_append_right_inj]
    exact join_prefix (List.prefix_append (p' :: ps) rest)

theorem mem_join {sep : Text} {c : Char} : ∀ {ps : List Text}, c ∈ join sep ps →
    c ∈ sep ∨ ∃ p ∈ ps, c ∈ p
  | [], h => by cases h
  | [p], h => .inr ⟨p, List.mem_singleton_self p, by rwa [join_singleton] at h⟩
  | p :: q :: ps, h => by
    rw [join_cons_cons, List.mem_append, List.mem_append] at h
    rcases h with h | h | h
    · exact .inr ⟨p, List.mem_cons_self, h⟩
    · exact .inl h
    · exact (mem_join h).imp_right fun ⟨r, hr, hc⟩ => ⟨r, List.mem_cons_of_mem _ hr, hc⟩

theorem mem_dropLastChar {c d : Char} {t : Text} (h : c ∈ dropLastChar d t) : c ∈ t := by
  unfold dropLastChar at h
  split at h
  · exact (List.dropLast_sublist t).mem h
  · exact h

/-- A line holds characters of the text, and no line end. -/
theorem mem_of_mem_lines {t : Text} : ∀ l ∈ lines t, ∀ c ∈ l, c ∈ t ∧ c ≠ '\n' := by
  have hgo : ∀ ps : List Text, ∀ l ∈ lines.go ps, ∃ p ∈ ps, ∀ c ∈ l, c ∈ p := by
    intro ps
    fun_induction lines.go ps with
    | case1 => simp
    | case2 => simp
    | case3 last h => simp
    | case4 p q ps ih =>
      intro l hl
      rcases List.mem_cons.1 hl with rfl | hl
      · exact ⟨p, List.mem_cons_self, fun c hc => mem_dropLastChar hc⟩
      · obtain ⟨r, hr, h⟩ := ih l hl
        exact ⟨r, List.mem_cons_of_mem _ hr, h⟩
  intro l hl c hc
  obtain ⟨p, hp, h⟩ := hgo _ l hl
  exact mem_of_mem_pieces p hp c (h c hc)

/-- A text without a line end is one line. -/
theorem lines_of_notMem {t : Text} (hne : t ≠ []) (h : '\n' ∉ t) : lines t = [t] := by
  rw [lines, pieces_of_not_mem h, lines.go, if_neg hne]

/-! ## Runs -/

/-- Whether a run of characters of a kind ends where the text after it begins. -/
structure IsRun (p : Char → Bool) (run rest : Text) : Prop where
  all : ∀ c ∈ run, p c
  ends : ∀ c, rest.head? = some c → p c = false

theorem isRun_takeWhile (p : Char → Bool) (t : Text) : IsRun p (t.takeWhile p) (t.dropWhile p) where
  all := List.all_eq_true.1 List.all_takeWhile
  ends c hc := by
    have hnot := List.head?_dropWhile_not p t
    rw [hc] at hnot
    simpa using hnot

theorem IsRun.dropWhile_eq {p : Char → Bool} {run rest : Text} (h : IsRun p run rest) :
    (run ++ rest).dropWhile p = rest := by
  rw [List.dropWhile_append_of_pos h.all]
  cases rest with
  | nil => rfl
  | cons c rest => exact List.dropWhile_cons_of_neg (by rw [h.ends c rfl]; exact Bool.false_ne_true)

theorem IsRun.takeWhile_eq {p : Char → Bool} {run rest : Text} (h : IsRun p run rest) :
    (run ++ rest).takeWhile p = run := by
  rw [List.takeWhile_append_of_pos h.all]
  cases rest with
  | nil => exact List.append_nil run
  | cons c rest =>
    rw [List.takeWhile_cons_of_neg (by rw [h.ends c rfl]; exact Bool.false_ne_true), List.append_nil]

/-! ## Trimming -/

/-- Whether a text is `inner` with blanks around it, and `inner` has none at its ends. -/
structure IsTrimmed (t inner : Text) : Prop where
  around : ∃ before after, t = before ++ (inner ++ after) ∧ ∀ c ∈ before ++ after, isBlank c
  first : ∀ c ∈ inner.head?, isBlank c = false
  last : ∀ c ∈ inner.getLast?, isBlank c = false

/-- What is trimmed off the end is blank, and what is left does not end in a blank. -/
theorem exists_trimEnd_append (t : Text) : (∃ after, t = trimEnd t ++ after ∧ ∀ c ∈ after, isBlank c) ∧
    ∀ c ∈ (trimEnd t).getLast?, isBlank c = false := by
  have hrun := isRun_takeWhile isBlank t.reverse
  refine ⟨⟨(t.reverse.takeWhile isBlank).reverse, ?_, fun c hc => hrun.all c (List.mem_reverse.1 hc)⟩,
    fun c hc => hrun.ends c ?_⟩
  · rw [trimEnd, ← List.reverse_append, List.takeWhile_append_dropWhile, List.reverse_reverse]
  · rwa [trimEnd, List.getLast?_reverse] at hc

/-- Blanks behind a text that does not end in one are trimmed off. -/
theorem trimEnd_append {t after : Text} (ht : ∀ c ∈ t.getLast?, isBlank c = false)
    (hafter : ∀ c ∈ after, isBlank c) : trimEnd (t ++ after) = t := by
  have hrun : IsRun isBlank after.reverse t.reverse :=
    ⟨fun c hc => hafter c (List.mem_reverse.1 hc), fun c hc => ht c (by rwa [List.head?_reverse] at hc)⟩
  rw [trimEnd, List.reverse_append, hrun.dropWhile_eq, List.reverse_reverse]

theorem trimEnd_prefix (t : Text) : trimEnd t <+: t := by
  obtain ⟨⟨after, ht, -⟩, -⟩ := exists_trimEnd_append t
  exact ⟨after, ht.symm⟩

/-- Nothing is trimmed off the end of a text exactly if it does not end in a blank. -/
theorem trimEnd_eq_self_iff {t : Text} : trimEnd t = t ↔ ∀ c ∈ t.getLast?, isBlank c = false := by
  constructor
  · intro h
    rw [← h]
    exact (exists_trimEnd_append t).2
  · intro h
    have happend : trimEnd (t ++ []) = t := trimEnd_append h nofun
    rwa [List.append_nil] at happend

theorem isTrimmed_trim (t : Text) : IsTrimmed t (trim t) := by
  have hrun := isRun_takeWhile isBlank t
  obtain ⟨⟨after, hafter, hblank⟩, hlast⟩ := exists_trimEnd_append (trimStart t)
  refine ⟨⟨t.takeWhile isBlank, after, ?_, fun c hc => ?_⟩, fun c hc => ?_, hlast⟩
  · rw [trim, ← hafter, trimStart, List.takeWhile_append_dropWhile]
  · exact (List.mem_append.1 hc).elim (hrun.all c) (hblank c)
  · -- what is left begins where the text without the blanks at its start begins
    have hhead : (trimStart t).head? = some c := by
      rw [trim, Option.mem_def] at hc
      rw [hafter, List.head?_append, hc]
      rfl
    exact hrun.ends c hhead

/-- Trimming finds the one text that is left without the blanks at both ends. -/
theorem trim_eq_iff {t inner : Text} : trim t = inner ↔ IsTrimmed t inner := by
  refine ⟨fun h => h ▸ isTrimmed_trim t, fun ⟨⟨before, after, ht, hblank⟩, hfirst, hlast⟩ => ?_⟩
  have hbefore : ∀ c ∈ before, isBlank c := fun c hc => hblank c (List.mem_append_left _ hc)
  have hafter : ∀ c ∈ after, isBlank c := fun c hc => hblank c (List.mem_append_right _ hc)
  cases inner with
  | nil =>
    -- a text of blanks is trimmed from the start
    have hrun : IsRun isBlank t [] := ⟨fun c hc => hblank c (by rwa [ht] at hc), nofun⟩
    have hstart : trimStart t = [] := by
      rw [trimStart, ← List.append_nil t, hrun.dropWhile_eq]
    rw [trim, hstart]
    rfl
  | cons c inner =>
    have hrun : IsRun isBlank before (c :: inner ++ after) := ⟨hbefore, fun d hd => hfirst d hd⟩
    rw [trim, trimStart, ht, hrun.dropWhile_eq, trimEnd_append hlast hafter]

theorem mem_of_mem_trim {c : Char} {t : Text} (h : c ∈ trim t) : c ∈ t := by
  obtain ⟨before, after, ht, -⟩ := (isTrimmed_trim t).around
  rw [ht]
  exact List.mem_append_right _ (List.mem_append_left _ h)

/-- Trimming keeps everything that is no blank. -/
theorem mem_trim {c : Char} {t : Text} (h : c ∈ t) (hc : isBlank c = false) : c ∈ trim t := by
  obtain ⟨before, after, ht, hblank⟩ := (isTrimmed_trim t).around
  have hnot : c ∉ before ++ after := fun hmem => Bool.false_ne_true (hc.symm.trans (hblank c hmem))
  rw [List.mem_append, not_or] at hnot
  rw [ht, List.mem_append, List.mem_append] at h
  exact (h.resolve_left hnot.1).resolve_right hnot.2

/-- Nothing is trimmed off a text exactly if it neither begins nor ends with a blank. -/
theorem trim_eq_self_iff {t : Text} : trim t = t ↔
    (∀ c ∈ t.head?, isBlank c = false) ∧ ∀ c ∈ t.getLast?, isBlank c = false := by
  rw [trim_eq_iff]
  exact ⟨fun h => ⟨h.first, h.last⟩, fun ⟨hfirst, hlast⟩ => ⟨⟨[], [], by simp, nofun⟩, hfirst, hlast⟩⟩

/-- Trimming leaves a text without blanks alone. -/
theorem trim_eq_self {t : Text} (h : ∀ c ∈ t, isBlank c = false) : trim t = t :=
  trim_eq_self_iff.2 ⟨fun c hc => h c (List.mem_of_head? hc), fun c hc => h c (List.mem_of_getLast? hc)⟩

/-- A text that begins with no blank is trimmed at its end only. -/
theorem trim_cons {c : Char} (hc : isBlank c = false) (t : Text) : trim (c :: t) = c :: trimEnd t := by
  have hstart : trimStart (c :: t) = c :: t := by
    rw [trimStart, List.dropWhile_cons, hc]
    rfl
  rw [trim, hstart, trimEnd, trimEnd, List.reverse_cons, List.dropWhile_append]
  split
  · rename_i h
    rw [List.isEmpty_iff.1 h, List.dropWhile_cons, hc]
    rfl
  · rw [List.reverse_append, List.reverse_singleton, List.singleton_append]

/-! ## Case -/

theorem toNat_toUpper (c : Char) :
    c.toUpper.toNat = if 97 ≤ c.toNat ∧ c.toNat ≤ 122 then c.toNat - 32 else c.toNat := by
  unfold Char.toUpper
  split
  · rename_i h
    have hl : 97 ≤ c.toNat := h.1
    have hu : c.toNat ≤ 122 := h.2
    have h32 : ('A'.val - 'a'.val).toNat = 4294967264 := by decide
    rw [if_pos ⟨hl, hu⟩, Char.toNat_mk, UInt32.toNat_add, h32, Char.toNat_val]
    omega
  · rename_i h
    rw [if_neg]
    exact h

@[simp] theorem sameFolded_iff {s t : Text} : sameFolded s t = true ↔ fold s = fold t := by
  rw [sameFolded, decide_eq_true_iff]

end BuilderForge.Text
