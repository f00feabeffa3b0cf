import BuilderForge.Name.Label
import BuilderForge.Proofs.Names
/-
  Source text without its literals, and the braces in what is left.

  A reader of PHP source is in the code, in a literal, or behind a backslash in
  a literal. `outside` is what it reads outside literals, and it answers
  nothing if a literal is open at the end of a line or of the text, or if a
  dollar sign in double quotes would put a variable in. Single and double
  quotes end alike: at the next equal quote that no backslash escapes.

  `Balanced n h t` says that such a reader comes through `t` from code to code,
  and that what it reads outside literals has `n` pairs of braces, at most `h`
  deep. It is closed under concatenation (`Balanced.append`) and one pair of
  braces around a text counts one more (`Balanced.braces`), so it is proved of a
  page by the parts of which the page is made.
-/

namespace BuilderForge.Php

/-- Where a reader of source text is. -/
inductive Place where
  | code
  | literal (quote : Char)
  | escape (quote : Char)
  deriving DecidableEq

/-- The place after a character. There is none for a line end in a literal and
for a bare dollar sign in double quotes. -/
def Place.next : Place → Char → Option Place
  | .code, c => if c = '\'' ∨ c = '"' then some (.literal c) else some .code
  | .literal q, c =>
    if c = '\n' ∨ c = '$' ∧ q = '"' then none
    else if c = '\\' then some (.escape q)
    else if c = q then some .code
    else some (.literal q)
  | .escape q, c => if c = '\n' then none else some (.literal q)

/-- What a reader at a place reads outside literals. -/
def outside : Place → Text → Option Text
  | p, [] => if p = .code then some [] else none
  | p, c :: t =>
    match p.next c with
    | none => none
    | some q => (outside q t).map fun rest => if p = .code ∧ q = .code then c :: rest else rest

/-- How deep in braces a text ends that begins at a depth. There is no answer
if it goes below the ground or above the limit. -/
def depthAfter (limit : Nat) : Nat → Text → Option Nat
  | depth, [] => some depth
  | depth, c :: t =>
    if c = '\x7b' then if depth < limit then depthAfter limit (depth + 1) t else none
    else if c = '\x7d' then if depth = 0 then none else depthAfter limit (depth - 1) t
    else depthAfter limit depth t

/-- Whether a character is a control character of ASCII. -/
def isControl (c : Char) : Bool := c.toNat < 0x20 || c.toNat = 0x7F

/-! ## Concatenation -/

theorem outside_append {p : Place} {s r : Text} (h : outside p s = some r) (t : Text) :
    outside p (s ++ t) = (outside .code t).map (r ++ ·) := by
  induction s generalizing p r with
  | nil =>
    rw [outside] at h
    split at h
    · rename_i hp
      cases h
      simp [hp]
    · cases h
  | cons c s ih =>
    rw [List.cons_append, outside]
    rw [outside] at h
    split at h
    · cases h
    · rename_i q hq
      obtain ⟨r', hr', rfl⟩ := Option.map_eq_some_iff.1 h
      rw [ih hr', Option.map_map]
      refine congrArg (fun f => Option.map f _) (funext fun u => ?_)
      rw [Function.comp_apply]
      split <;> rfl

/-- A quote outside literals would open one. -/
theorem not_quote_of_outside {p : Place} {t r : Text} (h : outside p t = some r) :
    ∀ c ∈ r, c ≠ '\'' ∧ c ≠ '"' := by
  induction t generalizing p r with
  | nil =>
    rw [outside] at h
    split at h
    · cases h
      intro c hc
      cases hc
    · cases h
  | cons d t ih =>
    rw [outside] at h
    split at h
    · cases h
    · rename_i q hq
      obtain ⟨r', hr', rfl⟩ := Option.map_eq_some_iff.1 h
      split
      · -- the character is read, so it begins no literal
        rename_i hplace
        intro c hc
        rcases List.mem_cons.1 hc with rfl | hc
        · rw [hplace.1, hplace.2, Place.next] at hq
          split at hq
          · cases hq
          · rename_i hc
            exact not_or.1 hc
        · exact ih hr' c hc
      · exact ih hr'

theorem depthAfter_append (limit depth : Nat) (s t : Text) :
    depthAfter limit depth (s ++ t) =
      (depthAfter limit depth s).bind fun d => depthAfter limit d t := by
  induction s generalizing depth with
  | nil => rfl
  | cons c s ih =>
    rw [List.cons_append, depthAfter, depthAfter, ih, ih, ih]
    split
    · split <;> rfl
    · split
      · split <;> rfl
      · rfl

/-- A reader comes through the text from code to code, and reads `n` pairs of
braces outside literals, at most `height` deep. -/
def Balanced (n height : Nat) (t : Text) : Prop :=
  ∃ r, outside .code t = some r ∧ r.count '\x7b' = n ∧ r.count '\x7d' = n ∧
    ∀ limit depth, depth + height ≤ limit → depthAfter limit depth r = some depth

/-- A text that opens no literal and no brace that it does not close, nor any
brace at all. -/
abbrev Flat (t : Text) : Prop := Balanced 0 0 t

namespace Balanced

variable {n k height : Nat} {s t : Text}

theorem append (hs : Balanced n height s) (ht : Balanced k height t) :
    Balanced (n + k) height (s ++ t) := by
  obtain ⟨r, hr, hopen, hclose, hdepth⟩ := hs
  obtain ⟨u, hu, hopen', hclose', hdepth'⟩ := ht
  refine ⟨r ++ u, ?_, ?_, ?_, fun limit depth h => ?_⟩
  · rw [outside_append hr, hu, Option.map_some]
  · rw [List.count_append, hopen, hopen']
  · rw [List.count_append, hclose, hclose']
  · rw [depthAfter_append, hdepth limit depth h, Option.bind_some, hdepth' limit depth h]

theorem mono {high : Nat} (ht : Balanced n height t) (h : height ≤ high) : Balanced n high t := by
  obtain ⟨r, hr, hopen, hclose, hdepth⟩ := ht
  exact ⟨r, hr, hopen, hclose, fun limit depth hd => hdepth limit depth (by omega)⟩

theorem append_flat (hs : Balanced n height s) (ht : Flat t) : Balanced n height (s ++ t) :=
  hs.append (ht.mono (Nat.zero_le height))

theorem flat_append (hs : Flat s) (ht : Balanced n height t) : Balanced n height (s ++ t) := by
  have h := (hs.mono (Nat.zero_le height)).append ht
  rwa [Nat.zero_add] at h

/-- A pair of braces around a text. -/
theorem braces (ht : Balanced n height t) :
    Balanced (n + 1) (height + 1) ('\x7b' :: (t ++ ['\x7d'])) := by
  obtain ⟨r, hr, hopen, hclose, hdepth⟩ := ht
  have hin : outside .code (t ++ ['\x7d']) = some (r ++ ['\x7d']) := by
    rw [outside_append hr]
    rfl
  refine ⟨'\x7b' :: (r ++ ['\x7d']), ?_, ?_, ?_, fun limit depth h => ?_⟩
  · have hnext : Place.code.next '\x7b' = some .code := rfl
    simp [outside, hnext, hin]
  · simp [hopen]
  · simp [hclose]
  · -- the body is one deeper, and the closing brace undoes it
    have hlt : depth < limit := by omega
    have hbody : depthAfter limit (depth + 1) r = some (depth + 1) :=
      hdepth limit (depth + 1) (by omega)
    rw [depthAfter, if_pos rfl, if_pos hlt, depthAfter_append, hbody]
    rfl

end Balanced

theorem flat_nil : Flat [] := ⟨[], rfl, rfl, rfl, fun _ _ _ => rfl⟩

/-! ## Text without quotes and braces -/

/-- Whether a character is printable and neither a quote nor a brace. -/
def isPlain (c : Char) : Bool :=
  !isControl c && c ≠ '\'' && c ≠ '"' && c ≠ '\x7b' && c ≠ '\x7d'

/-- A text of printable characters without quotes and braces. -/
def Plain (t : Text) : Prop := ∀ c ∈ t, isPlain c

instance (t : Text) : Decidable (Plain t) :=
  decidable_of_iff (t.all isPlain = true) List.all_eq_true

theorem Plain.append {s t : Text} (hs : Plain s) (ht : Plain t) : Plain (s ++ t) := by
  intro c hc
  rcases List.mem_append.1 hc with hc | hc
  · exact hs c hc
  · exact ht c hc

theorem Plain.join {sep : Text} {ps : List Text} (hsep : Plain sep) (hps : ∀ p ∈ ps, Plain p) :
    Plain (Text.join sep ps) := by
  intro c hc
  rcases Text.mem_join hc with hc | ⟨p, hp, hc⟩
  · exact hsep c hc
  · exact hps p hp c hc

theorem flat_singleton {c : Char} (hq : c ≠ '\'' ∧ c ≠ '"') (hb : c ≠ '\x7b' ∧ c ≠ '\x7d') :
    Flat [c] := by
  have hnext : Place.code.next c = some .code := by
    rw [Place.next, if_neg (not_or.2 hq)]
  refine ⟨[c], ?_, ?_, ?_, fun limit depth _ => ?_⟩
  · simp [outside, hnext]
  · simp [hb.1]
  · simp [hb.2]
  · rw [depthAfter, if_neg hb.1, if_neg hb.2, depthAfter]

theorem flat_of_plain {t : Text} (h : Plain t) : Flat t := by
  induction t with
  | nil => exact flat_nil
  | cons c t ih =>
    have hc := h c List.mem_cons_self
    simp only [isPlain, Bool.and_eq_true, decide_eq_true_eq] at hc
    exact (flat_singleton ⟨hc.1.1.1.2, hc.1.1.2⟩ ⟨hc.1.2, hc.2⟩).append
      (ih fun d hd => h d (List.mem_cons_of_mem _ hd))

theorem isPlain_of_isNameChar {c : Char} (h : Name.isNameChar c) : isPlain c := by
  have hne {d : Char} (hd : c.toNat ≠ d.toNat) : c ≠ d := fun e => hd (congrArg Char.toNat e)
  simp only [Name.isNameChar, Bool.or_eq_true, decide_eq_true_eq, Name.isLabelChar_iff] at h
  simp only [isPlain, isControl, Bool.and_eq_true, Bool.not_eq_true', Bool.or_eq_false_iff,
    decide_eq_false_iff_not, decide_eq_true_eq]
  rcases h with h | rfl
  · -- the codes of the quotes and of the braces lie between those of labels
    refine ⟨⟨⟨⟨⟨by omega, by omega⟩, hne ?_⟩, hne ?_⟩, hne ?_⟩, hne ?_⟩
    · show c.toNat ≠ 39; omega
    · show c.toNat ≠ 34; omega
    · show c.toNat ≠ 123; omega
    · show c.toNat ≠ 125; omega
  · decide

/-! ## Text for one line -/

/-- A text for a line of code: flat, and without control characters. -/
structure Harmless (t : Text) : Prop where
  flat : Flat t
  clean : ∀ c ∈ t, isControl c = false

namespace Harmless

variable {s t : Text}

theorem append (hs : Harmless s) (ht : Harmless t) : Harmless (s ++ t) := by
  refine ⟨hs.flat.append ht.flat, fun c hc => ?_⟩
  rcases List.mem_append.1 hc with hc | hc
  · exact hs.clean c hc
  · exact ht.clean c hc

theorem of_plain (h : Plain t) : Harmless t := by
  refine ⟨flat_of_plain h, fun c hc => ?_⟩
  have hc := h c hc
  simp only [isPlain, Bool.and_eq_true, Bool.not_eq_true'] at hc
  exact hc.1.1.1.1

theorem nil : Harmless [] := of_plain fun _ hc => by cases hc

theorem cons {c : Char} (hc : isPlain c) (ht : Harmless t) : Harmless (c :: t) :=
  append (of_plain (List.forall_mem_singleton.2 hc)) ht

theorem join {sep : Text} (hsep : Harmless sep) : ∀ {ps : List Text}, (∀ p ∈ ps, Harmless p) →
    Harmless (Text.join sep ps)
  | [], _ => nil
  | [p], h => by simpa [Text.join, List.intercalate] using h p List.mem_cons_self
  | p :: q :: ps, h => by
    have heq : Text.join sep (p :: q :: ps) = p ++ (sep ++ Text.join sep (q :: ps)) := by
      simp [Text.join, List.intercalate, List.intersperse]
    rw [heq]
    exact (h p List.mem_cons_self).append
      (hsep.append (join hsep fun r hr => h r (List.mem_cons_of_mem _ hr)))

end Harmless

end BuilderForge.Php
