import BuilderForge.Proofs.Literals
import BuilderForge.Proofs.Numerals
import BuilderForge.Proofs.Utf8
/-
  What a string literal says.

  A literal ends at the next equal quote that no backslash escapes, so its body
  is made of characters that stand for themselves and of backslashes with the
  character behind them (`IsBody`). In single quotes only a backslash and a
  quote are escaped. In double quotes there are names for some control
  characters, hexadecimal and octal bytes, and a backslash before anything else
  is a backslash; a bare dollar sign and a code point in braces are left out
  here, since no literal of a value has one.

  The characters of a string are written one by one, and what is written for
  one of them is read as its bytes whatever follows. So the body of a literal
  says the bytes of its string (`bytes?_body`).
-/

namespace BuilderForge.Php

/-! ## Bodies -/

/-- The body of a literal whose opening quote has been read, and what follows
its closing quote. There is none if the literal is open at the end of the text. -/
def closing? (quote : Char) : Text → Option (Text × Text)
  | [] => none
  | c :: t =>
    if c = '\\' then
      match t with
      | [] => none
      | d :: t => (closing? quote t).map fun r => (c :: d :: r.1, r.2)
    else if c = quote then some ([], t)
    else (closing? quote t).map fun r => (c :: r.1, r.2)

/-- A character that is no backslash closes the literal or belongs to its body. -/
theorem closing?_cons {quote c : Char} (hslash : c ≠ '\\') (t : Text) : closing? quote (c :: t) =
    if c = quote then some ([], t) else (closing? quote t).map fun r => (c :: r.1, r.2) := by
  rw [closing?.eq_def]
  dsimp only
  rw [if_neg hslash]

theorem length_closing?_lt {quote : Char} {t body rest : Text}
    (h : closing? quote t = some (body, rest)) : rest.length < t.length := by
  fun_induction closing? quote t generalizing body with
  | case1 => cases h
  | case2 => cases h
  | case3 d t ih =>
    obtain ⟨r, hr, hrest⟩ := Option.map_eq_some_iff.1 h
    obtain ⟨-, rfl⟩ := Prod.mk.inj hrest
    have := ih hr
    simp only [List.length_cons]
    omega
  | case4 c t =>
    obtain ⟨-, rfl⟩ := Prod.mk.inj (Option.some_inj.1 h)
    exact Nat.lt_succ_self _
  | case5 c t hslash hquote ih =>
    obtain ⟨r, hr, hrest⟩ := Option.map_eq_some_iff.1 h
    obtain ⟨-, rfl⟩ := Prod.mk.inj hrest
    exact Nat.lt_succ_of_lt (ih hr)

/-- Whether a text belongs to the body of a literal, whatever follows it there. -/
def IsBody (quote : Char) (u : Text) : Prop :=
  ∀ t, closing? quote (u ++ t) = (closing? quote t).map fun r => (u ++ r.1, r.2)

variable {quote : Char} {u v : Text}

theorem isBody_nil (quote : Char) : IsBody quote [] := by
  intro t
  show closing? quote t = _
  cases closing? quote t <;> rfl

theorem IsBody.append (hu : IsBody quote u) (hv : IsBody quote v) : IsBody quote (u ++ v) := by
  intro t
  rw [List.append_assoc, hu, hv, Option.map_map]
  refine congrArg (fun f => Option.map f _) (funext fun r => ?_)
  rw [Function.comp_apply, List.append_assoc]

theorem isBody_flatMap {α : Type} {f : α → Text} {l : List α} (h : ∀ a ∈ l, IsBody quote (f a)) :
    IsBody quote (l.flatMap f) := by
  induction l with
  | nil => exact isBody_nil quote
  | cons a l ih =>
    exact (h a List.mem_cons_self).append (ih fun b hb => h b (List.mem_cons_of_mem _ hb))

/-- A character that stands for itself. -/
theorem isBody_singleton {c : Char} (hslash : c ≠ '\\') (hquote : c ≠ quote) :
    IsBody quote [c] := by
  intro t
  rw [List.singleton_append, closing?_cons hslash, if_neg hquote]
  rfl

/-- A character behind a backslash. -/
theorem isBody_escape (quote c : Char) : IsBody quote ['\\', c] := by
  intro t
  rw [List.cons_append, List.singleton_append, closing?, if_pos rfl]
  rfl

/-- A literal is closed by the quote behind its body. -/
theorem IsBody.closing? (hu : IsBody quote u) (hquote : quote ≠ '\\') (t : Text) :
    closing? quote (u ++ quote :: t) = some (u, t) := by
  rw [hu, closing?_cons hquote, if_pos rfl, Option.map_some, List.append_nil]

/-! ## What bodies say -/

/-- The text that a body says in single quotes. -/
def singleQuoted : Text → Text
  | [] => []
  | [c] => [c]
  | c :: d :: t =>
    if c = '\\' ∧ (d = '\\' ∨ d = '\'') then d :: singleQuoted t else c :: singleQuoted (d :: t)

/-- The byte that digits of a base say, at most `width` of them, and what
follows them. There is none if there are no digits. -/
def numbered? (base width : Nat) (t : Text) : Option (UInt8 × Text) :=
  let digits := (t.take width).takeWhile (Numeral.isDigitOf base)
  if digits = [] then none else some ((Numeral.value base digits).toUInt8, t.drop digits.length)

/-- The bytes that a backslash in double quotes and what follows it say, and
what is left. -/
def escape? : Text → Option (List UInt8 × Text)
  | [] => some (Text.encodeChar '\\', [])
  | c :: t =>
    match named? c with
    | some d => some (Text.encodeChar d, t)
    | none =>
      if c = 'u' ∧ t.head? = some '\x7b' then none
      else
        let number? := if c = 'x' ∨ c = 'X' then numbered? 16 2 t else numbered? 8 3 (c :: t)
        match number? with
        | some (b, rest) => some ([b], rest)
        | none => some (Text.encodeChar '\\', c :: t)

theorem length_numbered?_le {base width : Nat} {t rest : Text} {b : UInt8}
    (h : numbered? base width t = some (b, rest)) : rest.length ≤ t.length := by
  unfold numbered? at h
  dsimp only at h
  split at h
  · cases h
  · obtain ⟨-, rfl⟩ := Prod.mk.inj (Option.some_inj.1 h)
    rw [List.length_drop]
    exact Nat.sub_le _ _

theorem length_escape?_le {t rest : Text} {bs : List UInt8} (h : escape? t = some (bs, rest)) :
    rest.length ≤ t.length := by
  unfold escape? at h
  split at h
  · obtain ⟨-, rfl⟩ := Prod.mk.inj (Option.some_inj.1 h)
    exact Nat.le_refl _
  · rename_i c t
    dsimp only at h
    split at h
    · obtain ⟨-, rfl⟩ := Prod.mk.inj (Option.some_inj.1 h)
      exact Nat.le_succ _
    split at h
    · cases h
    split at h
    · rename_i hnumber
      obtain ⟨-, rfl⟩ := Prod.mk.inj (Option.some_inj.1 h)
      split at hnumber
      · exact Nat.le_succ_of_le (length_numbered?_le hnumber)
      · exact length_numbered?_le hnumber
    · obtain ⟨-, rfl⟩ := Prod.mk.inj (Option.some_inj.1 h)
      exact Nat.le_refl _

/-- The bytes that a body says in double quotes. -/
def doubleQuoted? : Text → Option (List UInt8)
  | [] => some []
  | c :: t =>
    if c = '\\' then
      match _h : escape? t with
      | none => none
      | some (bs, rest) => (doubleQuoted? rest).map (bs ++ ·)
    else if c = '$' then none
    else (doubleQuoted? t).map (Text.encodeChar c ++ ·)
termination_by t => t.length
decreasing_by
  · exact Nat.lt_succ_of_le (length_escape?_le _h)
  · exact Nat.lt_succ_self _

/-- The bytes that a body says in quotes. -/
def bytes? (quote : Char) (body : Text) : Option (List UInt8) :=
  if quote = '"' then doubleQuoted? body else some (Text.encode (singleQuoted body))

theorem doubleQuoted?_escape {t rest : Text} {bs : List UInt8} (h : escape? t = some (bs, rest)) :
    doubleQuoted? ('\\' :: t) = (doubleQuoted? rest).map (bs ++ ·) := by
  rw [doubleQuoted?, if_pos rfl]
  split
  · rename_i hnone
    rw [h] at hnone
    cases hnone
  · rename_i hsome
    rw [h] at hsome
    obtain ⟨rfl, rfl⟩ := Prod.mk.inj (Option.some_inj.1 hsome)
    rfl

theorem doubleQuoted?_plain {c : Char} (hslash : c ≠ '\\') (hdollar : c ≠ '$') (t : Text) :
    doubleQuoted? (c :: t) = (doubleQuoted? t).map (Text.encodeChar c ++ ·) := by
  rw [doubleQuoted?, if_neg hslash, if_neg hdollar]

/-- The two digits of a byte are read as the byte. -/
theorem escape?_hexByte (b : UInt8) (t : Text) :
    escape? ('x' :: (Numeral.hexByte b ++ t)) = some ([b], t) := by
  have hb : b.toNat < 256 := b.toNat_lt
  have hdigit {n : Nat} (hn : n < 16) :
      Numeral.isDigitOf 16 (Numeral.hexByte.hexDigit n) = true := by
    rw [Numeral.isDigitOf, Numeral.hexDigit_digit hn]
    exact decide_eq_true hn
  have hread : numbered? 16 2 (Numeral.hexByte b ++ t) = some (b, t) := by
    have htake : ((Numeral.hexByte b ++ t).take 2).takeWhile (Numeral.isDigitOf 16) =
        Numeral.hexByte b := by
      rw [Numeral.hexByte, List.cons_append, List.singleton_append, List.take_succ_cons,
        List.take_succ_cons, List.take_zero, List.takeWhile_cons_of_pos (hdigit (by omega)),
        List.takeWhile_cons_of_pos (hdigit (by omega)), List.takeWhile_nil]
    unfold numbered?
    rw [htake]
    have hne : Numeral.hexByte b ≠ [] := List.cons_ne_nil _ _
    rw [if_neg hne, Numeral.value_hexByte, List.drop_left, Nat.toUInt8, UInt8.ofNat_toNat]
  have hname : named? 'x' = none := by decide
  rw [escape?, hname]
  dsimp only
  rw [if_neg (by simp), if_pos (.inl rfl), hread]

end BuilderForge.Php

namespace BuilderForge.Value

open Php (IsBody bytes? doubleQuoted? named? singleQuoted)

/-! ## Characters -/

theorem isBody_singleQuotedChar (c : Char) : IsBody '\'' (singleQuotedChar c) := by
  unfold singleQuotedChar
  split
  · exact Php.isBody_escape _ _
  · rename_i h
    rw [not_or] at h
    exact Php.isBody_singleton h.1 h.2

theorem singleQuoted_singleQuotedChar (c : Char) (t : Text) :
    singleQuoted (singleQuotedChar c ++ t) = c :: singleQuoted t := by
  unfold singleQuotedChar
  split
  · rename_i h
    rw [List.cons_append, List.singleton_append, singleQuoted, if_pos ⟨rfl, h⟩]
  · rename_i h
    rw [not_or] at h
    cases t with
    | nil => rfl
    | cons d t => rw [List.singleton_append, singleQuoted, if_neg fun hc => h.1 hc.1]

theorem isBody_hexByte (b : UInt8) : IsBody '"' ('\\' :: 'x' :: Numeral.hexByte b) := by
  have hdigits : IsBody '"' ((Numeral.hexByte b).flatMap fun c => [c]) := by
    refine Php.isBody_flatMap fun c hc => ?_
    have hlabel := isLabelChar_of_mem_hexByte hc
    refine Php.isBody_singleton ?_ ?_
    · rintro rfl
      exact absurd hlabel (by decide)
    · rintro rfl
      exact absurd hlabel (by decide)
  rw [List.flatMap_singleton'] at hdigits
  exact (Php.isBody_escape _ 'x').append hdigits

theorem isBody_doubleQuotedChar (c : Char) : IsBody '"' (doubleQuotedChar c) := by
  obtain ⟨e, -, -, h⟩ | h | ⟨⟨-, hslash, hquote, -⟩, h⟩ := doubleQuotedChar_cases c
  · rw [h]
    exact Php.isBody_escape _ e
  · rw [h]
    exact Php.isBody_flatMap fun b _ => isBody_hexByte b
  · rw [h]
    exact Php.isBody_singleton hslash hquote

theorem doubleQuoted?_hexBytes (bs : List UInt8) (t : Text) :
    doubleQuoted? ((bs.flatMap fun b => '\\' :: 'x' :: Numeral.hexByte b) ++ t) =
      (doubleQuoted? t).map (bs ++ ·) := by
  induction bs with
  | nil =>
    show doubleQuoted? t = _
    cases doubleQuoted? t <;> rfl
  | cons b bs ih =>
    rw [List.flatMap_cons, List.append_assoc, List.cons_append, List.cons_append,
      Php.doubleQuoted?_escape (Php.escape?_hexByte b _), ih, Option.map_map]
    rfl

/-- What is written for a character in double quotes is read as its bytes. -/
theorem doubleQuoted?_doubleQuotedChar (c : Char) (t : Text) :
    doubleQuoted? (doubleQuotedChar c ++ t) = (doubleQuoted? t).map (Text.encodeChar c ++ ·) := by
  obtain ⟨e, -, he, h⟩ | h | ⟨⟨-, hslash, -, hdollar⟩, h⟩ := doubleQuotedChar_cases c
  · have hescape : Php.escape? (e :: t) = some (Text.encodeChar c, t) := by rw [Php.escape?, he]
    rw [h, List.cons_append, List.singleton_append, Php.doubleQuoted?_escape hescape]
  · rw [h, doubleQuoted?_hexBytes]
  · rw [h, List.singleton_append, Php.doubleQuoted?_plain hslash hdollar]

/-! ## Strings -/

/-- The quote that a string is written in. -/
def quoteOf (s : Text) : Char := if s.any isControl then '"' else '\''

/-- The body of a string's literal. -/
def bodyOf (s : Text) : Text :=
  if s.any isControl then s.flatMap doubleQuotedChar else s.flatMap singleQuotedChar

theorem quoted_eq (s : Text) : quoted s = quoteOf s :: (bodyOf s ++ [quoteOf s]) := by
  unfold quoted quoteOf bodyOf
  split <;> rfl

theorem quoteOf_cases (s : Text) : quoteOf s = '\'' ∨ quoteOf s = '"' := by
  unfold quoteOf
  split
  · exact .inr rfl
  · exact .inl rfl

theorem isBody_bodyOf (s : Text) : IsBody (quoteOf s) (bodyOf s) := by
  unfold quoteOf bodyOf
  split
  · exact Php.isBody_flatMap fun c _ => isBody_doubleQuotedChar c
  · exact Php.isBody_flatMap fun c _ => isBody_singleQuotedChar c

theorem singleQuoted_flatMap (s : Text) : singleQuoted (s.flatMap singleQuotedChar) = s := by
  induction s with
  | nil => rfl
  | cons c s ih => rw [List.flatMap_cons, singleQuoted_singleQuotedChar, ih]

theorem doubleQuoted?_flatMap (s : Text) :
    doubleQuoted? (s.flatMap doubleQuotedChar) = some (Text.encode s) := by
  induction s with
  | nil => rw [List.flatMap_nil, doubleQuoted?]; rfl
  | cons c s ih => rw [List.flatMap_cons, doubleQuoted?_doubleQuotedChar, ih]; rfl

/-- The literal of a string says the bytes of the string. -/
theorem bytes?_body (s : Text) : bytes? (quoteOf s) (bodyOf s) = some (Text.encode s) := by
  unfold bytes? quoteOf bodyOf
  split
  · rw [if_pos rfl, doubleQuoted?_flatMap]
  · rw [if_neg (by decide), singleQuoted_flatMap]

end BuilderForge.Value
