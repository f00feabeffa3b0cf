import Mathlib.Data.List.TakeWhile
import BuilderForge.Proofs.Decimals
import BuilderForge.Proofs.StringLiterals
/-
  Literals are read as expressions.

  A reader of PHP source takes tokens from the text (`lex`) and makes an
  expression of them with a stack of the arrays that are open (`Reader`).
  Numbers are words here: what a word stands for is not a question of grammar.

  `Reads t e` says that a reader who waits for an expression has read `e` behind
  `t`, whatever stands around `t`, if only no word goes on behind it. It is
  proved of words, of strings and of arrays of what is read, and so of the
  literal of every value (`reads_literal`).
-/

namespace BuilderForge.Php

/-! ## Tokens -/

/-- The smallest parts of an expression. -/
inductive Token where
  | word (t : Text)
  | literal (quote : Char) (body : Text)
  | minus
  | opening
  | closing
  | comma
  | arrow

/-- Whether a character belongs to a word. -/
def isWordChar (c : Char) : Bool := Name.isLabelChar c || c = '.'

/-- The token that one character makes. -/
def sign? (c : Char) : Option Token :=
  if c = '-' then some .minus
  else if c = '[' then some .opening
  else if c = ']' then some .closing
  else if c = ',' then some .comma
  else none

/-- The tokens of a text, if it has no other parts. -/
def lex : Text → Option (List Token)
  | [] => some []
  | c :: t =>
    if c = ' ' then lex t
    else if isWordChar c then
      (lex (t.dropWhile isWordChar)).map (.word (c :: t.takeWhile isWordChar) :: ·)
    else if c = '\'' ∨ c = '"' then
      match _h : closing? c t with
      | none => none
      | some (body, rest) => (lex rest).map (.literal c body :: ·)
    else if c = '=' ∧ t.head? = some '>' then (lex t.tail).map (.arrow :: ·)
    else (sign? c).bind fun s => (lex t).map (s :: ·)
termination_by t => t.length
decreasing_by
  · exact Nat.lt_succ_self _
  · exact Nat.lt_succ_of_le (List.length_dropWhile_le _ _)
  · exact Nat.lt_succ_of_lt (length_closing?_lt _h)
  · exact Nat.lt_succ_of_le (by rw [List.length_tail]; exact Nat.sub_le _ _)
  · exact Nat.lt_succ_self _

/-- Whether a text goes on with something else than a word. -/
def EndsWord (t : Text) : Prop := ∀ c, t.head? = some c → isWordChar c = false

theorem endsWord_nil : EndsWord [] := fun _ h => nomatch h

theorem endsWord_cons {c : Char} (hc : isWordChar c = false) (t : Text) : EndsWord (c :: t) := by
  intro d hd
  rwa [← Option.some_inj.1 hd]

/-- Whether a text is one word. -/
def IsWord (w : Text) : Prop := w ≠ [] ∧ ∀ c ∈ w, isWordChar c

variable {w rest : Text}

theorem isWord_of_all (h : w ≠ [] ∧ w.all isWordChar) : IsWord w :=
  ⟨h.1, List.all_eq_true.1 h.2⟩

theorem lex_space (t : Text) : lex (' ' :: t) = lex t := by
  rw [lex, if_pos rfl]

theorem lex_word (hw : IsWord w) (hrest : EndsWord rest) :
    lex (w ++ rest) = (lex rest).map (.word w :: ·) := by
  obtain ⟨hne, hchars⟩ := hw
  obtain ⟨c, w, rfl⟩ := List.exists_cons_of_ne_nil hne
  have hc := hchars c List.mem_cons_self
  have htail : ∀ d ∈ w, isWordChar d := fun d hd => hchars d (List.mem_cons_of_mem _ hd)
  have hspace : c ≠ ' ' := by
    rintro rfl
    exact absurd hc (by decide)
  have hstop : rest.takeWhile isWordChar = [] ∧ rest.dropWhile isWordChar = rest := by
    cases rest with
    | nil => exact ⟨rfl, rfl⟩
    | cons d rest =>
      have hd : ¬isWordChar d = true := by
        rw [hrest d rfl]
        exact Bool.false_ne_true
      exact ⟨List.takeWhile_cons_of_neg hd, List.dropWhile_cons_of_neg hd⟩
  rw [List.cons_append, lex, if_neg hspace, if_pos hc, List.dropWhile_append_of_pos htail,
    List.takeWhile_append_of_pos htail, hstop.1, hstop.2, List.append_nil]

theorem lex_literal {quote : Char} (hquote : quote = '\'' ∨ quote = '"') {body : Text}
    (hbody : IsBody quote body) (rest : Text) :
    lex (quote :: (body ++ quote :: rest)) = (lex rest).map (.literal quote body :: ·) := by
  have hslash : quote ≠ '\\' := by rcases hquote with rfl | rfl <;> decide
  have hother : quote ≠ ' ' ∧ isWordChar quote = false := by rcases hquote with rfl | rfl <;> decide
  have hclosing := hbody.closing? hslash rest
  rw [lex, if_neg hother.1, hother.2, if_neg Bool.false_ne_true, if_pos hquote]
  split
  · rename_i hnone
    rw [hclosing] at hnone
    cases hnone
  · rename_i hsome
    rw [hclosing] at hsome
    obtain ⟨rfl, rfl⟩ := Prod.mk.inj (Option.some_inj.1 hsome)
    rfl

theorem lex_sign {c : Char} {s : Token} (hs : sign? c = some s) (t : Text) :
    lex (c :: t) = (lex t).map (s :: ·) := by
  have hother : c ≠ ' ' ∧ isWordChar c = false ∧ ¬(c = '\'' ∨ c = '"') ∧ c ≠ '=' := by
    by_contra hc
    have hnone : sign? c = none := by
      unfold sign?
      split
      · subst c
        exact absurd (by decide) hc
      split
      · subst c
        exact absurd (by decide) hc
      split
      · subst c
        exact absurd (by decide) hc
      split
      · subst c
        exact absurd (by decide) hc
      · rfl
    rw [hnone] at hs
    cases hs
  obtain ⟨hspace, hword, hquote, hequals⟩ := hother
  rw [lex, if_neg hspace, hword, if_neg Bool.false_ne_true, if_neg hquote,
    if_neg fun h => hequals h.1, hs, Option.bind_some]

theorem lex_arrow (t : Text) : lex ('=' :: '>' :: t) = (lex t).map (.arrow :: ·) := by
  rw [lex, if_neg (by decide), if_neg (by decide), if_neg (by decide), if_pos ⟨rfl, rfl⟩,
    List.tail_cons]

/-! ## Expressions -/

/-- An expression without parts: a word, maybe with a minus sign in front, or
the body of a string in its quotes. -/
inductive Atom where
  | word (negative : Bool) (t : Text)
  | literal (quote : Char) (body : Text)

/-- An expression. The entries of an array have keys or not. -/
inductive Expression where
  | atom (a : Atom)
  | array (entries : List (Option Atom × Expression))

/-- What atoms and arrays are taken for. -/
structure Interpretation (κ α : Type) where
  atom? : Atom → Option α
  key? : Atom → Option κ
  list : List α → α
  map : List (κ × α) → α

namespace Interpretation

variable {κ α : Type}

mutual

/-- What an expression is taken for. An array of which some entries have keys and
others have none is not taken for anything. -/
def expression? (I : Interpretation κ α) : Expression → Option α
  | .atom a => I.atom? a
  | .array entries =>
    match I.items? entries with
    | some items => some (I.list items)
    | none => (I.entries? entries).map I.map

/-- What entries without keys are taken for. -/
def items? (I : Interpretation κ α) : List (Option Atom × Expression) → Option (List α)
  | [] => some []
  | (some _, _) :: _ => none
  | (none, e) :: rest => (I.expression? e).bind fun a => (I.items? rest).map (a :: ·)

/-- What entries with keys are taken for. -/
def entries? (I : Interpretation κ α) : List (Option Atom × Expression) → Option (List (κ × α))
  | [] => some []
  | (none, _) :: _ => none
  | (some key, e) :: rest =>
    (I.key? key).bind fun k => (I.expression? e).bind fun a => (I.entries? rest).map ((k, a) :: ·)

end

end Interpretation

/-- An array that is open: the entries closed so far, and the key of the entry
that is read. -/
structure Frame where
  entries : List (Option Atom × Expression)
  key : Option Atom

/-- What a reader has of the expression under way: nothing, a minus sign, or
the expression. -/
inductive Focus where
  | nothing
  | minus
  | read (e : Expression)

/-- A reader: the arrays that are open, the innermost first, and the expression
under way. -/
structure Reader where
  frames : List Frame
  focus : Focus

/-- The reader after a token, if the token may stand there. -/
def Reader.next : Reader → Token → Option Reader
  | ⟨fs, .nothing⟩, .word t => some ⟨fs, .read (.atom (.word false t))⟩
  | ⟨fs, .nothing⟩, .minus => some ⟨fs, .minus⟩
  | ⟨fs, .minus⟩, .word t => some ⟨fs, .read (.atom (.word true t))⟩
  | ⟨fs, .nothing⟩, .literal quote body => some ⟨fs, .read (.atom (.literal quote body))⟩
  | ⟨fs, .nothing⟩, .opening => some ⟨⟨[], none⟩ :: fs, .nothing⟩
  | ⟨⟨es, none⟩ :: fs, .nothing⟩, .closing => some ⟨fs, .read (.array es)⟩
  | ⟨⟨es, key⟩ :: fs, .read e⟩, .closing => some ⟨fs, .read (.array (es ++ [(key, e)]))⟩
  | ⟨⟨es, key⟩ :: fs, .read e⟩, .comma => some ⟨⟨es ++ [(key, e)], none⟩ :: fs, .nothing⟩
  | ⟨⟨es, none⟩ :: fs, .read (.atom a)⟩, .arrow => some ⟨⟨es, some a⟩ :: fs, .nothing⟩
  | _, _ => none

/-- The expression that a reader has who may stop. -/
def Reader.result? : Reader → Option Expression
  | ⟨[], .read e⟩ => some e
  | _ => none

/-- The expression that a reader makes of tokens. -/
def Reader.run (r : Reader) : List Token → Option Expression
  | [] => r.result?
  | s :: ts => (r.next s).bind fun r => r.run ts

/-- The expression that a reader has at the end of a text. -/
def Reader.readText (r : Reader) (t : Text) : Option Expression := (lex t).bind r.run

/-- The expression that a text is. -/
def parse? (t : Text) : Option Expression := Reader.readText ⟨[], .nothing⟩ t

theorem Reader.readText_of_lex {r r' : Reader} {s : Token} {t rest : Text}
    (hlex : lex t = (lex rest).map (s :: ·)) (hnext : r.next s = some r') :
    r.readText t = r'.readText rest := by
  rw [readText, hlex, Option.bind_map, readText]
  refine congrArg (Option.bind _) (funext fun ts => ?_)
  rw [Function.comp_apply, run, hnext, Option.bind_some]

/-- Whether a reader who waits for an expression has read one behind a text, if no
word goes on there. -/
def Reads (t : Text) (e : Expression) : Prop := ∀ fs rest, EndsWord rest →
  Reader.readText ⟨fs, .nothing⟩ (t ++ rest) = Reader.readText ⟨fs, .read e⟩ rest

theorem Reads.parse? {t : Text} {e : Expression} (h : Reads t e) : parse? t = some e := by
  have hend := h [] [] endsWord_nil
  rw [List.append_nil] at hend
  rw [Php.parse?, hend, Reader.readText, lex]
  rfl

theorem reads_word (hw : IsWord w) : Reads w (.atom (.word false w)) :=
  fun _ _ hrest => Reader.readText_of_lex (lex_word hw hrest) rfl

theorem reads_minus (hw : IsWord w) : Reads ('-' :: w) (.atom (.word true w)) := by
  intro fs rest hrest
  calc Reader.readText ⟨fs, .nothing⟩ ('-' :: (w ++ rest))
      = Reader.readText ⟨fs, .minus⟩ (w ++ rest) := Reader.readText_of_lex (lex_sign rfl _) rfl
    _ = Reader.readText ⟨fs, .read _⟩ rest := Reader.readText_of_lex (lex_word hw hrest) rfl

theorem reads_quoted {quote : Char} (hquote : quote = '\'' ∨ quote = '"') {body : Text}
    (hbody : IsBody quote body) :
    Reads (quote :: (body ++ [quote])) (.atom (.literal quote body)) := by
  intro fs rest _
  rw [List.cons_append, List.append_assoc, List.singleton_append]
  exact Reader.readText_of_lex (lex_literal hquote hbody rest) rfl

/-! ## Arrays -/

/-- Whether a text is read as an entry of an array. -/
def ReadsEntry (t : Text) (entry : Option Atom × Expression) : Prop := ∀ es fs rest, EndsWord rest →
  Reader.readText ⟨⟨es, none⟩ :: fs, .nothing⟩ (t ++ rest) =
    Reader.readText ⟨⟨es, entry.1⟩ :: fs, .read entry.2⟩ rest

theorem Reads.item {t : Text} {e : Expression} (h : Reads t e) : ReadsEntry t (none, e) :=
  fun _ _ rest hrest => h _ rest hrest

theorem Reads.entry {key t : Text} {a : Atom} {e : Expression} (hkey : Reads key (.atom a))
    (h : Reads t e) : ReadsEntry (key ++ " => ".toList ++ t) (some a, e) := by
  intro es fs rest hrest
  have hends : EndsWord (" => ".toList ++ (t ++ rest)) := endsWord_cons (by decide) _
  have hspace {r : Reader} (t : Text) : r.readText (' ' :: t) = r.readText t := by
    rw [Reader.readText, lex_space, Reader.readText]
  calc Reader.readText ⟨⟨es, none⟩ :: fs, .nothing⟩ (key ++ " => ".toList ++ t ++ rest)
      = Reader.readText ⟨⟨es, none⟩ :: fs, .nothing⟩ (key ++ (" => ".toList ++ (t ++ rest))) := by
        rw [List.append_assoc, List.append_assoc]
    _ = Reader.readText ⟨⟨es, none⟩ :: fs, .read (.atom a)⟩ (" => ".toList ++ (t ++ rest)) :=
        hkey _ _ hends
    _ = Reader.readText ⟨⟨es, none⟩ :: fs, .read (.atom a)⟩ ('=' :: '>' :: ' ' :: (t ++ rest)) :=
        hspace _
    _ = Reader.readText ⟨⟨es, some a⟩ :: fs, .nothing⟩ (' ' :: (t ++ rest)) :=
        Reader.readText_of_lex (lex_arrow _) rfl
    _ = Reader.readText ⟨⟨es, some a⟩ :: fs, .nothing⟩ (t ++ rest) := hspace _
    _ = Reader.readText ⟨⟨es, some a⟩ :: fs, .read e⟩ rest := h _ _ hrest

/-- Entries with commas between them are read one after the other. -/
theorem readText_join {ts : List Text} {entries : List (Option Atom × Expression)}
    (h : List.Forall₂ ReadsEntry ts entries) (es : List (Option Atom × Expression))
    (fs : List Frame) (rest : Text) :
    Reader.readText ⟨⟨es, none⟩ :: fs, .nothing⟩ (Text.join [',', ' '] ts ++ ']' :: rest) =
      Reader.readText ⟨fs, .read (.array (es ++ entries))⟩ rest := by
  have hclosing : EndsWord (']' :: rest) := endsWord_cons (by decide) _
  induction h generalizing es with
  | nil =>
    rw [List.append_nil]
    exact Reader.readText_of_lex (lex_sign rfl rest) rfl
  | @cons t entry ts entries ht hts ih =>
    cases hts with
    | nil =>
      rw [Text.join, List.intercalate_singleton, ht es fs _ hclosing]
      exact Reader.readText_of_lex (lex_sign rfl rest) rfl
    | @cons t' entry' ts entries ht' hts =>
      have hjoin : Text.join [',', ' '] (t :: t' :: ts) ++ ']' :: rest =
          t ++ ',' :: ' ' :: (Text.join [',', ' '] (t' :: ts) ++ ']' :: rest) := by
        rw [Text.join, List.intercalate_cons_cons, Text.join, List.append_assoc, List.append_assoc]
        rfl
      rw [hjoin, ht es fs _ (endsWord_cons (by decide) _),
        Reader.readText_of_lex (lex_sign rfl _) rfl, Reader.readText, lex_space, ← Reader.readText, ih,
        List.append_assoc]
      rfl

theorem reads_array {ts : List Text} {entries : List (Option Atom × Expression)}
    (h : List.Forall₂ ReadsEntry ts entries) :
    Reads ('[' :: (Text.join [',', ' '] ts ++ [']'])) (.array entries) := by
  intro fs rest _
  calc Reader.readText ⟨fs, .nothing⟩ ('[' :: (Text.join [',', ' '] ts ++ [']']) ++ rest)
      = Reader.readText ⟨fs, .nothing⟩ ('[' :: (Text.join [',', ' '] ts ++ ']' :: rest)) := by
        rw [List.cons_append, List.append_assoc, List.singleton_append]
    _ = Reader.readText ⟨⟨[], none⟩ :: fs, .nothing⟩ (Text.join [',', ' '] ts ++ ']' :: rest) :=
        Reader.readText_of_lex (lex_sign rfl _) rfl
    _ = Reader.readText ⟨fs, .read (.array entries)⟩ rest := readText_join h [] fs rest

/-! ## Signed words -/

/-- A text as a word, with a minus sign in front if it has one. -/
def Atom.ofText : Text → Atom
  | [] => .word false []
  | c :: t => if c = '-' then .word true t else .word false (c :: t)

/-- Whether a text is a word, with at most a minus sign in front. -/
def IsSigned (t : Text) : Prop := IsWord t ∨ ∃ w, t = '-' :: w ∧ IsWord w

theorem Atom.ofText_word (hw : IsWord w) : ofText w = .word false w := by
  obtain ⟨hne, hchars⟩ := hw
  obtain ⟨c, w, rfl⟩ := List.exists_cons_of_ne_nil hne
  have hc : c ≠ '-' := by
    rintro rfl
    exact absurd (hchars _ List.mem_cons_self) (by decide)
  rw [ofText, if_neg hc]

theorem Atom.ofText_minus (w : Text) : ofText ('-' :: w) = .word true w := by
  rw [ofText, if_pos rfl]

theorem reads_signed {t : Text} (h : IsSigned t) : Reads t (.atom (.ofText t)) := by
  obtain hw | ⟨w, rfl, hw⟩ := h
  · rw [Atom.ofText_word hw]
    exact reads_word hw
  · rw [Atom.ofText_minus]
    exact reads_minus hw

theorem isWord_of_digits {t : Text} (hne : t ≠ []) (h : ∀ c ∈ t, c.isDigit) : IsWord t :=
  ⟨hne, fun c hc => by simp [isWordChar, Name.isLabelChar, Char.isAlphanum, h c hc]⟩

theorem isWord_ofNat (n : Nat) : IsWord (Numeral.ofNat n) :=
  isWord_of_digits (Numeral.ofNat_ne_nil n) fun _ hc => Numeral.isDigit_of_mem_ofNat hc

theorem isSigned_ofInt (i : Int) : IsSigned (Numeral.ofInt i) := by
  unfold Numeral.ofInt
  split
  · exact .inr ⟨_, rfl, isWord_ofNat _⟩
  · exact .inl (isWord_ofNat _)

theorem Atom.ofText_ofInt (i : Int) :
    ofText (Numeral.ofInt i) = .word (i < 0) (Numeral.ofNat i.natAbs) := by
  unfold Numeral.ofInt
  split
  · rename_i h
    rw [ofText_minus, decide_eq_true h]
  · rename_i h
    rw [ofText_word (isWord_ofNat _), decide_eq_false h]

theorem isWord_of_isPointed {t whole places : Text} (h : Binary64.IsPointed t whole places) :
    IsWord t := by
  obtain ⟨rfl, hwhole, hplaces⟩ := h
  refine ⟨by simp, fun c hc => ?_⟩
  rcases List.mem_append.1 hc with hc | hc
  · exact (isWord_of_digits hwhole.1 hwhole.2).2 c hc
  rcases List.mem_cons.1 hc with rfl | hc
  · decide
  · exact (isWord_of_digits hplaces.1 hplaces.2).2 c hc

end BuilderForge.Php

namespace BuilderForge.Value

open Php (Atom Expression IsSigned IsWord Reads ReadsEntry)

/-! ## Values -/

theorem isSigned_floatLiteral (x : Binary64) : IsSigned (floatLiteral x) := by
  obtain ⟨hx, h⟩ | ⟨-, h⟩ | ⟨-, h⟩ := x.floatLiteral_cases
  · obtain ⟨whole, places, hpointed, -⟩ := Binary64.magnitude?_magnitudeText hx
    have hmagnitude := Php.isWord_of_isPointed hpointed
    rw [h]
    split
    · exact .inr ⟨_, rfl, hmagnitude⟩
    · exact .inl hmagnitude
  · rw [h]
    split
    · exact .inr ⟨"INF".toList, rfl, Php.isWord_of_all (by decide)⟩
    · exact .inl (Php.isWord_of_all (by decide))
  · rw [h]
    exact .inl (Php.isWord_of_all (by decide))

theorem ofText_floatLiteral {x : Binary64} (hx : x.IsFinite) :
    Atom.ofText (floatLiteral x) = .word x.negative x.magnitudeText := by
  obtain ⟨whole, places, hpointed, -⟩ := Binary64.magnitude?_magnitudeText hx
  rw [Binary64.floatLiteral_eq hx]
  cases x.negative with
  | true => exact Atom.ofText_minus _
  | false => exact Atom.ofText_word (Php.isWord_of_isPointed hpointed)

/-- The string as an expression. -/
def stringAtom (s : Text) : Atom := .literal (quoteOf s) (bodyOf s)

/-- The key of an entry as an expression. -/
def keyAtom (key : Text) : Atom := if Numeral.isCanonical key then .ofText key else stringAtom key

mutual

/-- The expression that a value is written as. -/
def expression : Value → Expression
  | .null => .atom (.word false "null".toList)
  | .bool true => .atom (.word false "true".toList)
  | .bool false => .atom (.word false "false".toList)
  | .int i => .atom (.ofText (Numeral.ofInt i.toInt))
  | .float x => .atom (.ofText (floatLiteral x))
  | .string s => .atom (stringAtom s)
  | .list items => .array (itemExpressions items)
  | .map entries => .array (entryExpressions entries)

/-- The items of a list as entries without keys. -/
def itemExpressions : List Value → List (Option Atom × Expression)
  | [] => []
  | v :: vs => (none, expression v) :: itemExpressions vs

/-- The entries of a map as entries with keys. -/
def entryExpressions : List (Text × Value) → List (Option Atom × Expression)
  | [] => []
  | (k, v) :: rest => (some (keyAtom k), expression v) :: entryExpressions rest

end

section

variable {κ α : Type} {I : Php.Interpretation κ α}

theorem expression?_list {items : List Value} {as : List α}
    (h : I.items? (itemExpressions items) = some as) :
    I.expression? (.array (itemExpressions items)) = some (I.list as) := by
  rw [Php.Interpretation.expression?, h]

/-- Entries with keys are no items, unless there are none. -/
theorem expression?_map {entries : List (Text × Value)} {as : List (κ × α)}
    (h : I.entries? (entryExpressions entries) = some as) :
    I.expression? (.array (entryExpressions entries)) =
      some (if as = [] then I.list [] else I.map as) := by
  rw [Php.Interpretation.expression?]
  cases entries with
  | nil =>
    rw [entryExpressions, Php.Interpretation.entries?] at h
    rw [entryExpressions, Php.Interpretation.items?, ← Option.some_inj.1 h, if_pos rfl]
  | cons e entries =>
    have hitems : I.items? (entryExpressions (e :: entries)) = none := by
      rw [entryExpressions, Php.Interpretation.items?]
    have hne : as ≠ [] := by
      rintro rfl
      rw [entryExpressions, Php.Interpretation.entries?] at h
      obtain ⟨k, -, h⟩ := Option.bind_eq_some_iff.1 h
      obtain ⟨a, -, h⟩ := Option.bind_eq_some_iff.1 h
      obtain ⟨as, -, h⟩ := Option.map_eq_some_iff.1 h
      cases h
    rw [hitems, h, if_neg hne]
    rfl

end

theorem reads_quoted (s : Text) : Reads (quoted s) (.atom (stringAtom s)) := by
  rw [quoted_eq]
  exact Php.reads_quoted (quoteOf_cases s) (isBody_bodyOf s)

theorem eq_ofInt_of_isCanonical {key : Text} (h : Numeral.isCanonical key) :
    ∃ i, Numeral.fitsWord i ∧ key = Numeral.ofInt i := by
  obtain ⟨i, -, hi⟩ := (Option.any_eq_true _ _).1 h
  simp only [Bool.and_eq_true, decide_eq_true_eq] at hi
  exact ⟨i, hi.1, hi.2.symm⟩

theorem reads_keyLiteral (key : Text) : Reads (keyLiteral key) (.atom (keyAtom key)) := by
  unfold keyLiteral keyAtom
  split
  · rename_i h
    obtain ⟨i, -, rfl⟩ := eq_ofInt_of_isCanonical h
    exact Php.reads_signed (Php.isSigned_ofInt i)
  · exact reads_quoted key

mutual

/-- The literal of a value is read as the value's expression. -/
theorem reads_literal : (v : Value) → Reads v.literal v.expression
  | .null => by
    rw [literal, expression]
    exact Php.reads_word (Php.isWord_of_all (by decide))
  | .bool true => by
    rw [literal, expression]
    exact Php.reads_word (Php.isWord_of_all (by decide))
  | .bool false => by
    rw [literal, expression]
    exact Php.reads_word (Php.isWord_of_all (by decide))
  | .int i => by
    rw [literal, expression]
    exact Php.reads_signed (Php.isSigned_ofInt i.toInt)
  | .float x => by
    rw [literal, expression]
    exact Php.reads_signed (isSigned_floatLiteral x)
  | .string s => by
    rw [literal, expression]
    exact reads_quoted s
  | .list items => by
    rw [literal, expression]
    exact Php.reads_array (readsEntry_itemLiterals items)
  | .map entries => by
    rw [literal, expression]
    exact Php.reads_array (readsEntry_entryLiterals entries)

theorem readsEntry_itemLiterals : (items : List Value) →
    List.Forall₂ ReadsEntry (itemLiterals items) (itemExpressions items)
  | [] => by
    rw [itemLiterals, itemExpressions]
    exact .nil
  | v :: vs => by
    rw [itemLiterals, itemExpressions]
    exact .cons (reads_literal v).item (readsEntry_itemLiterals vs)

theorem readsEntry_entryLiterals : (entries : List (Text × Value)) →
    List.Forall₂ ReadsEntry (entryLiterals entries) (entryExpressions entries)
  | [] => by
    rw [entryLiterals, entryExpressions]
    exact .nil
  | (k, v) :: rest => by
    rw [entryLiterals, entryExpressions]
    exact .cons ((reads_keyLiteral k).entry (reads_literal v)) (readsEntry_entryLiterals rest)

end

end BuilderForge.Value
