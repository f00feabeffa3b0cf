import Mathlib.Data.List.Nodup
import BuilderForge.Proofs.Decoding
/-
  What PHP makes of a literal.

  `evaluate?` reads a text as an expression and computes it by the rules of the
  language. Digits are an integer if it fits into 64 bits and else a
  floating-point number, and a minus sign is applied to what they are. A string
  is its bytes. An array takes its entries one after the other: an entry without
  a key gets the next position, a key that is the written form of an integer is
  that integer, and an entry whose key is there already replaces the value. What
  no literal of a value has is left out and has no answer: arrays in which some
  entries have keys and others have none, signs before anything but numbers, and
  other constants.

  `datum` is what a value stands for in PHP. A literal evaluates to it with one
  exception, for which there is no literal of this form: the digits of the least
  integer are beyond 64 bits before the sign is applied, so it becomes a
  floating-point number. As a key it does not, since PHP makes a key of such a
  number again the integer.
-/

namespace BuilderForge.Php

/-! ## Data -/

/-- A key of an array. -/
inductive Key where
  | int (i : Int)
  | string (bs : List UInt8)
  deriving DecidableEq

/-- A PHP value. Strings are sequences of bytes. -/
inductive Datum where
  | null
  | bool (b : Bool)
  | int (i : Int64)
  | float (x : Binary64)
  | string (bs : List UInt8)
  | array (entries : List (Key × Datum))

/-- The key that bytes are: an integer if they are the written form of one. -/
def Key.ofBytes (bs : List UInt8) : Key :=
  match ((Text.decode? bs).filter Numeral.isCanonical).bind Numeral.int? with
  | some i => .int i
  | none => .string bs

/-- The integer that a finite number has before its point. -/
def truncate? (x : Binary64) : Option Int :=
  if x.exponent.val = Binary64.specialExponent then none
  else
    let size := x.mantissa * 2 ^ x.scale.toNat / 2 ^ (-x.scale).toNat
    some (if x.negative then -(size : Int) else size)

/-- The key that a value is in an array. There is none for arrays, and for
numbers beyond the integers. -/
def Datum.key? : Datum → Option Key
  | .null => some (.string [])
  | .bool b => some (.int (if b then 1 else 0))
  | .int i => some (.int i.toInt)
  | .float x => ((truncate? x).filter Numeral.fitsWord).map .int
  | .string bs => some (.ofBytes bs)
  | .array _ => none

/-- The entries with `d` at `key`: in place if the key is there, else at the end. -/
def putEntry (key : Key) (d : Datum) : List (Key × Datum) → List (Key × Datum)
  | [] => [(key, d)]
  | (k, e) :: rest => if k = key then (key, d) :: rest else (k, e) :: putEntry key d rest

/-- The array that entries given one after the other make. -/
def Datum.ofEntries (entries : List (Key × Datum)) : Datum :=
  .array (entries.foldl (fun acc e => putEntry e.1 e.2 acc) [])

/-- Items at the positions from `n` on. -/
def positioned (n : Nat) : List Datum → List (Key × Datum)
  | [] => []
  | d :: ds => (.int n, d) :: positioned (n + 1) ds

/-- A natural number as PHP has it. -/
def Datum.ofNat (n : Nat) : Datum :=
  if Numeral.fitsWord n then .int (.ofInt n) else .float (Binary64.ofDecimal false n 0)

/-- The value with the other sign, if it is a number. The least integer has no
integer of the other sign. -/
def Datum.neg? : Datum → Option Datum
  | .int i => some (if i = Int64.minValue then .ofNat (2 ^ 63) else .int (-i))
  | .float x => some (.float (if x.isNaN then x else x.neg))
  | _ => none

/-! ## Evaluation -/

/-- The number that digits say. With a zero in front they are octal. -/
def integral? (w : Text) : Option Datum :=
  if w.head? = some '0' ∧ w.length ≠ 1 then
    if w.all (Numeral.isDigitOf 8) then some (.ofNat (Numeral.value 8 w)) else none
  else some (.ofNat (Numeral.value 10 w))

/-- What a word stands for. -/
def word? (w : Text) : Option Datum :=
  if w ≠ [] ∧ w.all Char.isDigit then integral? w
  else if '.' ∈ w then (Binary64.magnitude? false w).map .float
  else if w = "INF".toList then some (.float (.infinity false))
  else if w = "NAN".toList then some (.float .nan)
  else if Text.fold w = "null".toList then some .null
  else if Text.fold w = "true".toList then some (.bool true)
  else if Text.fold w = "false".toList then some (.bool false)
  else none

/-- The value of an atom. A minus sign is applied to the value of the word behind it. -/
def evaluateAtom? : Atom → Option Datum
  | .word false w => word? w
  | .word true w => (word? w).bind Datum.neg?
  | .literal quote body => (bytes? quote body).map .string

/-- Atoms and arrays as PHP has them. -/
def evaluation : Interpretation Key Datum where
  atom? := evaluateAtom?
  key? a := (evaluateAtom? a).bind Datum.key?
  list ds := .array (positioned 0 ds)
  map := .ofEntries

/-- The value of a text as PHP source. -/
def evaluate? (t : Text) : Option Datum := (parse? t).bind evaluation.expression?

/-! ## Numbers -/

theorem word?_ofNat (n : Nat) : word? (Numeral.ofNat n) = some (.ofNat n) := by
  have hdigits : (Numeral.ofNat n).all Char.isDigit :=
    List.all_eq_true.2 fun c hc => Numeral.isDigit_of_mem_ofNat hc
  have hdecimal : ¬((Numeral.ofNat n).head? = some '0' ∧ (Numeral.ofNat n).length ≠ 1) := by
    rintro ⟨hzero, hlength⟩
    rw [Numeral.ofNat_of_head?_zero hzero] at hlength
    exact hlength rfl
  rw [word?, if_pos ⟨Numeral.ofNat_ne_nil n, hdigits⟩, integral?, if_neg hdecimal,
    Numeral.value_ofNat]

/-- The floating-point number of the least integer. -/
def lowest : Binary64 := .assemble true Binary64.leadingBit 11

/-- An integer of 64 bits is evaluated to itself, but for the least one. -/
theorem evaluateAtom?_ofInt {i : Int} (hi : Numeral.fitsWord i) :
    evaluateAtom? (.ofText (Numeral.ofInt i)) =
      some (if i = -2 ^ 63 then .float lowest else .int (.ofInt i)) := by
  simp only [Numeral.fitsWord, Bool.and_eq_true, decide_eq_true_eq] at hi
  have hnat {n : Nat} (hn : n < 2 ^ 63) : Datum.ofNat n = .int (.ofInt n) := by
    have hfits : Numeral.fitsWord n := by
      simp only [Numeral.fitsWord, Bool.and_eq_true, decide_eq_true_eq]
      omega
    rw [Datum.ofNat, if_pos hfits]
  rw [Atom.ofText_ofInt]
  by_cases hneg : i < 0
  · rw [decide_eq_true hneg, evaluateAtom?, word?_ofNat, Option.bind_some]
    by_cases hleast : i = -2 ^ 63
    · -- without the sign it is beyond 64 bits, and the nearest number is exact
      rw [if_pos hleast, hleast]
      rfl
    · have hne : Int64.ofInt (i.natAbs : Int) ≠ Int64.minValue := by
        intro h
        have hint := congrArg Int64.toInt h
        rw [Int64.toInt_ofInt_of_le (by omega) (by omega), Int64.toInt_minValue] at hint
        omega
      rw [hnat (by omega), Datum.neg?, if_neg hne, if_neg hleast, ← Int64.ofInt_neg,
        show -(i.natAbs : Int) = i by omega]
  · rw [decide_eq_false hneg, evaluateAtom?, word?_ofNat, hnat (by omega), if_neg (by omega),
      show (i.natAbs : Int) = i by omega]

/-! ## Arrays -/

theorem putEntry_of_notMem {key : Key} {es : List (Key × Datum)} (h : key ∉ es.map Prod.fst)
    (d : Datum) : putEntry key d es = es ++ [(key, d)] := by
  induction es with
  | nil => rfl
  | cons e es ih =>
    rw [List.map_cons, List.mem_cons, not_or] at h
    rw [putEntry, if_neg (Ne.symm h.1), ih h.2, List.cons_append]

/-- Entries with different keys stand in the array as they were given. -/
theorem Datum.ofEntries_of_nodup {es : List (Key × Datum)} (h : (es.map Prod.fst).Nodup) :
    ofEntries es = .array es := by
  have hfold (before after : List (Key × Datum)) (h : ((before ++ after).map Prod.fst).Nodup) :
      after.foldl (fun acc e => putEntry e.1 e.2 acc) before = before ++ after := by
    induction after generalizing before with
    | nil => rw [List.foldl_nil, List.append_nil]
    | cons e after ih =>
      have hnew : e.1 ∉ before.map Prod.fst := by
        rw [List.map_append, List.map_cons, List.nodup_append] at h
        exact fun hmem => h.2.2 _ hmem _ List.mem_cons_self rfl
      have hsplit : before ++ e :: after = before ++ [e] ++ after := by simp
      rw [List.foldl_cons, putEntry_of_notMem hnew, hsplit]
      exact ih (before ++ [e]) (hsplit ▸ h)
  rw [ofEntries, hfold [] es h, List.nil_append]

theorem positioned_inj {n : Nat} {ds es : List Datum} :
    positioned n ds = positioned n es ↔ ds = es := by
  induction ds generalizing n es with
  | nil =>
    cases es with
    | nil => simp
    | cons e es => simp [positioned]
  | cons d ds ih =>
    cases es with
    | nil => simp [positioned]
    | cons e es =>
      rw [positioned, positioned, List.cons.injEq, Prod.mk.injEq, ih, List.cons.injEq]
      exact and_congr_left fun _ => and_iff_right rfl

/-! ## Keys -/

/-- The key that a text is. -/
def Key.ofText (t : Text) : Key := .ofBytes (Text.encode t)

theorem Key.ofText_ofInt {i : Int} (hi : Numeral.fitsWord i) :
    ofText (Numeral.ofInt i) = .int i := by
  have hcanonical : Numeral.isCanonical (Numeral.ofInt i) := by
    rw [Numeral.isCanonical, Numeral.int?_ofInt]
    simp [hi]
  rw [ofText, ofBytes, Text.decode?_encode, Option.filter_some, if_pos hcanonical, Option.bind_some,
    Numeral.int?_ofInt]

theorem Key.ofText_of_not_isCanonical {t : Text} (h : Numeral.isCanonical t = false) :
    ofText t = .string (Text.encode t) := by
  rw [ofText, ofBytes, Text.decode?_encode, Option.filter_some, h, if_neg Bool.false_ne_true,
    Option.bind_none]

end BuilderForge.Php

namespace BuilderForge.Value

open Php (Datum Interpretation Key evaluateAtom? evaluation)

/-- Different keys of a map are different keys of the array. -/
theorem ofText_injective : Function.Injective Key.ofText := by
  intro s t h
  cases hs : Numeral.isCanonical s with
  | true =>
    obtain ⟨i, hi, rfl⟩ := eq_ofInt_of_isCanonical hs
    rw [Key.ofText_ofInt hi] at h
    cases ht : Numeral.isCanonical t with
    | true =>
      obtain ⟨j, hj, rfl⟩ := eq_ofInt_of_isCanonical ht
      rw [Key.ofText_ofInt hj, Key.int.injEq] at h
      rw [h]
    | false =>
      rw [Key.ofText_of_not_isCanonical ht] at h
      cases h
  | false =>
    rw [Key.ofText_of_not_isCanonical hs] at h
    cases ht : Numeral.isCanonical t with
    | true =>
      obtain ⟨j, hj, rfl⟩ := eq_ofInt_of_isCanonical ht
      rw [Key.ofText_ofInt hj] at h
      cases h
    | false =>
      rw [Key.ofText_of_not_isCanonical ht, Key.string.injEq] at h
      have hdecode := congrArg Text.decode? h
      rw [Text.decode?_encode, Text.decode?_encode] at hdecode
      exact Option.some_inj.1 hdecode

/-- The literal of a key is evaluated to the key, also where it is the least integer. -/
theorem evaluate_keyAtom (key : Text) : evaluation.key? (keyAtom key) = some (Key.ofText key) := by
  show (evaluateAtom? (keyAtom key)).bind Datum.key? = _
  unfold keyAtom
  split
  · rename_i h
    obtain ⟨i, hi, rfl⟩ := eq_ofInt_of_isCanonical h
    rw [Php.evaluateAtom?_ofInt hi, Option.bind_some, Key.ofText_ofInt hi]
    split
    · rename_i hleast
      rw [hleast]
      rfl
    · simp only [Numeral.fitsWord, Bool.and_eq_true, decide_eq_true_eq] at hi
      rw [Datum.key?, Int64.toInt_ofInt_of_le (by omega) (by omega)]
  · rw [stringAtom, evaluateAtom?, bytes?_body, Option.map_some, Option.bind_some, Datum.key?,
      Key.ofText]

/-! ## Numbers -/

theorem evaluateAtom?_int (i : Int64) : evaluateAtom? (.ofText (Numeral.ofInt i.toInt)) =
    some (if i = Int64.minValue then .float Php.lowest else .int i) := by
  have hleast : i.toInt = -2 ^ 63 ↔ i = Int64.minValue := by
    rw [← Int64.toInt_minValue, Int64.toInt_inj]
  rw [Php.evaluateAtom?_ofInt (fitsWord_toInt i), Int64.ofInt_toInt]
  simp only [hleast]

theorem word?_magnitudeText {x : Binary64} (hx : x.IsFinite) (hsign : x.negative = false) :
    Php.word? x.magnitudeText = some (.float x) := by
  obtain ⟨whole, places, hpointed, hmagnitude⟩ := Binary64.magnitude?_magnitudeText hx
  have hpoint := hpointed.mem_point
  have hdigits : ¬(x.magnitudeText ≠ [] ∧ x.magnitudeText.all Char.isDigit = true) := by
    rintro ⟨-, hall⟩
    exact absurd (List.all_eq_true.1 hall '.' hpoint) (by decide)
  rw [hsign] at hmagnitude
  rw [Php.word?, if_neg hdigits, if_pos hpoint, hmagnitude, Option.map_some]

theorem evaluateAtom?_float (x : Binary64) : evaluateAtom? (.ofText (floatLiteral x)) =
    some (.float (if x.isNaN then .nan else x)) := by
  obtain ⟨hx, -⟩ | ⟨hx, h⟩ | ⟨hx, h⟩ := x.floatLiteral_cases
  · rw [ofText_floatLiteral hx, hx.not_isNaN, if_neg Bool.false_ne_true]
    cases hsign : x.negative with
    | true =>
      -- without its sign the literal is that of the other number
      have hneg : (x.neg).negative = false := by rw [Binary64.neg, hsign, Bool.not_true]
      have hback : x.neg.neg = x := by rw [Binary64.neg, Binary64.neg, Bool.not_not]
      have hfinite : x.neg.IsFinite := hx
      rw [evaluateAtom?, ← x.magnitudeText_neg, word?_magnitudeText hfinite hneg, Option.bind_some, Datum.neg?, hfinite.not_isNaN, if_neg Bool.false_ne_true, hback]
    | false => rw [evaluateAtom?, word?_magnitudeText hx hsign]
  · rw [h, hx]
    cases x.negative <;> rfl
  · rw [h, if_pos hx]
    rfl

/-! ## Values -/

mutual

/-- What a value stands for in PHP. -/
def datum : Value → Datum
  | .null => .null
  | .bool b => .bool b
  | .int i => .int i
  | .float x => .float (if x.isNaN then .nan else x)
  | .string s => .string (Text.encode s)
  | .list items => .array (Php.positioned 0 (itemData items))
  | .map entries => .array (entryData entries)

/-- What the items of a list stand for. -/
def itemData : List Value → List Datum
  | [] => []
  | v :: vs => datum v :: itemData vs

/-- What the entries of a map stand for. -/
def entryData : List (Text × Value) → List (Key × Datum)
  | [] => []
  | (k, v) :: rest => (Key.ofText k, datum v) :: entryData rest

end

mutual

/-- Whether every map in a value has each key once. -/
def hasDistinctKeys : Value → Bool
  | .list items => itemsHaveDistinctKeys items
  | .map entries => decide (entries.map Prod.fst).Nodup && entriesHaveDistinctKeys entries
  | _ => true

/-- Whether every map in the items has each key once. -/
def itemsHaveDistinctKeys : List Value → Bool
  | [] => true
  | v :: vs => hasDistinctKeys v && itemsHaveDistinctKeys vs

/-- Whether every map in the values of the entries has each key once. -/
def entriesHaveDistinctKeys : List (Text × Value) → Bool
  | [] => true
  | (_, v) :: rest => hasDistinctKeys v && entriesHaveDistinctKeys rest

end

/-! ## Maps with each key once -/

theorem mem_keys_insertEntry {key k : Text} {v : Value} {entries : List (Text × Value)} :
    k ∈ (insertEntry key v entries).map Prod.fst ↔ k = key ∨ k ∈ entries.map Prod.fst := by
  induction entries with
  | nil => simp [insertEntry]
  | cons e entries ih =>
    rw [insertEntry]
    split
    · rename_i h
      simp [h]
    · rw [List.map_cons, List.mem_cons, ih, List.map_cons, List.mem_cons]
      exact or_left_comm

theorem hasDistinctKeys_insertEntry {key : Text} {v : Value} {entries : List (Text × Value)}
    (hv : v.hasDistinctKeys) (h : (map entries).hasDistinctKeys) :
    (map (insertEntry key v entries)).hasDistinctKeys := by
  rw [hasDistinctKeys, Bool.and_eq_true, decide_eq_true_eq] at h ⊢
  induction entries with
  | nil => simp [insertEntry, entriesHaveDistinctKeys, hv]
  | cons e entries ih =>
    rw [List.map_cons, List.nodup_cons, entriesHaveDistinctKeys, Bool.and_eq_true] at h
    obtain ⟨⟨hnew, hnodup⟩, hfirst, hrest⟩ := h
    rw [insertEntry]
    split
    · rename_i hkey
      rw [List.map_cons, List.nodup_cons, entriesHaveDistinctKeys, Bool.and_eq_true, ← hkey]
      exact ⟨⟨hnew, hnodup⟩, hv, hrest⟩
    · rename_i hkey
      obtain ⟨hnodup', hrest'⟩ := ih ⟨hnodup, hrest⟩
      rw [List.map_cons, List.nodup_cons, entriesHaveDistinctKeys, Bool.and_eq_true,
        mem_keys_insertEntry]
      exact ⟨⟨not_or.2 ⟨hkey, hnew⟩, hnodup'⟩, hfirst, hrest'⟩

/-- A map that is made entry by entry has each key once. -/
theorem hasDistinctKeys_ofEntries {entries : List (Text × Value)}
    (h : ∀ e ∈ entries, e.2.hasDistinctKeys) : (ofEntries entries).hasDistinctKeys := by
  have hfold (before : List (Text × Value)) (hbefore : (map before).hasDistinctKeys) :
      (map (entries.foldl (fun acc e => insertEntry e.1 e.2 acc) before)).hasDistinctKeys := by
    induction entries generalizing before with
    | nil => exact hbefore
    | cons e entries ih =>
      rw [List.forall_mem_cons] at h
      exact ih h.2 _ (hasDistinctKeys_insertEntry h.1 hbefore)
  exact hfold [] (by decide)

/-! ## Evaluation of values -/

mutual

/-- Whether the least integer of 64 bits is a value or in it. -/
def holdsLeast : Value → Bool
  | .int i => i = Int64.minValue
  | .list items => itemsHoldLeast items
  | .map entries => entriesHoldLeast entries
  | _ => false

/-- Whether the least integer of 64 bits is in one of the items. -/
def itemsHoldLeast : List Value → Bool
  | [] => false
  | v :: vs => holdsLeast v || itemsHoldLeast vs

/-- Whether the least integer of 64 bits is in the value of one of the entries. -/
def entriesHoldLeast : List (Text × Value) → Bool
  | [] => false
  | (_, v) :: rest => holdsLeast v || entriesHoldLeast rest

end

/-- An integer is evaluated to itself, but for the least one. -/
theorem evaluate_int (i : Int64) : evaluation.expression? (expression (.int i)) =
    some (if i = Int64.minValue then .float Php.lowest else .int i) := by
  rw [expression, Interpretation.expression?]
  exact evaluateAtom?_int i

mutual

/-- The expression of a value is evaluated to what the value stands for exactly if
the least integer is nowhere in it. -/
theorem evaluate_expression : (v : Value) → v.hasDistinctKeys →
    ∃ d, evaluation.expression? v.expression = some d ∧ (d = v.datum ↔ v.holdsLeast = false)
  | .null, _ => ⟨.null, rfl, by simp [datum, holdsLeast]⟩
  | .bool true, _ => ⟨.bool true, rfl, by simp [datum, holdsLeast]⟩
  | .bool false, _ => ⟨.bool false, rfl, by simp [datum, holdsLeast]⟩
  | .int i, _ => by
    refine ⟨_, evaluate_int i, ?_⟩
    rw [datum, holdsLeast, decide_eq_false_iff_not]
    split
    · rename_i h
      simp [h]
    · rename_i h
      simp [h]
  | .float x, _ => by
    rw [expression, Interpretation.expression?]
    exact ⟨_, evaluateAtom?_float x, by simp [datum, holdsLeast]⟩
  | .string s, _ => by
    rw [expression, Interpretation.expression?]
    exact ⟨_, congrArg (Option.map _) (bytes?_body s), by simp [datum, holdsLeast]⟩
  | .list items, h => by
    rw [hasDistinctKeys] at h
    obtain ⟨ds, hds, hexact⟩ := evaluate_items items h
    rw [expression, expression?_list hds]
    refine ⟨_, rfl, ?_⟩
    rw [datum, holdsLeast, ← hexact]
    show Datum.array _ = _ ↔ _
    rw [Datum.array.injEq, Php.positioned_inj]
  | .map entries, h => by
    rw [hasDistinctKeys, Bool.and_eq_true, decide_eq_true_eq] at h
    obtain ⟨es, hes, hkeys, hexact⟩ := evaluate_entries entries h.2
    have hnodup : (es.map Prod.fst).Nodup := by
      rw [hkeys]
      exact h.1.map ofText_injective
    have harray : (if es = [] then evaluation.list [] else evaluation.map es) = .array es := by
      split
      · rename_i hnil
        rw [hnil]
        rfl
      · exact Datum.ofEntries_of_nodup hnodup
    rw [expression, expression?_map hes, harray]
    refine ⟨_, rfl, ?_⟩
    rw [datum, holdsLeast, Datum.array.injEq, hexact]

theorem evaluate_items : (items : List Value) → itemsHaveDistinctKeys items →
    ∃ ds, evaluation.items? (itemExpressions items) = some ds ∧
      (ds = itemData items ↔ itemsHoldLeast items = false)
  | [], _ => ⟨[], by rw [itemExpressions, Interpretation.items?], by simp [itemData, itemsHoldLeast]⟩
  | v :: vs, h => by
    rw [itemsHaveDistinctKeys, Bool.and_eq_true] at h
    obtain ⟨d, hd, hfirst⟩ := evaluate_expression v h.1
    obtain ⟨ds, hds, hrest⟩ := evaluate_items vs h.2
    refine ⟨d :: ds, ?_, ?_⟩
    · rw [itemExpressions, Interpretation.items?, hd, hds]
      rfl
    · rw [itemData, itemsHoldLeast, List.cons.injEq, hfirst, hrest, Bool.or_eq_false_iff]

/-- The keys are those of the map in any case. -/
theorem evaluate_entries : (entries : List (Text × Value)) → entriesHaveDistinctKeys entries →
    ∃ es, evaluation.entries? (entryExpressions entries) = some es ∧
      es.map Prod.fst = (entries.map Prod.fst).map Key.ofText ∧
      (es = entryData entries ↔ entriesHoldLeast entries = false)
  | [], _ => ⟨[], by rw [entryExpressions, Interpretation.entries?], rfl,
      by simp [entryData, entriesHoldLeast]⟩
  | (k, v) :: rest, h => by
    rw [entriesHaveDistinctKeys, Bool.and_eq_true] at h
    obtain ⟨d, hd, hfirst⟩ := evaluate_expression v h.1
    obtain ⟨es, hes, hkeys, hrest⟩ := evaluate_entries rest h.2
    refine ⟨(Key.ofText k, d) :: es, ?_, ?_, ?_⟩
    · rw [entryExpressions, Interpretation.entries?, evaluate_keyAtom, hd, hes]
      rfl
    · rw [List.map_cons, hkeys, List.map_cons, List.map_cons]
    · rw [entryData, entriesHoldLeast, List.cons.injEq, Prod.mk.injEq, hfirst, hrest,
        Bool.or_eq_false_iff]
      exact and_congr_left fun _ => and_iff_right rfl

end

/-- In PHP a literal is what the value stands for exactly if the least integer of 64
bits is nowhere in the value. Different keys are different in any case. -/
theorem evaluates_iff (v : Value) (h : v.hasDistinctKeys) :
    (∃ d, Php.evaluate? v.literal = some d ∧ (d = v.datum ↔ v.holdsLeast = false)) ∧
      ∀ k l : Text, Key.ofText k = Key.ofText l ↔ k = l := by
  refine ⟨?_, fun k l => ofText_injective.eq_iff⟩
  rw [Php.evaluate?, (reads_literal v).parse?, Option.bind_some]
  exact evaluate_expression v h

/-- A map that has numbers at the ends of the range for keys, and texts that only look
like numbers. -/
def edges : Value := .map
  [("-9223372036854775808".toList, .int Int64.maxValue), ("9223372036854775808".toList, .null),
    ("-0".toList, .list [.int (-7)]), ("007".toList, .string ['\n'])]

theorem evaluates_iff_edges : edges.hasDistinctKeys ∧
    (∃ d, Php.evaluate? edges.literal = some d ∧ (d = edges.datum ↔ edges.holdsLeast = false)) ∧
    edges.holdsLeast = false :=
  ⟨by decide, (evaluates_iff edges (by decide)).1, by decide⟩

/-- The least integer is written as its digits, which are a floating-point number in PHP. -/
theorem not_evaluates_least :
    Php.evaluate? (literal (.int Int64.minValue)) = some (.float Php.lowest) ∧
    datum (.int Int64.minValue) = .int Int64.minValue ∧
    ¬ ∀ v : Value, v.hasDistinctKeys → Php.evaluate? v.literal = some v.datum := by
  have hleast : Php.evaluate? (literal (.int Int64.minValue)) = some (.float Php.lowest) := by
    rw [Php.evaluate?, (reads_literal _).parse?, Option.bind_some, evaluate_int, if_pos rfl]
  refine ⟨hleast, rfl, fun hall => ?_⟩
  have hint := hall (.int Int64.minValue) rfl
  rw [hleast, datum, Option.some_inj] at hint
  cases hint

end BuilderForge.Value
