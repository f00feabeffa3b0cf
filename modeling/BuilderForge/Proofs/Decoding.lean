import BuilderForge.Proofs.Expressions
/-
  A value is told from its literal.

  `decode?` reads a text as an expression and the expression as a value: signed
  digits as an integer, a word with a point as a floating-point number, the
  bytes of a string in quotes as a text, entries without keys as a list and
  entries with keys as a map. A bare key is the text of its integer.

  Two things are not told. An empty map is written as an empty list is, and all
  the values that are no number have one name. `normal` puts an empty list and
  one such value for them, and everything else of a value is in its literal.
-/

namespace BuilderForge.Php

/-- The integer that digits say behind a minus sign, or without one. -/
def signed? (negative : Bool) (w : Text) : Option Int :=
  (Numeral.nat? w).map fun (n : Nat) => if negative then -(n : Int) else (n : Int)

theorem signed?_ofNat_natAbs (i : Int) :
    signed? (i < 0) (Numeral.ofNat i.natAbs) = some i := by
  rw [signed?, Numeral.nat?_ofNat, Option.map_some, Option.some_inj]
  split
  · rename_i h
    rw [decide_eq_true_eq] at h
    omega
  · rename_i h
    rw [decide_eq_true_eq] at h
    omega

/-- A word that is not made of digits only says no integer. -/
theorem signed?_eq_none {w : Text} {c : Char} (hc : c ∈ w) (hdigit : c.isDigit = false)
    (negative : Bool) : signed? negative w = none := by
  have hall : ¬(w ≠ [] ∧ w.all Char.isDigit = true) := by
    rintro ⟨-, hall⟩
    rw [List.all_eq_true.1 hall c hc] at hdigit
    cases hdigit
  rw [signed?, Numeral.nat?, if_neg hall, Option.map_none]

/-- The value that a word says behind a minus sign, or without one. -/
def decodeWord? (negative : Bool) (w : Text) : Option Value :=
  match signed? negative w with
  | some i => if Numeral.fitsWord i then some (.int (.ofInt i)) else none
  | none =>
    if '.' ∈ w then (Binary64.magnitude? negative w).map .float
    else if w = "INF".toList then some (.float (.infinity negative))
    else if negative then none
    else if w = "NAN".toList then some (.float .nan)
    else if w = "null".toList then some .null
    else if w = "true".toList then some (.bool true)
    else if w = "false".toList then some (.bool false)
    else none

/-- The text that a string in quotes says. -/
def decodeString? (quote : Char) (body : Text) : Option Text :=
  (bytes? quote body).bind Text.decode?

/-- The text that a key stands for. -/
def decodeKey? : Atom → Option Text
  | .word negative w => (signed? negative w).map Numeral.ofInt
  | .literal quote body => decodeString? quote body

/-- The value that an atom says. -/
def decodeAtom? : Atom → Option Value
  | .word negative w => decodeWord? negative w
  | .literal quote body => (decodeString? quote body).map .string

/-- Atoms, lists and maps as values. -/
def decoding : Interpretation Text Value where
  atom? := decodeAtom?
  key? := decodeKey?
  list := .list
  map := .map

/-- The value that a text is the literal of. -/
def decode? (t : Text) : Option Value := (parse? t).bind decoding.expression?

end BuilderForge.Php

namespace BuilderForge.Value

open Php (Interpretation decodeAtom? decodeKey? decodeWord? decoding)

/-! ## What literals do not tell -/

/-- The map of entries, or the empty list if there are none. -/
def mapOrNil : List (Text × Value) → Value
  | [] => .list []
  | e :: es => .map (e :: es)

mutual

/-- The value with an empty list for each empty map in it and one value for all
that are no number. -/
def normal : Value → Value
  | .null => .null
  | .bool b => .bool b
  | .int i => .int i
  | .float x => .float (if x.isNaN then .nan else x)
  | .string s => .string s
  | .list items => .list (normalItems items)
  | .map entries => mapOrNil (normalEntries entries)

/-- The normal items of a list. -/
def normalItems : List Value → List Value
  | [] => []
  | v :: vs => normal v :: normalItems vs

/-- The normal entries of a map. -/
def normalEntries : List (Text × Value) → List (Text × Value)
  | [] => []
  | (k, v) :: rest => (k, normal v) :: normalEntries rest

end

theorem floatLiteral_of_isNaN {x : Binary64} (h : x.isNaN) : floatLiteral x = "NAN".toList := by
  rw [floatLiteral, if_pos h]

theorem mapOrNil_eq (entries : List (Text × Value)) :
    mapOrNil entries = if entries = [] then .list [] else .map entries := by
  cases entries with
  | nil => rw [mapOrNil, if_pos rfl]
  | cons e es => rw [mapOrNil, if_neg (List.cons_ne_nil e es)]

theorem literal_mapOrNil (entries : List (Text × Value)) :
    literal (mapOrNil entries) = literal (.map entries) := by
  cases entries with
  | nil => rw [mapOrNil, literal, literal, itemLiterals, entryLiterals]
  | cons e es => rw [mapOrNil]

mutual

/-- A value and its normal form have one literal. -/
theorem literal_normal : (v : Value) → v.normal.literal = v.literal
  | .null => rfl
  | .bool _ => rfl
  | .int _ => rfl
  | .string _ => rfl
  | .float x => by
    rw [normal, literal, literal]
    split
    · rename_i h
      rw [floatLiteral_of_isNaN h, floatLiteral_of_isNaN (by decide)]
    · rfl
  | .list items => by rw [normal, literal, literal, itemLiterals_normalItems items]
  | .map entries => by
    rw [normal, literal_mapOrNil, literal, literal, entryLiterals_normalEntries entries]

theorem itemLiterals_normalItems : (items : List Value) →
    itemLiterals (normalItems items) = itemLiterals items
  | [] => by rw [normalItems]
  | v :: vs => by
    rw [normalItems, itemLiterals, itemLiterals, literal_normal v, itemLiterals_normalItems vs]

theorem entryLiterals_normalEntries : (entries : List (Text × Value)) →
    entryLiterals (normalEntries entries) = entryLiterals entries
  | [] => by rw [normalEntries]
  | (k, v) :: rest => by
    rw [normalEntries, entryLiterals, entryLiterals, literal_normal v,
      entryLiterals_normalEntries rest]

end

/-! ## What literals tell -/

theorem fitsWord_toInt (i : Int64) : Numeral.fitsWord i.toInt := by
  have hlow := i.le_toInt
  have hhigh := i.toInt_lt
  simp only [Numeral.fitsWord, Bool.and_eq_true, decide_eq_true_eq]
  omega

theorem decodeAtom?_int (i : Int64) :
    decodeAtom? (.ofText (Numeral.ofInt i.toInt)) = some (.int i) := by
  rw [Php.Atom.ofText_ofInt, decodeAtom?, decodeWord?, Php.signed?_ofNat_natAbs]
  dsimp only
  rw [if_pos (fitsWord_toInt i), Int64.ofInt_toInt]

theorem decodeAtom?_float (x : Binary64) : decodeAtom? (.ofText (floatLiteral x)) =
    some (.float (if x.isNaN then .nan else x)) := by
  obtain ⟨hx, -⟩ | ⟨hx, h⟩ | ⟨hx, h⟩ := x.floatLiteral_cases
  · obtain ⟨whole, places, hpointed, hmagnitude⟩ := Binary64.magnitude?_magnitudeText hx
    have hpoint := hpointed.mem_point
    rw [ofText_floatLiteral hx, decodeAtom?, decodeWord?, Php.signed?_eq_none hpoint (by decide)]
    dsimp only
    rw [if_pos hpoint, hmagnitude, hx.not_isNaN]
    rfl
  · rw [h, hx]
    cases x.negative <;> rfl
  · rw [h, if_pos hx]
    rfl

theorem decodeString?_string (s : Text) :
    Php.decodeString? (quoteOf s) (bodyOf s) = some s := by
  rw [Php.decodeString?, bytes?_body, Option.bind_some, Text.decode?_encode]

theorem decodeKey?_keyAtom (key : Text) : decodeKey? (keyAtom key) = some key := by
  unfold keyAtom
  split
  · rename_i h
    obtain ⟨i, -, rfl⟩ := eq_ofInt_of_isCanonical h
    rw [Php.Atom.ofText_ofInt, decodeKey?, Php.signed?_ofNat_natAbs, Option.map_some]
  · rw [stringAtom, decodeKey?, decodeString?_string]

mutual

/-- The expression of a value says the value, but for what it does not tell. -/
theorem decode_expression : (v : Value) → decoding.expression? v.expression = some v.normal
  | .null => rfl
  | .bool true => rfl
  | .bool false => rfl
  | .int i => by
    rw [expression, Interpretation.expression?, normal]
    exact decodeAtom?_int i
  | .float x => by
    rw [expression, Interpretation.expression?, normal]
    exact decodeAtom?_float x
  | .string s => by
    rw [expression, Interpretation.expression?, normal]
    exact congrArg (Option.map _) (decodeString?_string s)
  | .list items => by
    rw [expression, expression?_list (decode_items items), normal]
    rfl
  | .map entries => by
    rw [expression, expression?_map (decode_entries entries), normal, mapOrNil_eq]
    rfl

theorem decode_items : (items : List Value) →
    decoding.items? (itemExpressions items) = some (normalItems items)
  | [] => by rw [itemExpressions, Interpretation.items?, normalItems]
  | v :: vs => by
    rw [itemExpressions, Interpretation.items?, decode_expression v, decode_items vs, normalItems]
    rfl

theorem decode_entries : (entries : List (Text × Value)) →
    decoding.entries? (entryExpressions entries) = some (normalEntries entries)
  | [] => by rw [entryExpressions, Interpretation.entries?, normalEntries]
  | (k, v) :: rest => by
    have hkey : decoding.key? (keyAtom k) = some k := decodeKey?_keyAtom k
    rw [entryExpressions, Interpretation.entries?, hkey, decode_expression v, decode_entries rest,
      normalEntries]
    rfl

end

/-- One decoder reads the literal of every value as a whole and gives the value
back, up to empty maps and what is no number. So two values have one literal
only if they differ in nothing else. -/
theorem decodes_literals :
    (∀ v : Value, Php.decode? v.literal = some v.normal) ∧
    ∀ v w : Value, v.literal = w.literal ↔ v.normal = w.normal := by
  have hdecode (v : Value) : Php.decode? v.literal = some v.normal := by
    rw [Php.decode?, (reads_literal v).parse?, Option.bind_some, decode_expression]
  refine ⟨hdecode, fun v w => ⟨fun h => ?_, fun h => ?_⟩⟩
  · have hsame := congrArg Php.decode? h
    rw [hdecode, hdecode] at hsame
    exact Option.some_inj.1 hsame
  · rw [← literal_normal v, h, literal_normal w]

end BuilderForge.Value
