import BuilderForge.Proofs.JsonSources
/-
  Integers in the defaults of JSON manifests.

  An integer is a number without fraction and exponent. Within 64 bits, the sign
  included, it is read as it is; a positive integer that only fits without a
  sign is refused with its manifest; any other integer, and `-0`, is read as a float
  (`reads_integer`). So the integers that are kept are exactly those that fit
  (`Manifest.keeps_integer_iff`), and the others come out as another kind of value.
-/

namespace BuilderForge

open Document (Node Scalar)
open Document.Json (Number Shows IsSource Parts wordMax)

namespace Document.Json.Number

/-- Whether a number is written as an integer. -/
structure IsInteger (n : Number) : Prop where
  fraction : n.fraction = none
  power : n.power = none

/-- The integer that the whole digits of a number make with its sign. -/
def toInt (n : Number) : Int :=
  if n.negative then -(Numeral.value 10 n.whole : Int) else Numeral.value 10 n.whole

/-- Whether a number is zero with a minus sign. -/
def IsMinusZero (n : Number) : Prop := n.negative ∧ n.toInt = 0

variable {n : Number}

/-- An integer beyond 64 bits that has a value at all is a float. -/
theorem exists_float {s : Scalar} (hs : n.scalar? = some s)
    (h : wordMax < Numeral.value 10 n.whole) : ∃ x, s = .float x := by
  have hcond : ((n.parts 0).places.isNone && (n.parts 0).exponent.isNone &&
      decide (Numeral.value 10 (n.parts 0).whole ≤ wordMax)) = false := by
    rw [Bool.and_eq_false_iff, decide_eq_false_iff_not]
    exact .inr (Nat.not_le.2 h)
  rw [scalar?, Parts.scalar, hcond, if_neg Bool.false_ne_true] at hs
  cases hfloat : (n.parts 0).float 0 with
  | ok x =>
    rw [hfloat] at hs
    exact ⟨x, (Option.some.inj hs).symm⟩
  | error f =>
    rw [hfloat] at hs
    cases hs

theorem toInt_of_negative (h : n.negative = true) : n.toInt = -(Numeral.value 10 n.whole : Int) := by
  rw [toInt, if_pos h]

theorem toInt_of_not_negative (h : n.negative = false) : n.toInt = Numeral.value 10 n.whole := by
  rw [toInt, h, if_neg Bool.false_ne_true]

/-- The value of an integer whose digits fit 64 bits. -/
theorem scalar?_of_isInteger (hn : n.IsInteger) (h : Numeral.value 10 n.whole ≤ wordMax) :
    n.scalar? = some (
      if n.negative = true ∧ (Numeral.value 10 n.whole = 0 ∨ 0x8000000000000000 < Numeral.value 10 n.whole) then
        .float (Binary64.ofDecimal true (Numeral.value 10 n.whole) 0)
      else .integer n.toInt) := by
  have hparts : n.parts 0 = ⟨n.negative, n.whole, none, none⟩ := by
    rw [parts, hn.fraction, hn.power]
    rfl
  have hcond : ((none : Option Text).isNone && (none : Option (Bool × Text × Nat)).isNone &&
      decide (Numeral.value 10 n.whole ≤ wordMax)) = true := by
    rw [decide_eq_true h]
    rfl
  rw [scalar?, hparts, Parts.scalar]
  dsimp only
  rw [hcond, if_pos rfl]
  cases hnegative : n.negative with
  | false =>
    have hplus (p : Prop) : ¬ (false = true ∧ p) := fun h => Bool.false_ne_true h.1
    rw [toInt_of_not_negative hnegative, if_pos (by decide), if_neg (hplus _)]
    rfl
  | true =>
    rw [toInt_of_negative hnegative, if_neg (by decide)]
    split
    · rename_i hout
      rw [if_pos ⟨rfl, hout⟩]
      rfl
    · rename_i hin
      rw [if_neg fun h => hin h.2]
      rfl

/-- The value of an integer is the integer, unless it has a minus sign and is zero or
below 64 bits, or does not fit 64 bits without a sign. -/
theorem scalar_of_isInteger (hn : n.IsInteger) {s : Scalar} (hs : n.scalar? = some s) :
    s = .integer n.toInt ∧ ¬ n.IsMinusZero ∧ -0x8000000000000000 ≤ n.toInt ∧
        n.toInt < 0x10000000000000000 ∨
      (∃ x, s = .float x) ∧
        (n.IsMinusZero ∨ n.toInt < -0x8000000000000000 ∨ 0x10000000000000000 ≤ n.toInt) := by
  rcases Nat.lt_or_ge wordMax (Numeral.value 10 n.whole) with hlarge | hword
  · refine .inr ⟨exists_float hs hlarge, .inr ?_⟩
    have hlarge : 0x10000000000000000 ≤ Numeral.value 10 n.whole := hlarge
    cases hnegative : n.negative with
    | true => exact .inl (by rw [toInt_of_negative hnegative]; omega)
    | false => exact .inr (by rw [toInt_of_not_negative hnegative]; omega)
  · rw [scalar?_of_isInteger hn hword, Option.some.injEq] at hs
    have hword : Numeral.value 10 n.whole < 0x10000000000000000 := Nat.lt_succ_of_le hword
    subst hs
    split
    · rename_i hout
      have htoInt := toInt_of_negative hout.1
      refine .inr ⟨⟨_, rfl⟩, ?_⟩
      rcases hout.2 with hzero | hbelow
      · exact .inl ⟨hout.1, by omega⟩
      · exact .inr (.inl (by omega))
    · rename_i hin
      refine .inl ⟨rfl, ?_, ?_⟩
      · rintro ⟨hnegative, hzero⟩
        rw [toInt_of_negative hnegative] at hzero
        exact hin ⟨hnegative, .inl (by omega)⟩
      · cases hnegative : n.negative with
        | false =>
          rw [toInt_of_not_negative hnegative]
          omega
        | true =>
          have hin : ¬ (Numeral.value 10 n.whole = 0 ∨ 0x8000000000000000 < Numeral.value 10 n.whole) :=
            fun h => hin ⟨hnegative, h⟩
          rw [toInt_of_negative hnegative]
          omega

end Document.Json.Number

/-- An integer that is read is itself if it fits 64 bits, and a float if it is `-0` or
fits them neither with a sign nor without. -/
theorem reads_integer {n : Number} (hn : n.IsInteger) {node : Node} {v : Value}
    (hshows : Shows (.number n) node) (hv : node.asValue = .ok v) :
    (∃ i, v = .int i ∧ i.toInt = n.toInt) ∧ ¬ n.IsMinusZero ∧ Numeral.fitsWord n.toInt ∨
      (∃ x, v = .float x) ∧
        (n.IsMinusZero ∨ n.toInt < -0x8000000000000000 ∨ 0x10000000000000000 ≤ n.toInt) := by
  cases hshows with
  | tooLarge hnone => cases hv
  | number hs =>
    obtain ⟨rfl, hminus, hbelow, -⟩ | ⟨⟨x, rfl⟩, hlost⟩ := n.scalar_of_isInteger hn hs
    · rw [Node.asValue] at hv
      split at hv
      · rename_i hfits
        cases hv
        refine .inl ⟨⟨_, rfl, ?_⟩, hminus, hfits⟩
        simp only [Numeral.fitsWord, Bool.and_eq_true, decide_eq_true_eq] at hfits
        exact Int64.toInt_ofInt_of_le (by omega) (by omega)
      · cases hv
    · cases hv
      exact .inr ⟨⟨x, rfl⟩, hlost⟩

namespace Manifest

variable {source : Text} {m : Manifest}

/-- An integer in the value of a default is read at its place. -/
theorem integer_at_defaultValue? (h : parse .json source = .ok m) {p : Document.Json.Piece}
    (hp : IsSource p source) {i j k : Nat} {way : List Step} {n : Number} (hn : n.IsInteger)
    (hway : p.at? (defaultWay i j k ++ way) = some (.number n)) :
    ∃ v v', m.defaultValue? i j k = some v ∧ v.at? way = some v' ∧
      ((∃ i, v' = .int i ∧ i.toInt = n.toInt) ∧ ¬ n.IsMinusZero ∧ Numeral.fitsWord n.toInt ∨
        (∃ x, v' = .float x) ∧
          (n.IsMinusZero ∨ n.toInt < -0x8000000000000000 ∨ 0x10000000000000000 ≤ n.toInt)) := by
  obtain ⟨v, v', node, hv, hv', hshows, hread⟩ := exists_at?_defaultValue? h hp hway
  exact ⟨v, v', hv, hv', reads_integer hn hshows hread⟩

/-- Every JSON manifest is a piece of JSON. An integer at any place in the value of one
of its defaults is read as itself if and only if it fits 64 bits and is not `-0`. It is
read as a float if and only if it is `-0`, or below 64 bits with a sign, or beyond them
without one; the integers in between are in no manifest. -/
theorem keeps_integer_iff (h : parse .json source = .ok m) :
    (∃ p, IsSource p source) ∧
    ∀ p, IsSource p source → ∀ i j k way (n : Number), n.IsInteger →
      p.at? (defaultWay i j k ++ way) = some (.number n) →
      ∃ v v', m.defaultValue? i j k = some v ∧ v.at? way = some v' ∧
        ((∃ i, v' = .int i ∧ i.toInt = n.toInt) ↔
          ¬ n.IsMinusZero ∧ -0x8000000000000000 ≤ n.toInt ∧ n.toInt < 0x8000000000000000) ∧
        ((∃ x, v' = .float x) ↔
          n.IsMinusZero ∨ n.toInt < -0x8000000000000000 ∨ 0x10000000000000000 ≤ n.toInt) ∧
        ¬ (0x8000000000000000 ≤ n.toInt ∧ n.toInt < 0x10000000000000000) := by
  refine ⟨exists_isSource h, fun p hp i j k way n hn hway => ?_⟩
  obtain ⟨v, v', hv, hv', hread⟩ := integer_at_defaultValue? h hp hn hway
  refine ⟨v, v', hv, hv', ?_⟩
  obtain ⟨⟨x, rfl, hx⟩, hminus, hfits⟩ | ⟨⟨x, rfl⟩, hlost⟩ := hread
  · simp only [Numeral.fitsWord, Bool.and_eq_true, decide_eq_true_eq] at hfits
    refine ⟨⟨fun _ => ⟨hminus, by omega, by omega⟩, fun _ => ⟨x, rfl, hx⟩⟩,
      ⟨by rintro ⟨y, ⟨⟩⟩, ?_⟩, by omega⟩
    rintro (hzero | hbelow | habove)
    · exact absurd hzero hminus
    · omega
    · omega
  · have hzero : n.IsMinusZero → n.toInt = 0 := And.right
    refine ⟨⟨by rintro ⟨y, ⟨⟩, -⟩, ?_⟩, ⟨fun _ => hlost, fun _ => ⟨x, rfl⟩⟩, ?_⟩
    · rintro ⟨hminus, hlow, hhigh⟩
      rcases hlost with hzero | hbelow | habove
      · exact absurd hzero hminus
      · omega
      · omega
    · rintro ⟨hlow, hhigh⟩
      rcases hlost with hminus | hbelow | habove
      · have := hzero hminus
        omega
      · omega
      · omega

/-- The least integer of 64 bits. -/
def leastInteger : Number := ⟨true, "9223372036854775808".toList, none, none⟩

theorem isProper_leastInteger : leastInteger.IsProper where
  whole := ⟨by decide, List.all_eq_true.1 (by decide)⟩
  zero := by decide
  fraction := by rintro ds ⟨⟩
  power := by rintro p ⟨⟩

theorem keeps_integer_iff_least : ∃ m v i,
    parse .json (textWithDefault ('[' :: (leastInteger.text ++ [']']))) = .ok m ∧
      m.defaultValue? 0 0 0 = some v ∧ v.at? [.item 0] = some (.int i) ∧
      i.toInt = -0x8000000000000000 := by
  have hwrites := Document.Json.Writes.list (Document.Json.Writes.number isProper_leastInteger).single
  have hparse : (parse .json (textWithDefault ('[' :: (leastInteger.text ++ [']'])))).isOk := by
    decide +kernel
  obtain ⟨m, hm⟩ := exists_eq_ok hparse
  obtain ⟨v, v', hv, hv', hint, -⟩ := (keeps_integer_iff hm).2 _ (isSource_textWithDefault hwrites) 0 0 0
    [.item 0] leastInteger ⟨rfl, rfl⟩ rfl
  have hleast : leastInteger.toInt = -0x8000000000000000 := by decide
  obtain ⟨i, rfl, hi⟩ := hint.2
    ⟨fun hzero => absurd (hzero.2.symm.trans hleast) (by decide), by decide, by decide⟩
  exact ⟨m, v, i, hm, hv, hv', hi⟩

/-- The least natural number beyond 64 bits. -/
def largeInteger : Number := ⟨false, "18446744073709551616".toList, none, none⟩

theorem isProper_largeInteger : largeInteger.IsProper where
  whole := ⟨by decide, List.all_eq_true.1 (by decide)⟩
  zero := by decide
  fraction := by rintro ds ⟨⟩
  power := by rintro p ⟨⟩

/-- An integer beyond 64 bits is no reason to refuse a manifest, and becomes a float. -/
theorem not_keeps_integer_large : ∃ m x,
    parse .json (textWithDefault largeInteger.text) = .ok m ∧
      IsSource (withDefault (.number largeInteger)) (textWithDefault largeInteger.text) ∧
      (withDefault (.number largeInteger)).at? (defaultWay 0 0 0) = some (.number largeInteger) ∧
      largeInteger.IsInteger ∧ largeInteger.toInt = 0x10000000000000000 ∧
      m.defaultValue? 0 0 0 = some (.float x) := by
  have hsource := isSource_textWithDefault (.number isProper_largeInteger)
  have hparse : (parse .json (textWithDefault largeInteger.text)).isOk := by decide +kernel
  obtain ⟨m, hm⟩ := exists_eq_ok hparse
  have hinteger : largeInteger.IsInteger := ⟨rfl, rfl⟩
  have hway : (withDefault (.number largeInteger)).at? (defaultWay 0 0 0 ++ []) =
    some (.number largeInteger) := rfl
  obtain ⟨v, v', hv, ⟨⟩, ⟨-, -, hfits⟩ | ⟨⟨x, rfl⟩, -⟩⟩ :=
    integer_at_defaultValue? hm hsource hinteger hway
  · exact absurd hfits (by decide)
  · exact ⟨m, x, hm, hsource, at?_withDefault _, hinteger, by decide, hv⟩

end Manifest

end BuilderForge
