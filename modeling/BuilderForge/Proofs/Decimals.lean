import Mathlib.Data.List.TakeWhile
import BuilderForge.Proofs.Numerals
import BuilderForge.Proofs.Rounding
import BuilderForge.Value.Literal
/-
  Floating-point numbers are read back.

  The text of a finite number is that of a decimal in the interval of the
  number (`isNearest_shortest`): either a decimal that was tested against the
  interval in exact integers, or the exact value. A decimal in the interval is
  read as the number (`ofDecimal_eq`), and so is its text, once a text without a
  point has got one and a zero behind it (`magnitude?_magnitudeText`).
-/

namespace BuilderForge.Binary64

variable {x : Binary64}

/-! ## Reading decimals -/

/-- The rational that a decimal stands for. -/
def Decimal.value (d : Decimal) : ℚ := d.digits * 10 ^ d.exponent

theorem ten_pow_le_of_log2 {n : Nat} (hn : n ≠ 0) : 10 ^ (n.log2 * 3 / 10) ≤ n := by
  refine (Nat.pow_le_pow_iff_left (n := 10) (by decide)).1 ?_
  calc (10 ^ (n.log2 * 3 / 10)) ^ 10
      = 10 ^ (n.log2 * 3 / 10 * 10) := (Nat.pow_mul _ _ _).symm
    _ ≤ 10 ^ (3 * n.log2) := Nat.pow_le_pow_right (by decide) (by omega)
    _ = 1000 ^ n.log2 := Nat.pow_mul 10 3 _
    _ ≤ 1024 ^ n.log2 := Nat.pow_le_pow_left (by decide) _
    _ = (2 ^ n.log2) ^ 10 := by rw [← Nat.pow_mul, Nat.mul_comm, Nat.pow_mul]
    _ ≤ n ^ 10 := Nat.pow_le_pow_left (Nat.log2_self_le hn) 10

/-- A ratio in the interval of a finite number is not far outside their range. -/
theorem IsNearest.bounds (hx : x.IsFinite) (hpos : 0 < x.mantissa) {r : ℚ} (h : x.IsNearest r) :
    (2 : ℚ) ^ (-1075 : Int) ≤ r ∧ r < 10 ^ 342 := by
  obtain ⟨-, hq, -⟩ := mantissa_bounds x
  constructor
  · have hone : (1 : ℚ) ≤ x.mantissa := by exact_mod_cast hpos
    have hgap := x.gapBelow_le
    have hlower := h.lower_le
    rw [le_div_iff₀ (two_zpow_pos _)] at hlower
    calc (2 : ℚ) ^ (-1075 : Int)
        = 1 / 2 * 2 ^ (-1074 : Int) := by
          rw [show (-1075 : Int) = -1074 - 1 by decide, zpow_sub_one₀ two_ne_zero]
          ring
      _ ≤ 1 / 2 * 2 ^ x.scale :=
          mul_le_mul_of_nonneg_left (zpow_le_zpow_right₀ one_le_two hq) (by norm_num)
      _ ≤ (x.mantissa - x.gapBelow) * 2 ^ x.scale :=
          mul_le_mul_of_nonneg_right (by linarith) (two_zpow_pos _).le
      _ ≤ r := hlower
  · calc r < 2 ^ 53 * 2 ^ x.scale := h.lt_upper
      _ ≤ 2 ^ 53 * 2 ^ (971 : Int) :=
          mul_le_mul_of_nonneg_left (zpow_le_zpow_right₀ one_le_two (scale_le hx)) (by norm_num)
      _ = 2 ^ (3 * 341 + 1) := by
          rw [two_zpow_add, ← zpow_natCast]
          rfl
      _ ≤ 2 ^ (3 * 342) := pow_le_pow_right₀ one_le_two (by decide)
      _ = 8 ^ 342 := by rw [pow_mul]; norm_num
      _ ≤ 10 ^ 342 := pow_le_pow_left₀ (by norm_num) (by norm_num) 342

/-- The decimals in the interval of a number are read as the number. -/
theorem ofDecimal_eq (hx : x.IsFinite) (hpos : 0 < x.mantissa) {d : Decimal}
    (h : x.IsNearest d.value) : ofDecimal x.negative d.digits d.exponent = x := by
  obtain ⟨digits, exponent⟩ := d
  obtain ⟨hlow, hhigh⟩ := h.bounds hx hpos
  unfold Decimal.value at h hlow hhigh
  dsimp only at h hlow hhigh ⊢
  have hten (i : Int) : (0 : ℚ) < 10 ^ i := zpow_pos (by norm_num) i
  have hdigits : digits ≠ 0 := by
    rintro rfl
    rw [Nat.cast_zero, zero_mul] at hlow
    exact absurd hlow (not_le.2 (two_zpow_pos _))
  -- the guards are for decimals outside the range of finite numbers
  have hlarge : (digits.log2 : Int) * 3 / 10 + exponent < 342 := by
    have hten_lt : (10 : ℚ) ^ ((digits.log2 : Int) * 3 / 10 + exponent) < 10 ^ ((342 : Nat) : Int) := by
      rw [zpow_natCast]
      refine lt_of_le_of_lt ?_ hhigh
      rw [zpow_add₀ (by norm_num)]
      refine mul_le_mul_of_nonneg_right ?_ (hten _).le
      rw [show (digits.log2 : Int) * 3 / 10 = ((digits.log2 * 3 / 10 : Nat) : Int) by omega,
        zpow_natCast]
      exact_mod_cast ten_pow_le_of_log2 hdigits
    exact (zpow_lt_zpow_iff_right₀ (by norm_num)).1 hten_lt
  have hsmall : -400 ≤ (digits.log2 : Int) * 3 / 10 + exponent + (digits.log2 : Int) / 20 := by
    by_contra hlt
    rw [not_le] at hlt
    obtain ⟨n, rfl⟩ : ∃ n : Nat, exponent = -(n : Int) := ⟨(-exponent).toNat, by omega⟩
    have hupper : (digits : ℚ) < 2 ^ (digits.log2 + 1) := by exact_mod_cast Nat.lt_log2_self
    have height : (2 : ℚ) ^ (digits.log2 + 1 + 1075) ≤ 10 ^ n := by
      calc (2 : ℚ) ^ (digits.log2 + 1 + 1075)
          ≤ 2 ^ (3 * n) := pow_le_pow_right₀ one_le_two (by omega)
        _ = 8 ^ n := by rw [pow_mul]; norm_num
        _ ≤ 10 ^ n := pow_le_pow_left₀ (by norm_num) (by norm_num) n
    have hinv : (10 : ℚ) ^ (-(n : Int)) = (10 ^ n)⁻¹ := by rw [zpow_neg, zpow_natCast]
    rw [hinv, ← div_eq_mul_inv, le_div_iff₀ (by positivity)] at hlow
    have hlt : (2 : ℚ) ^ (-1075 : Int) * 10 ^ n < 2 ^ (digits.log2 + 1) := hlow.trans_lt hupper
    have hle : (2 : ℚ) ^ (digits.log2 + 1) ≤ 2 ^ (-1075 : Int) * 10 ^ n := by
      calc (2 : ℚ) ^ (digits.log2 + 1)
          = 2 ^ (-1075 : Int) * 2 ^ (digits.log2 + 1 + 1075) := by
            rw [mul_comm, two_zpow_add, ← zpow_natCast]
            exact congrArg _ (by omega)
        _ ≤ _ := mul_le_mul_of_nonneg_left height (two_zpow_pos _).le
    exact absurd hlt (not_lt.2 hle)
  have hratio : ((digits * power 10 exponent.toNat : Nat) : ℚ) / (power 10 (-exponent).toNat : Nat) =
      digits * 10 ^ exponent := by
    rw [zpow_eq_div (b := 10) (by norm_num), Nat.cast_mul, cast_power, cast_power, Nat.cast_ofNat,
      mul_div_assoc]
  unfold ofDecimal
  dsimp only
  rw [if_neg hdigits, if_neg (by omega), if_neg (by omega)]
  exact ofRatio_eq hx hpos (Nat.pow_pos (by decide)) (by rwa [hratio])

/-! ## The shortest decimal -/

/-- A comparison in exact integers is one of rationals. -/
theorem compareScaled_eq (a : Nat) (i : Int) (n : Nat) (j : Int) :
    compareScaled a i n j = compare ((a : ℚ) * 10 ^ i) (n * 2 ^ j) := by
  have hpos : (0 : ℚ) < 10 ^ (-i).toNat * 2 ^ (-j).toNat := by positivity
  have hleft : ((a * power 10 i.toNat * power 2 (-j).toNat : Nat) : ℚ) =
      a * 10 ^ i * (10 ^ (-i).toNat * 2 ^ (-j).toNat) := by
    rw [zpow_eq_div (b := 10) (by norm_num), Nat.cast_mul, Nat.cast_mul, cast_power, cast_power]
    push_cast
    field_simp
  have hright : ((n * power 2 j.toNat * power 10 (-i).toNat : Nat) : ℚ) =
      n * 2 ^ j * (10 ^ (-i).toNat * 2 ^ (-j).toNat) := by
    rw [zpow_eq_div (b := 2) two_ne_zero, Nat.cast_mul, Nat.cast_mul, cast_power, cast_power]
    push_cast
    field_simp
  unfold compareScaled
  obtain hlt | heq | hgt := lt_trichotomy ((a : ℚ) * 10 ^ i) (n * 2 ^ j)
  · rw [compare_lt_iff_lt.2 hlt, compare_lt_iff_lt, ← Nat.cast_lt (α := ℚ), hleft, hright]
    exact mul_lt_mul_of_pos_right hlt hpos
  · rw [compare_eq_iff_eq.2 heq, compare_eq_iff_eq, ← Nat.cast_inj (R := ℚ), hleft, hright, heq]
  · rw [compare_gt_iff_gt.2 hgt, compare_gt_iff_gt, ← Nat.cast_lt (α := ℚ), hleft, hright]
    exact mul_lt_mul_of_pos_right hgt hpos

/-- The test against the interval is exact. -/
theorem readsBack_iff (hpos : 0 < x.mantissa) (d : Decimal) :
    x.readsBack d ↔ x.IsNearest d.value := by
  have hscale : (2 : ℚ) ^ (x.scale - 2) = 2 ^ x.scale / 4 := by
    rw [zpow_sub₀ two_ne_zero]
    norm_num
  have hlow : (((if x.narrowBelow then 4 * x.mantissa - 1 else 4 * x.mantissa - 2 : Nat) : ℚ) *
      2 ^ (x.scale - 2)) = (x.mantissa - x.gapBelow) * 2 ^ x.scale := by
    rw [hscale, gapBelow]
    split
    · rw [Nat.cast_sub (by omega)]
      push_cast
      ring
    · rw [Nat.cast_sub (by omega)]
      push_cast
      ring
  have hhigh : ((4 * x.mantissa + 2 : Nat) : ℚ) * 2 ^ (x.scale - 2) =
      (x.mantissa + 1 / 2) * 2 ^ x.scale := by
    rw [hscale]
    push_cast
    ring
  have hq := two_zpow_pos x.scale
  unfold readsBack IsNearest
  simp only [compareScaled_eq, hlow, hhigh, Bool.and_eq_true, Bool.or_eq_true, decide_eq_true_iff,
    compare_gt_iff_gt, compare_lt_iff_lt, compare_eq_iff_eq, Nat.even_iff]
  rw [lt_div_iff₀ hq, div_lt_iff₀ hq, eq_div_iff hq.ne', div_eq_iff hq.ne']
  rw [eq_comm (a := (x.mantissa - x.gapBelow) * 2 ^ x.scale)]
  rfl

/-- The magnitude of a number lies in its interval. -/
theorem isNearest_size (x : Binary64) : x.IsNearest x.size := by
  have hgap : 0 < x.gapBelow := by
    unfold gapBelow
    split <;> norm_num
  rw [IsNearest, size, mul_div_cancel_right₀ _ (two_zpow_pos _).ne']
  exact ⟨.inl (by linarith), .inl (by linarith)⟩

theorem value_exact (x : Binary64) : x.exact.value = x.size := by
  unfold exact Decimal.value size
  dsimp only
  rw [Nat.cast_mul, Nat.cast_mul, cast_power, cast_power]
  rcases le_total 0 x.scale with hq | hq
  · obtain ⟨n, hn⟩ := Int.eq_ofNat_of_zero_le hq
    rw [hn]
    simp
  · obtain ⟨n, hn⟩ := Int.eq_ofNat_of_zero_le (Int.neg_nonneg_of_nonpos hq)
    rw [show x.scale = -(n : Int) by omega]
    have hten : (10 : ℚ) ^ n = 2 ^ n * 5 ^ n := by rw [← mul_pow]; norm_num
    simp [hten]
    field_simp

theorem Decimal.value_strip (d : Decimal) : d.strip.value = d.value := by
  have hgo (fuel : Nat) (d : Decimal) : (strip.go fuel d).value = d.value := by
    induction fuel generalizing d with
    | zero => rfl
    | succ fuel ih =>
      rw [strip.go]
      split
      · rename_i hdigits
        have hdiv : ((d.digits / 10 : Nat) : ℚ) * 10 = d.digits := by
          exact_mod_cast Nat.div_mul_cancel (Nat.dvd_of_mod_eq_zero hdigits)
        rw [ih, value, value, zpow_add_one₀ (by norm_num), mul_comm ((10 : ℚ) ^ _), ← mul_assoc, hdiv]
      · rfl
  exact hgo _ d

/-- A neighbour on a grid is taken if it was tested. -/
theorem readsBack_of_onGrid? {exponent : Int} {d : Decimal} (h : x.onGrid? exponent = some d) :
    x.readsBack d := by
  unfold onGrid? at h
  dsimp only at h
  split at h
  · rename_i hlower _
    cases h
    exact hlower
  · rename_i _ hupper
    cases h
    exact hupper
  · cases h
  · rename_i hlower hupper
    split at h
    · cases h
      exact hlower
    · cases h
      exact hupper

/-- The shortest decimal lies in the interval of its number. -/
theorem isNearest_shortest (hpos : 0 < x.mantissa) : x.IsNearest x.shortest.value := by
  unfold shortest
  dsimp only
  rw [Decimal.value_strip]
  cases hfind : (List.range 17).findSome? fun (n : Nat) =>
      x.onGrid? (x.decimalMagnitude - (n + 1 : Nat)) with
  | none =>
    rw [Option.getD_none, value_exact]
    exact isNearest_size x
  | some d =>
    obtain ⟨n, -, hgrid⟩ := List.exists_of_findSome?_eq_some hfind
    exact (readsBack_iff hpos d).1 (readsBack_of_onGrid? hgrid)

/-! ## Text -/

/-- Whether a text is digits, a point and digits, on both sides at least one. -/
structure IsPointed (t whole places : Text) : Prop where
  eq : t = whole ++ '.' :: places
  whole : whole ≠ [] ∧ ∀ c ∈ whole, c.isDigit
  places : places ≠ [] ∧ ∀ c ∈ places, c.isDigit

theorem IsPointed.mem_point {t whole places : Text} (h : IsPointed t whole places) : '.' ∈ t := by
  rw [h.eq]
  exact List.mem_append_right _ List.mem_cons_self

/-- Digits with a point among them are read as a decimal. -/
theorem IsPointed.magnitude? {t whole places : Text} (h : IsPointed t whole places)
    (negative : Bool) : magnitude? negative t =
      some (ofDecimal negative (Numeral.value 10 (whole ++ places)) (-(places.length : Int))) := by
  obtain ⟨rfl, ⟨hne, hwhole⟩, -, hplaces⟩ := h
  have hpoint : '.'.isDigit = false := by decide
  have htake : (whole ++ '.' :: places).takeWhile Char.isDigit = whole := by
    rw [List.takeWhile_append_of_pos hwhole, List.takeWhile_cons_of_neg (by simp [hpoint]),
      List.append_nil]
  have hdrop : (whole ++ '.' :: places).dropWhile Char.isDigit = '.' :: places := by
    rw [List.dropWhile_append_of_pos hwhole, List.dropWhile_cons_of_neg (by simp [hpoint])]
  have htake' : places.takeWhile Char.isDigit = places := List.takeWhile_eq_self_iff.2 hplaces
  have hdrop' : places.dropWhile Char.isDigit = [] := List.dropWhile_eq_nil_iff.2 hplaces
  -- the words for what is not finite have no point
  have hword {w : Text} (hw : '.' ∉ w) : Text.fold (whole ++ '.' :: places) ≠ w := by
    rintro rfl
    refine hw ?_
    rw [Text.fold_append]
    exact List.mem_append_right _ List.mem_cons_self
  unfold Binary64.magnitude?
  rw [if_neg (hword (by decide)), if_neg (not_or.2 ⟨hword (by decide), hword (by decide)⟩), htake,
    hdrop]
  show (if whole = [] ∧ places.takeWhile Char.isDigit = [] then none
    else (exponent? (places.dropWhile Char.isDigit)).map fun e =>
      ofDecimal negative (Numeral.value 10 (whole ++ places.takeWhile Char.isDigit))
        (e - (places.takeWhile Char.isDigit).length)) = _
  rw [htake', hdrop', if_neg (fun h => hne h.1), exponent?, Option.map_some, Int.zero_sub]

theorem isDigit_of_mem_zeros {n : Nat} {c : Char} (h : c ∈ List.replicate n '0') : c.isDigit := by
  rw [List.eq_of_mem_replicate h]
  decide

theorem isDigits_zero : ['0'] ≠ [] ∧ ∀ c ∈ ['0'], c.isDigit :=
  ⟨List.cons_ne_nil _ _, fun _ hc => isDigit_of_mem_zeros (n := 1) hc⟩

/-- Positional notation, with a point and a zero behind it if it has no point, says
what the decimal is. -/
theorem Decimal.isPointed_positional (d : Decimal) : ∃ whole places,
    IsPointed (if '.' ∈ d.positional then d.positional else d.positional ++ ['.', '0'])
      whole places ∧
    (Numeral.value 10 (whole ++ places) : ℚ) * 10 ^ (-(places.length : Int)) = d.value := by
  have hdigit {c : Char} (hc : c ∈ Numeral.ofNat d.digits) : c.isDigit :=
    Numeral.isDigit_of_mem_ofNat hc
  have hlength : 0 < (Numeral.ofNat d.digits).length :=
    List.length_pos_of_ne_nil (Numeral.ofNat_ne_nil _)
  unfold positional
  dsimp only
  split
  · rename_i hexponent
    have hdigits : ∀ c ∈ Numeral.ofNat d.digits ++ List.replicate d.exponent.toNat '0', c.isDigit :=
      fun c hc => (List.mem_append.1 hc).elim hdigit isDigit_of_mem_zeros
    have hpoint : '.' ∉ Numeral.ofNat d.digits ++ List.replicate d.exponent.toNat '0' := by
      intro hc
      exact absurd (hdigits _ hc) (by decide)
    rw [if_neg hpoint]
    refine ⟨_, ['0'], ⟨rfl, ⟨?_, hdigits⟩, isDigits_zero⟩, ?_⟩
    · simp [Numeral.ofNat_ne_nil]
    · rw [List.append_assoc, ← List.replicate_succ', Numeral.value_append, Numeral.value_ofNat,
        Numeral.value_zeros, List.length_replicate, value]
      obtain ⟨n, hn⟩ := Int.eq_ofNat_of_zero_le hexponent
      rw [hn]
      push_cast
      simp only [Int.toNat_natCast, List.length_singleton, zpow_natCast, pow_succ, Int.reduceNeg,
        Nat.cast_one, zpow_neg_one]
      field_simp
      simp
  · rename_i hexponent
    split
    · rename_i hplaces
      rw [if_pos (List.mem_append_right _ List.mem_cons_self)]
      refine ⟨_, _, ⟨rfl, ⟨?_, fun c hc => hdigit (List.mem_of_mem_take hc)⟩, ?_,
        fun c hc => hdigit (List.mem_of_mem_drop hc)⟩, ?_⟩
      · rw [← List.length_pos_iff_ne_nil, List.length_take]
        omega
      · rw [← List.length_pos_iff_ne_nil, List.length_drop]
        omega
      · rw [List.take_append_drop, Numeral.value_ofNat, List.length_drop, value]
        congr 2
        omega
    · rename_i hplaces
      rw [if_pos (List.mem_cons_of_mem _ List.mem_cons_self)]
      refine ⟨['0'], _, ⟨rfl, isDigits_zero, ?_, fun c hc =>
        (List.mem_append.1 hc).elim isDigit_of_mem_zeros hdigit⟩, ?_⟩
      · simp [Numeral.ofNat_ne_nil]
      · have hzeros : ['0'] ++ (List.replicate ((-d.exponent).toNat -
            (Numeral.ofNat d.digits).length) '0' ++ Numeral.ofNat d.digits) =
            List.replicate ((-d.exponent).toNat - (Numeral.ofNat d.digits).length + 1) '0' ++
              Numeral.ofNat d.digits := by
          rw [← List.append_assoc, List.replicate_succ]
          rfl
        rw [hzeros, Numeral.value_append, Numeral.value_zeros, Numeral.value_ofNat, Nat.zero_mul,
          Nat.zero_add, List.length_append, List.length_replicate, value]
        congr 2
        omega

/-- The text of a finite magnitude, which always has a point. -/
def magnitudeText (x : Binary64) : Text :=
  let t := if x.isZero then ['0'] else x.shortest.positional
  if '.' ∈ t then t else t ++ ['.', '0']

theorem shortest_neg (x : Binary64) : x.neg.shortest = x.shortest := by
  have hgrid : x.neg.onGrid? = x.onGrid? := rfl
  have hmagnitude : x.neg.decimalMagnitude = x.decimalMagnitude := rfl
  have hexact : x.neg.exact = x.exact := rfl
  rw [shortest, hgrid, hmagnitude, hexact, shortest]

/-- The sign has no part in the text of a magnitude. -/
theorem magnitudeText_neg (x : Binary64) : x.neg.magnitudeText = x.magnitudeText := by
  have hzero : x.neg.isZero = x.isZero := rfl
  rw [magnitudeText, hzero, shortest_neg, magnitudeText]

theorem IsFinite.not_isNaN (hx : x.IsFinite) : x.isNaN = false := by
  rw [isNaN, decide_eq_false hx, Bool.false_and]

/-- The literal of a finite number is a sign and the text of its magnitude. -/
theorem floatLiteral_eq (hx : x.IsFinite) : Value.floatLiteral x =
    if x.negative then '-' :: x.magnitudeText else x.magnitudeText := by
  have hnan := hx.not_isNaN
  have hinfinite : x.isInfinite = false := by rw [isInfinite, decide_eq_false hx, Bool.false_and]
  have htext : x.text = if x.negative then
      '-' :: (if x.isZero then ['0'] else x.shortest.positional)
      else if x.isZero then ['0'] else x.shortest.positional := by
    rw [text, hnan, hinfinite, if_neg Bool.false_ne_true, if_neg Bool.false_ne_true]
  rw [Value.floatLiteral, hnan, hinfinite, if_neg Bool.false_ne_true, if_neg Bool.false_ne_true,
    htext, magnitudeText]
  generalize (if x.isZero then ['0'] else x.shortest.positional) = t
  have hsign : '.' ∈ '-' :: t ↔ '.' ∈ t := by simp
  cases x.negative with
  | true =>
    simp only [if_true, hsign]
    split <;> rfl
  | false => rfl

/-- A number is finite, infinite, or no number, and each has literals of its own. -/
theorem floatLiteral_cases (x : Binary64) :
    (x.IsFinite ∧
      Value.floatLiteral x = if x.negative then '-' :: x.magnitudeText else x.magnitudeText) ∨
    (x = infinity x.negative ∧
      Value.floatLiteral x = if x.negative then "-INF".toList else "INF".toList) ∨
    x.isNaN ∧ Value.floatLiteral x = "NAN".toList := by
  by_cases hx : x.IsFinite
  · exact .inl ⟨hx, floatLiteral_eq hx⟩
  have hspecial : x.exponent.val = specialExponent := not_not.1 hx
  by_cases hfraction : x.fraction.val = 0
  · have hnan : x.isNaN = false := by simp [isNaN, hfraction]
    have hinfinite : x.isInfinite = true := by simp [isInfinite, hspecial, hfraction]
    refine .inr (.inl ⟨?_, ?_⟩)
    · obtain ⟨negative, exponent, fraction⟩ := x
      simp only [infinity, Binary64.mk.injEq, true_and]
      exact ⟨Fin.ext hspecial, Fin.ext hfraction⟩
    · rw [Value.floatLiteral, hnan, hinfinite, if_neg Bool.false_ne_true, if_pos rfl]
  · have hnan : x.isNaN = true := by simp [isNaN, hspecial, hfraction]
    exact .inr (.inr ⟨hnan, by rw [Value.floatLiteral, hnan, if_pos rfl]⟩)

theorem mantissa_pos (hzero : x.isZero = false) : 0 < x.mantissa := by
  unfold isZero at hzero
  unfold mantissa leadingBit
  split
  · simp_all
    omega
  · omega

theorem eq_zero_of_isZero (hzero : x.isZero) : x = zero x.negative := by
  obtain ⟨negative, ⟨exponent, hexponent⟩, ⟨fraction, hfraction⟩⟩ := x
  simp_all [isZero, zero]

/-- The text of a finite magnitude is read as the number of the sign. -/
theorem magnitude?_magnitudeText (hx : x.IsFinite) : ∃ whole places,
    IsPointed x.magnitudeText whole places ∧ magnitude? x.negative x.magnitudeText = some x := by
  unfold magnitudeText
  dsimp only
  cases hzero : x.isZero with
  | true =>
    have hpointed : IsPointed ['0', '.', '0'] ['0'] ['0'] :=
      ⟨rfl, isDigits_zero, isDigits_zero⟩
    refine ⟨['0'], ['0'], hpointed, ?_⟩
    rw [if_pos rfl, if_neg (by decide)]
    refine (hpointed.magnitude? _).trans (congrArg some ?_)
    exact (eq_zero_of_isZero hzero).symm
  | false =>
    have hpos := mantissa_pos hzero
    obtain ⟨whole, places, hpointed, hvalue⟩ := x.shortest.isPointed_positional
    refine ⟨whole, places, hpointed, ?_⟩
    rw [if_neg Bool.false_ne_true, hpointed.magnitude?]
    have hnearest := isNearest_shortest hpos
    rw [← hvalue] at hnearest
    exact congrArg some (ofDecimal_eq hx hpos (d := ⟨_, _⟩) hnearest)

end BuilderForge.Binary64
