import Mathlib.Algebra.Order.Field.Power
import Mathlib.Data.Rat.Cast.Order
import Mathlib.Tactic.FieldSimp
import Mathlib.Tactic.Linarith
import Mathlib.Tactic.NormNum
import Mathlib.Tactic.Ring
import BuilderForge.Binary64.Rounding
import BuilderForge.Binary64.Shortest
/-
  Which ratios are rounded to a floating-point number.

  The exact integers of the rounding functions stand for rationals, and here the
  functions are read in them. A finite number is the nearest one to the ratios
  in the interval `IsNearest`, and `ofRatio_eq` says that these are rounded to
  it: the power of two that is chosen for the ratio is that of the number, save
  just below a power of two, where the rounded mantissa carries over
  (`scale_cases`).
-/

namespace BuilderForge.Binary64

/-! ## Integers as rationals -/

theorem cast_power (base n : Nat) : ((power base n : Nat) : ℚ) = (base : ℚ) ^ n := by
  rw [power, Nat.pow_eq]
  exact Nat.cast_pow base n

theorem zpow_eq_div {b : ℚ} (hb : b ≠ 0) (i : Int) : b ^ i = b ^ i.toNat / b ^ (-i).toNat := by
  rw [← zpow_natCast, ← zpow_natCast, ← zpow_sub₀ hb]
  congr 1
  omega

/-- A power of two on the side where its exponent is positive is the power itself. -/
theorem cast_scaled (num den : Nat) (q : Int) :
    ((num * power 2 (-q).toNat : Nat) : ℚ) / ((den * power 2 q.toNat : Nat) : ℚ) =
      num / den / 2 ^ q := by
  rw [zpow_eq_div two_ne_zero, Nat.cast_mul, Nat.cast_mul, cast_power, cast_power, Nat.cast_ofNat]
  field_simp

/-! ## The nearest integer -/

/-- Whether `m` is the integer nearest to a rational, and the even one of two. -/
def IsNearestNat (m : Nat) (r : ℚ) : Prop :=
  ((m : ℚ) - 1 / 2 < r ∨ Even m ∧ (m : ℚ) - 1 / 2 = r) ∧
  (r < (m : ℚ) + 1 / 2 ∨ Even m ∧ r = (m : ℚ) + 1 / 2)

theorem nearest_eq {num den m : Nat} (hden : 0 < den) (h : IsNearestNat m ((num : ℚ) / den)) :
    nearest num den = m := by
  have hdenq : (0 : ℚ) < den := Nat.cast_pos.2 hden
  -- the interval in naturals
  have hlow : 2 * m * den < 2 * num + den ∨ Even m ∧ 2 * m * den = 2 * num + den := by
    refine h.1.imp (fun hlt => ?_) fun ⟨heven, heq⟩ => ⟨heven, ?_⟩
    · rw [lt_div_iff₀ hdenq] at hlt
      have : (2 * m * den : ℚ) < 2 * num + den := by linarith
      exact_mod_cast this
    · rw [eq_div_iff hdenq.ne'] at heq
      have : (2 * m * den : ℚ) = 2 * num + den := by linarith
      exact_mod_cast this
  have hhigh : 2 * num < (2 * m + 1) * den ∨ Even m ∧ 2 * num = (2 * m + 1) * den := by
    refine h.2.imp (fun hlt => ?_) fun ⟨heven, heq⟩ => ⟨heven, ?_⟩
    · rw [div_lt_iff₀ hdenq] at hlt
      have : (2 * num : ℚ) < (2 * m + 1) * den := by linarith
      exact_mod_cast this
    · rw [div_eq_iff hdenq.ne'] at heq
      have : (2 * num : ℚ) = (2 * m + 1) * den := by linarith
      exact_mod_cast this
  have hdivmod : den * (num / den) + num % den = num := Nat.div_add_mod num den
  have hmod : num % den < den := Nat.mod_lt _ hden
  rw [Nat.even_iff, Nat.mul_assoc, Nat.mul_comm m] at hlow
  rw [Nat.even_iff, Nat.add_mul, Nat.mul_assoc, Nat.mul_comm m, Nat.one_mul] at hhigh
  unfold nearest
  dsimp only
  generalize num / den = k at hdivmod ⊢
  -- the nearest integer is the quotient or the one above it
  obtain hm | hm | hm | hm : m + 1 ≤ k ∨ m = k ∨ m = k + 1 ∨ k + 2 ≤ m := by omega
  · have := Nat.mul_le_mul_left den hm
    rw [Nat.mul_add, Nat.mul_one] at this
    omega
  · rw [hm] at hhigh hlow ⊢
    split <;> rename_i hcompare
    · rfl
    · rw [Nat.compare_eq_gt] at hcompare
      omega
    · rw [Nat.compare_eq_eq] at hcompare
      omega
  · rw [hm, Nat.mul_add, Nat.mul_one] at hlow hhigh
    rw [hm]
    split <;> rename_i hcompare
    · rw [Nat.compare_eq_lt] at hcompare
      omega
    · rfl
    · rw [Nat.compare_eq_eq] at hcompare
      omega
  · have := Nat.mul_le_mul_left den hm
    rw [Nat.mul_add] at this
    omega

/-! ## The power of two of a ratio -/

/-- The power that `magnitude` gives is the one that the ratio lies above. -/
theorem magnitude_spec {num den : Nat} (hnum : 0 < num) (hden : 0 < den) :
    (2 : ℚ) ^ magnitude num den ≤ (num : ℚ) / den ∧
      (num : ℚ) / den < 2 ^ (magnitude num den + 1) := by
  have hdenq : (0 : ℚ) < den := Nat.cast_pos.2 hden
  have hlower {n : Nat} (hn : 0 < n) : (2 : ℚ) ^ (n.log2 : Int) ≤ n := by
    rw [zpow_natCast]
    exact_mod_cast Nat.log2_self_le hn.ne'
  have hupper (n : Nat) : (n : ℚ) < 2 ^ ((n.log2 : Int) + 1) := by
    rw [show (n.log2 : Int) + 1 = ((n.log2 + 1 : Nat) : Int) by omega, zpow_natCast]
    exact_mod_cast Nat.lt_log2_self
  have hbelow (e : Int) : belowPow num den e = true ↔ (num : ℚ) / den < 2 ^ e := by
    rw [belowPow, decide_eq_true_iff, ← Nat.cast_lt (α := ℚ), Nat.cast_mul, Nat.cast_mul,
      cast_power, cast_power, Nat.cast_ofNat, div_lt_iff₀ hdenq, zpow_eq_div two_ne_zero,
      div_mul_eq_mul_div, lt_div_iff₀ (by positivity), mul_comm (den : ℚ)]
  have hup : (num : ℚ) / den < 2 ^ ((num.log2 : Int) - den.log2 + 1) := by
    rw [div_lt_iff₀ hdenq]
    calc (num : ℚ) < 2 ^ ((num.log2 : Int) + 1) := hupper num
      _ = 2 ^ ((num.log2 : Int) - den.log2 + 1) * 2 ^ (den.log2 : Int) := by
          rw [← zpow_add₀ two_ne_zero]
          congr 1
          omega
      _ ≤ _ := mul_le_mul_of_nonneg_left (hlower hden) (by positivity)
  have hdown : (2 : ℚ) ^ ((num.log2 : Int) - den.log2 - 1) < (num : ℚ) / den := by
    rw [lt_div_iff₀ hdenq]
    calc (2 : ℚ) ^ ((num.log2 : Int) - den.log2 - 1) * den
        < 2 ^ ((num.log2 : Int) - den.log2 - 1) * 2 ^ ((den.log2 : Int) + 1) :=
          mul_lt_mul_of_pos_left (hupper den) (by positivity)
      _ = 2 ^ (num.log2 : Int) := by
          rw [← zpow_add₀ two_ne_zero]
          congr 1
          omega
      _ ≤ num := hlower hnum
  unfold magnitude
  dsimp only
  split
  · rename_i h
    exact ⟨hdown.le, by rw [Int.sub_add_cancel]; exact (hbelow _).1 h⟩
  · rename_i h
    rw [hbelow, not_lt] at h
    exact ⟨h, hup⟩

/-! ## Finite numbers -/

/-- Whether the fields stand for a finite number. -/
def IsFinite (x : Binary64) : Prop := x.exponent.val ≠ specialExponent

/-- The magnitude of a finite number. -/
def size (x : Binary64) : ℚ := x.mantissa * 2 ^ x.scale

/-- How far below the mantissa the interval of a number ends: halfway to the next
mantissa, which is nearer where the number below is half as far away. -/
def gapBelow (x : Binary64) : ℚ := if x.narrowBelow then 1 / 4 else 1 / 2

/-- Whether a rational lies among those that have no nearer number than the
magnitude of `x`. An even mantissa takes in the ends of the interval. -/
def IsNearest (x : Binary64) (r : ℚ) : Prop :=
  (x.mantissa - x.gapBelow < r / 2 ^ x.scale ∨
    Even x.mantissa ∧ x.mantissa - x.gapBelow = r / 2 ^ x.scale) ∧
  (r / 2 ^ x.scale < x.mantissa + 1 / 2 ∨ Even x.mantissa ∧ r / 2 ^ x.scale = x.mantissa + 1 / 2)

variable {x : Binary64}

/-- A mantissa has 53 bits, and fewer only at the least scale. -/
theorem mantissa_bounds (x : Binary64) : x.mantissa < 2 ^ 53 ∧ -1074 ≤ x.scale ∧
    (-1074 < x.scale → 2 ^ 52 ≤ x.mantissa) := by
  have hfraction := x.fraction.isLt
  unfold mantissa scale leadingBit
  split <;> omega

theorem scale_le (h : x.IsFinite) : x.scale ≤ 971 := by
  have hexponent := x.exponent.isLt
  unfold IsFinite specialExponent at h
  unfold scale
  split <;> omega

theorem narrowBelow_of_mantissa (hm : x.mantissa = 2 ^ 52) (hq : -1074 < x.scale) :
    x.narrowBelow := by
  unfold mantissa leadingBit at hm
  unfold scale at hq
  unfold narrowBelow
  have hfraction := x.fraction.isLt
  rw [Bool.and_eq_true, decide_eq_true_iff, decide_eq_true_iff]
  split at hm
  · simp_all
  · simp_all
    omega

theorem mantissa_of_narrowBelow (h : x.narrowBelow) : x.mantissa = 2 ^ 52 ∧ -1074 < x.scale := by
  unfold narrowBelow at h
  rw [Bool.and_eq_true, decide_eq_true_iff, decide_eq_true_iff] at h
  unfold mantissa scale leadingBit
  rw [if_neg (by omega), if_neg (by omega), h.1]
  omega

/-- A finite number is put together again from its mantissa and its scale. -/
theorem assemble_mantissa (h : x.IsFinite) : assemble x.negative x.mantissa x.scale = x := by
  obtain ⟨negative, ⟨exponent, hexponent⟩, ⟨fraction, hfraction⟩⟩ := x
  have hq := scale_le h
  unfold IsFinite specialExponent at h
  unfold assemble
  rw [if_neg (by omega)]
  unfold mantissa scale leadingBit
  dsimp only at h ⊢
  by_cases hzero : exponent = 0
  · subst hzero
    rw [dif_pos (by rw [if_pos rfl]; exact hfraction)]
    simp
  · rw [dif_neg (by rw [if_neg hzero]; omega)]
    simp only [hzero, if_false, Binary64.mk.injEq, Fin.mk.injEq, true_and]
    omega

theorem ofMantissa_mantissa (h : x.IsFinite) : ofMantissa x.negative x.mantissa x.scale = x := by
  have hm := (mantissa_bounds x).1
  rw [ofMantissa, if_neg (by unfold leadingBit; omega), assemble_mantissa h]

/-! ## Rounding -/

theorem two_zpow_pos (q : Int) : (0 : ℚ) < 2 ^ q := zpow_pos two_pos q

theorem two_zpow_add (n : Nat) (q : Int) : (2 : ℚ) ^ n * 2 ^ q = 2 ^ ((n : Int) + q) := by
  rw [zpow_add₀ two_ne_zero, zpow_natCast]

theorem gapBelow_le (x : Binary64) : x.gapBelow ≤ 1 / 2 := by
  unfold gapBelow
  split <;> norm_num

theorem IsNearest.lower_le {r : ℚ} (h : x.IsNearest r) :
    (x.mantissa : ℚ) - x.gapBelow ≤ r / 2 ^ x.scale :=
  h.1.elim le_of_lt fun heq => heq.2.le

theorem IsNearest.lt_upper {r : ℚ} (h : x.IsNearest r) : r < 2 ^ 53 * 2 ^ x.scale := by
  have hm : (x.mantissa : ℚ) + 1 ≤ 2 ^ 53 := by
    exact_mod_cast (mantissa_bounds x).1
  have hupper : r / 2 ^ x.scale ≤ x.mantissa + 1 / 2 := h.2.elim le_of_lt fun heq => heq.2.le
  rw [← div_lt_iff₀ (two_zpow_pos _)]
  linarith

/-- The scale that rounding chooses for a ratio is that of the number, or the one
below where the ratio lies just below a power of two. -/
theorem scale_cases {r : ℚ} (h : x.IsNearest r) {e : Int} (hlow : (2 : ℚ) ^ e ≤ r)
    (hhigh : r < 2 ^ (e + 1)) : max (e - 52) (-1074) = x.scale ∨
      x.narrowBelow ∧ max (e - 52) (-1074) = x.scale - 1 ∧ r < 2 ^ 52 * 2 ^ x.scale := by
  obtain ⟨-, hq, hm⟩ := mantissa_bounds x
  have hlt {i j : Int} : (2 : ℚ) ^ i < 2 ^ j ↔ i < j := zpow_lt_zpow_iff_right₀ one_lt_two
  have he : e < (53 : Nat) + x.scale := by
    rw [← hlt, ← two_zpow_add]
    exact hlow.trans_lt h.lt_upper
  by_cases hleast : x.scale = -1074
  · exact .inl (by omega)
  have hm := hm (by omega)
  by_cases hr : 2 ^ 52 * 2 ^ x.scale ≤ r
  · rw [two_zpow_add] at hr
    have he' := hlt.1 (hr.trans_lt hhigh)
    push_cast at he'
    exact .inl (by omega)
  · rw [not_le] at hr
    -- the mantissa is the leading bit alone
    have hleading : x.mantissa = 2 ^ 52 := by
      rw [← div_lt_iff₀ (two_zpow_pos _)] at hr
      have hlower := h.lower_le
      have hgap := x.gapBelow_le
      have : (x.mantissa : ℚ) < 2 ^ 52 + 1 := by linarith
      have : x.mantissa < 2 ^ 52 + 1 := by exact_mod_cast this
      omega
    have hnarrow := narrowBelow_of_mantissa hleading (by omega)
    have hhalf : (2 : ℚ) ^ 51 * 2 ^ x.scale ≤ r := by
      have hlower := h.lower_le
      have hgap := x.gapBelow_le
      rw [hleading] at hlower
      rw [← le_div_iff₀ (two_zpow_pos _)]
      push_cast at hlower
      linarith
    rw [two_zpow_add] at hhalf
    have hr' := hr
    rw [two_zpow_add] at hr'
    have he' := hlt.1 (hhalf.trans_lt hhigh)
    have he'' := hlt.1 (hlow.trans_lt hr')
    push_cast at he' he''
    exact .inr ⟨hnarrow, by omega, hr⟩

/-- The ratios in the interval of a number are rounded to it. -/
theorem ofRatio_eq (hx : x.IsFinite) (hpos : 0 < x.mantissa) {num den : Nat} (hden : 0 < den)
    (h : x.IsNearest ((num : ℚ) / den)) : ofRatio x.negative num den = x := by
  have hdenq : (0 : ℚ) < den := Nat.cast_pos.2 hden
  have hnum : 0 < num := by
    have hlower := h.lower_le
    have hgap := x.gapBelow_le
    have hone : (1 : ℚ) ≤ x.mantissa := by exact_mod_cast hpos
    refine Nat.pos_of_ne_zero fun hzero => ?_
    rw [hzero, Nat.cast_zero, zero_div, zero_div] at hlower
    linarith
  obtain ⟨hlow, hhigh⟩ := magnitude_spec hnum hden
  have hden' (q : Int) : 0 < den * power 2 q.toNat := Nat.mul_pos hden (Nat.pow_pos (by decide))
  rw [ofRatio, if_neg hnum.ne']
  dsimp only
  obtain hq | ⟨hnarrow, hq, hlt⟩ := scale_cases h hlow hhigh
  · have hnearest : IsNearestNat x.mantissa ((num : ℚ) / den / 2 ^ x.scale) := by
      refine ⟨?_, h.2⟩
      rcases x.gapBelow_le.lt_or_eq with hgap | hgap
      · exact .inl (lt_of_lt_of_le (by linarith) h.lower_le)
      · exact hgap ▸ h.1
    rw [hq, nearest_eq (hden' _) (by rwa [cast_scaled]), ofMantissa_mantissa hx]
  · -- rounding gives twice the leading bit, which is the leading bit one scale above
    obtain ⟨hm, -⟩ := mantissa_of_narrowBelow hnarrow
    have hnearest : IsNearestNat (2 * leadingBit) ((num : ℚ) / den / 2 ^ (x.scale - 1)) := by
      have hlower := h.lower_le
      rw [← div_lt_iff₀ (two_zpow_pos _)] at hlt
      rw [gapBelow, if_pos hnarrow, hm] at hlower
      rw [zpow_sub_one₀ two_ne_zero, ← div_div, div_inv_eq_mul]
      unfold leadingBit
      push_cast at hlower ⊢
      refine ⟨?_, .inl (by linarith)⟩
      rcases hlower.lt_or_eq with hlower | hlower
      · exact .inl (by linarith)
      · exact .inr ⟨by decide, by linarith⟩
    have hleading : leadingBit = x.mantissa := by rw [hm]; rfl
    rw [hq, nearest_eq (hden' _) (by rwa [cast_scaled]), ofMantissa, if_pos rfl, Int.sub_add_cancel,
      hleading, assemble_mantissa hx]

end BuilderForge.Binary64
