import Mathlib.Algebra.Group.Nat.Defs
import BuilderForge.Text.Numeral
/-
  Numerals are read back.

  `value` weighs the digits of a run by their places, so what is written in
  front of a run counts as often as the base to the length of it
  (`value_append`), and zeros in front count nothing. The digits of a natural
  number have its value, and the written form of an integer is read as the
  integer, so different integers are written differently.
-/

namespace BuilderForge.Numeral

variable {base : Nat} {s t : Text}

theorem foldl_value (base : Nat) (t : Text) (n : Nat) :
    t.foldl (fun n c => n * base + (digitValue? c).getD 0) n = n * base ^ t.length + value base t := by
  induction t generalizing n with
  | nil => simp [value]
  | cons c t ih =>
    have hvalue : value base (c :: t) = (digitValue? c).getD 0 * base ^ t.length + value base t := by
      rw [value, List.foldl_cons, ih, Nat.zero_mul, Nat.zero_add]
    rw [List.foldl_cons, ih, hvalue, List.length_cons, Nat.pow_succ, Nat.add_mul, Nat.mul_assoc,
      Nat.mul_comm base, Nat.add_assoc]

/-- What is written in front counts as often as there are places behind it. -/
theorem value_append (base : Nat) (s t : Text) :
    value base (s ++ t) = value base s * base ^ t.length + value base t := by
  rw [value, List.foldl_append, foldl_value]
  rfl

theorem value_zeros (base n : Nat) : value base (List.replicate n '0') = 0 := by
  induction n with
  | zero => rfl
  | succ n ih =>
    rw [List.replicate_succ', value_append, ih]
    simp [value, digitValue?]

theorem digitValue?_of_isDigit {c : Char} (h : c.isDigit) :
    digitValue? c = some (c.toNat - '0'.toNat) := if_pos h

/-! ## Naturals -/

theorem isDigit_of_mem_ofNat {n : Nat} {c : Char} (h : c ∈ ofNat n) : c.isDigit :=
  Nat.isDigit_of_mem_toDigits (by decide) (by decide) h

theorem ofNat_ne_nil (n : Nat) : ofNat n ≠ [] := Nat.toDigits_ne_nil

/-- Decimal digits are read as the library reads them. -/
theorem value_eq_ofDigitChars (h : ∀ c ∈ t, c.isDigit) : value 10 t = Nat.ofDigitChars 10 t 0 := by
  have hfold (n : Nat) : t.foldl (fun n c => n * 10 + (digitValue? c).getD 0) n =
      Nat.ofDigitChars 10 t n := by
    induction t generalizing n with
    | nil => rfl
    | cons c t ih =>
      have hc := digitValue?_of_isDigit (h c List.mem_cons_self)
      rw [List.foldl_cons, ih (fun d hd => h d (List.mem_cons_of_mem _ hd)), hc, Option.getD_some,
        Nat.ofDigitChars_cons, Nat.mul_comm]
  exact hfold 0

@[simp] theorem value_ofNat (n : Nat) : value 10 (ofNat n) = n := by
  rw [value_eq_ofDigitChars fun c hc => isDigit_of_mem_ofNat hc]
  exact Nat.ofDigitChars_toDigits (by decide) (by decide)

/-- Only zero itself is written with a zero in front. -/
theorem ofNat_of_head?_zero {n : Nat} (h : (ofNat n).head? = some '0') : n = 0 := by
  induction n using Nat.strongRecOn with
  | ind n ih =>
    unfold ofNat at h ih
    rw [Nat.toDigits_eq_if (by decide)] at h
    split at h
    · rename_i hsmall
      have hall : ∀ n < 10, n.digitChar = '0' → n = 0 := by decide
      exact hall n hsmall (Option.some_inj.1 h)
    · rename_i hlarge
      obtain ⟨c, t, ht⟩ := List.exists_cons_of_ne_nil (Nat.toDigits_ne_nil (n := n / 10) (b := 10))
      rw [ht] at h
      have hzero := ih (n / 10) (by omega) (by rw [ht]; exact h)
      omega

theorem nat?_eq_some (hne : t ≠ []) (h : ∀ c ∈ t, c.isDigit) : nat? t = some (value 10 t) := by
  rw [nat?, if_pos ⟨hne, List.all_eq_true.2 h⟩]

@[simp] theorem nat?_ofNat (n : Nat) : nat? (ofNat n) = some n := by
  rw [nat?_eq_some (ofNat_ne_nil n) fun c hc => isDigit_of_mem_ofNat hc, value_ofNat]

/-! ## Integers -/

theorem int?_neg (t : Text) : int? ('-' :: t) = (nat? t).map fun n => -Int.ofNat n := by
  rw [int?]
  cases nat? t <;> rfl

/-- A text that begins with a digit has no sign. -/
theorem int?_of_digits (h : ∀ c ∈ t, c.isDigit) : int? t = (nat? t).map Int.ofNat := by
  unfold int?
  split
  · exact absurd (h '-' List.mem_cons_self) (by decide)
  · cases nat? t <;> rfl

@[simp] theorem int?_ofInt (i : Int) : int? (ofInt i) = some i := by
  unfold ofInt
  split
  · rw [int?_neg, nat?_ofNat, Option.map_some, Option.some_inj, Int.ofNat_eq_natCast]
    omega
  · rw [int?_of_digits fun c hc => isDigit_of_mem_ofNat hc, nat?_ofNat, Option.map_some,
      Option.some_inj, Int.ofNat_eq_natCast]
    omega

/-! ## Bytes -/

theorem hexDigit_digit {n : Nat} (h : n < 16) : digitValue? (hexByte.hexDigit n) = some n := by
  have hall : ∀ n : Fin 16, digitValue? (hexByte.hexDigit n.val) = some n.val := by decide
  exact hall ⟨n, h⟩

/-- The digits of a byte have its value. -/
theorem value_hexByte (b : UInt8) : value 16 (hexByte b) = b.toNat := by
  have hb : b.toNat < 256 := b.toNat_lt
  rw [hexByte, value, List.foldl_cons, List.foldl_cons, List.foldl_nil,
    hexDigit_digit (by omega), hexDigit_digit (by omega), Option.getD_some, Option.getD_some]
  omega

end BuilderForge.Numeral
