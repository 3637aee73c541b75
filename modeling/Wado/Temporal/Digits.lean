/-
Decimal digits, as they are written with leading zeros and read again.
-/
import Mathlib.Algebra.Order.Ring.Nat
import Wado.Temporal.IsoText

namespace Wado.Temporal

open List

/-- The byte of a digit. -/
def digit (d : Nat) : UInt8 := UInt8.ofNat (48 + d)

variable {d : Nat}

theorem byte_digitChar (h : d < 10) : byte d.digitChar = digit d := by
  revert h
  revert d
  decide

theorem digit_isDigit (h : d < 10) : isAsciiDigit (digit d) = true := by
  revert h
  revert d
  decide

theorem digit_ne (h : d < 10) {b : UInt8} (hb : isAsciiDigit b = false) :
    digit d ≠ b := by
  rintro rfl
  rw [digit_isDigit h] at hb
  cases hb

theorem exists_digit {b : UInt8} (h : isAsciiDigit b = true) : ∃ d, d < 10 ∧ b = digit d := by
  unfold isAsciiDigit at h
  rw [decide_eq_true_eq] at h
  obtain ⟨hlo, hhi⟩ := h
  have hlo' : 48 ≤ b.toNat := UInt8.le_iff_toNat_le.mp hlo
  have hhi' : b.toNat ≤ 57 := UInt8.le_iff_toNat_le.mp hhi
  refine ⟨b.toNat - 48, by omega, ?_⟩
  unfold digit
  rw [Nat.add_sub_cancel' hlo', UInt8.ofNat_toNat]

theorem digit_value (h : d < 10) : (digit d - byte '0').toNat = d := by
  revert h
  revert d
  decide

/-- A number's last digits, so many of them. -/
def fixedDigits : Nat → Nat → Text
  | 0, _ => []
  | width + 1, n => fixedDigits width (n / 10) ++ [digit (n % 10)]

variable (width n : Nat)

theorem fixedDigits_length : (fixedDigits width n).length = width := by
  induction width generalizing n with
  | zero => rfl
  | succ width ih =>
    unfold fixedDigits
    rw [length_append, ih]
    rfl

theorem fixedDigits_zero (width : Nat) : fixedDigits width 0 = List.replicate width (byte '0') := by
  induction width with
  | zero => rfl
  | succ width ih =>
    unfold fixedDigits
    rw [Nat.zero_div, ih, replicate_succ']
    rfl

variable (n : Nat)

/-- The last digit comes off the end. -/
theorem decimal_eq :
    decimal n = if n < 10 then [digit n] else decimal (n / 10) ++ [digit (n % 10)] := by
  unfold decimal
  rw [Nat.toDigits_eq_if (by decide)]
  split_ifs with h
  · rw [map_singleton, byte_digitChar h]
  · rw [map_append, map_singleton, byte_digitChar (Nat.mod_lt n (by decide))]

theorem replicate_decimal (h : n < 10 ^ (width + 1)) :
    List.replicate (width + 1 - (decimal n).length) (byte '0') ++ decimal n =
      fixedDigits (width + 1) n := by
  induction width generalizing n with
  | zero =>
    have hlt : n < 10 := by simpa using h
    rw [decimal_eq, if_pos hlt]
    unfold fixedDigits
    rw [Nat.mod_eq_of_lt hlt]
    rfl
  | succ width ih =>
    unfold fixedDigits
    rw [decimal_eq]
    split_ifs with hlt
    · rw [Nat.div_eq_of_lt hlt, Nat.mod_eq_of_lt hlt, fixedDigits_zero]
      rfl
    · have hdiv : n / 10 < 10 ^ (width + 1) := by
        rw [Nat.div_lt_iff_lt_mul (by decide), ← Nat.pow_succ]
        exact h
      have hpad : width + 1 + 1 - (decimal (n / 10) ++ [digit (n % 10)]).length =
          width + 1 - (decimal (n / 10)).length := by
        rw [length_append]
        exact Nat.add_sub_add_right ..
      rw [hpad, ← append_assoc, ih (n / 10) hdiv]

theorem zeroPad_eq {width : Nat} {n : Nat} (h : n < 10 ^ (width + 1)) :
    zeroPad (width + 1) n = fixedDigits (width + 1) n := by
  have hnonneg : ¬ ((n : Int) < 0) := by omega
  unfold zeroPad
  dsimp only
  rw [if_neg hnonneg, nil_append, length_nil, Nat.zero_add, Int.natAbs_natCast]
  exact replicate_decimal width n h

/-- What digits spell. -/
def number : Nat → Text → Nat
  | n, [] => n
  | n, b :: digits => number (n * 10 + (b - byte '0').toNat) digits

theorem number_cons (b : UInt8) (digits : Text) :
    number n (b :: digits) = number (n * 10 + (b - byte '0').toNat) digits := rfl

theorem number_append (digits more : Text) :
    number n (digits ++ more) = number (number n digits) more := by
  induction digits generalizing n with
  | nil => rfl
  | cons b digits ih => exact ih _

theorem number_eq (digits : Text) :
    number n digits = n * 10 ^ digits.length + number 0 digits := by
  induction digits generalizing n with
  | nil => exact (Nat.mul_one n).symm
  | cons b digits ih =>
    unfold number
    rw [ih, ih (0 * 10 + _), length_cons, Nat.pow_succ]
    ring

theorem number_fixedDigits : number 0 (fixedDigits width n) = n % 10 ^ width := by
  induction width generalizing n with
  | zero => exact (Nat.mod_one n).symm
  | succ width ih =>
    unfold fixedDigits
    rw [number_append, ih, Nat.pow_succ, Nat.mul_comm (10 ^ width) 10, Nat.mod_mul]
    unfold number number
    rw [digit_value (Nat.mod_lt n (by decide))]
    omega

theorem number_replicate (n count : Nat) :
    number n (List.replicate count (byte '0')) = n * 10 ^ count := by
  induction count generalizing n with
  | zero => exact (Nat.mul_one n).symm
  | succ count ih =>
    rw [replicate_succ]
    unfold number
    rw [ih, UInt8.sub_self, Nat.pow_succ]
    have hzero : (0 : UInt8).toNat = 0 := rfl
    rw [hzero]
    ring

/-- Bytes that are digits. -/
def AllDigits (digits : Text) : Prop := ∀ b ∈ digits, isAsciiDigit b = true

theorem fixedDigits_allDigits : AllDigits (fixedDigits width n) := by
  induction width generalizing n with
  | zero =>
    intro b hb
    cases hb
  | succ width ih =>
    intro b hb
    rcases mem_append.mp hb with hb | hb
    · exact ih _ b hb
    · rw [mem_singleton.mp hb]
      exact digit_isDigit (Nat.mod_lt n (by decide))

theorem trimmedLength_le (digits : Text) (length : Nat) : trimmedLength digits length ≤ length := by
  induction length with
  | zero => exact Nat.le_refl 0
  | succ length ih =>
    unfold trimmedLength
    split_ifs
    · exact Nat.le_succ_of_le ih
    · exact Nat.le_refl _

/-- What is trimmed is zeros. -/
theorem take_eq_trimmed (digits : Text) (length : Nat) (h : length ≤ digits.length) :
    digits.take length = digits.take (trimmedLength digits length) ++
      List.replicate (length - trimmedLength digits length) (byte '0') := by
  induction length with
  | zero => rfl
  | succ length ih =>
    unfold trimmedLength
    split_ifs with hzero
    · have hlast : digits[length] = byte '0' := by
        unfold byteAt at hzero
        rwa [getD_eq_getElem _ _ (by omega)] at hzero
      have hle := trimmedLength_le digits length
      rw [take_succ_eq_append_getElem (by omega), hlast, ih (by omega), append_assoc,
        Nat.succ_sub hle, ← replicate_succ']
    · rw [Nat.sub_self]
      exact (append_nil _).symm

end Wado.Temporal
