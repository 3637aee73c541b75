/-
Numbers as big-endian byte strings.
-/
import Mathlib.Data.List.Basic
import Mathlib.Tactic.Ring

namespace BigEndian

open List

/-- The number that the bytes spell, the first the most significant. -/
def value (bytes : List UInt8) : Nat :=
  bytes.foldl (fun v b => v * 256 + b.toNat) 0

/-- The low `n` bytes of a number. -/
def digits (v : Nat) : Nat → List UInt8
  | 0 => []
  | n + 1 => UInt8.ofNat (v / 256 ^ n) :: digits v n

theorem foldl_eq (v : Nat) (bytes : List UInt8) :
    bytes.foldl (fun v b => v * 256 + b.toNat) v = v * 256 ^ bytes.length + value bytes := by
  unfold value
  induction bytes generalizing v with
  | nil => simp
  | cons b bytes ih =>
    rw [foldl_cons, foldl_cons, ih, ih (0 * 256 + b.toNat), length_cons]
    ring

@[simp] theorem value_nil : value [] = 0 := rfl

theorem value_cons (b : UInt8) (bytes : List UInt8) :
    value (b :: bytes) = b.toNat * 256 ^ bytes.length + value bytes := by
  show bytes.foldl _ (0 * 256 + b.toNat) = _
  rw [foldl_eq]
  ring

theorem value_append (xs ys : List UInt8) :
    value (xs ++ ys) = value xs * 256 ^ ys.length + value ys := by
  unfold value
  rw [foldl_append]
  exact foldl_eq _ _

theorem value_lt (bytes : List UInt8) : value bytes < 256 ^ bytes.length := by
  induction bytes with
  | nil => simp
  | cons b bytes ih =>
    have hb : b.toNat + 1 ≤ 256 := b.toNat_lt
    have hle := Nat.mul_le_mul_right (256 ^ bytes.length) hb
    rw [value_cons, length_cons, Nat.pow_succ, Nat.mul_comm _ 256]
    rw [Nat.add_mul, Nat.one_mul] at hle
    omega

@[simp] theorem length_digits (v n : Nat) : (digits v n).length = n := by
  induction n with
  | zero => rfl
  | succ n ih => rw [digits, length_cons, ih]

theorem value_digits (v n : Nat) : value (digits v n) = v % 256 ^ n := by
  induction n with
  | zero => simp [digits, Nat.mod_one]
  | succ n ih =>
    have hsplit : v % 256 ^ (n + 1) = v % 256 ^ n + 256 ^ n * (v / 256 ^ n % 256) := by
      rw [Nat.pow_succ, Nat.mod_mul]
    rw [digits, value_cons, length_digits, ih, UInt8.toNat_ofNat', hsplit, Nat.add_comm,
      Nat.mul_comm]

theorem value_digits_of_lt {v n : Nat} (h : v < 256 ^ n) : value (digits v n) = v := by
  rw [value_digits, Nat.mod_eq_of_lt h]

end BigEndian
