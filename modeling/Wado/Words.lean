/-
Fields of bits put side by side in a number and taken out again.
-/
import Mathlib.Algebra.Ring.Int.Defs
import Mathlib.Data.Nat.Bitwise

namespace BitFields

/-- A field shifted over a field that fits below it. -/
theorem shiftLeft_or (a : Nat) {b i : Nat} (h : b < 2 ^ i) : a <<< i ||| b = a * 2 ^ i + b := by
  rw [← Nat.shiftLeft_add_eq_or_of_lt h, Nat.shiftLeft_eq]

/-- A field is left of a mask that cuts its upper bits. -/
theorem shiftLeft_mod (a i j : Nat) : (a <<< i) % 2 ^ (i + j) = a % 2 ^ j * 2 ^ i := by
  rw [Nat.shiftLeft_eq, Nat.pow_add, Nat.mul_comm (2 ^ i), Nat.mul_mod_mul_right]

/-- The mask cuts the upper field only. -/
theorem shiftLeft_or_mod (a : Nat) {b i : Nat} (j : Nat) (h : b < 2 ^ i) :
    (a <<< i ||| b) % 2 ^ (i + j) = a % 2 ^ j * 2 ^ i + b := by
  rw [Nat.or_mod_two_pow, shiftLeft_mod]
  have hb : b % 2 ^ (i + j) = b :=
    Nat.mod_eq_of_lt (Nat.lt_of_lt_of_le h (Nat.pow_le_pow_right (by decide) (by omega)))
  rw [hb, ← Nat.shiftLeft_eq, shiftLeft_or _ h, Nat.shiftLeft_eq]

end BitFields

/-
Machine words of 64 bits as the numbers they hold.
-/

namespace Words

open BitFields

/-! ## Shifts -/

variable {x s : UInt64}

theorem toNat_shiftLeft (hs : s.toNat < 64) :
    (x <<< s).toNat = x.toNat * 2 ^ s.toNat % 2 ^ 64 := by
  rw [UInt64.toNat_shiftLeft, Nat.mod_eq_of_lt hs, Nat.shiftLeft_eq]

theorem toNat_shiftLeft_of_lt (hs : s.toNat < 64)
    (hfits : x.toNat * 2 ^ s.toNat < 2 ^ 64) : (x <<< s).toNat = x.toNat * 2 ^ s.toNat := by
  rw [toNat_shiftLeft hs, Nat.mod_eq_of_lt hfits]

theorem toNat_shiftRight (hs : s.toNat < 64) :
    (x >>> s).toNat = x.toNat / 2 ^ s.toNat := by
  rw [UInt64.toNat_shiftRight, Nat.mod_eq_of_lt hs, Nat.shiftRight_eq_div_pow]

/-- Two words joined when the one has only zeros where the other has bits. -/
theorem toNat_or {a b : UInt64} {k i : Nat} (ha : a.toNat = k * 2 ^ i) (hb : b.toNat < 2 ^ i) :
    (a ||| b).toNat = k * 2 ^ i + b.toNat := by
  rw [UInt64.toNat_or, ha, ← Nat.shiftLeft_eq, shiftLeft_or k hb, Nat.shiftLeft_eq]

/-- A mask of low bits. -/
theorem toNat_and_mask {a mask : UInt64} {i : Nat} (hmask : mask.toNat = 2 ^ i - 1) :
    (a &&& mask).toNat = a.toNat % 2 ^ i := by
  rw [UInt64.toNat_and, hmask, Nat.and_two_pow_sub_one_eq_mod]

theorem toNat_or_one (a : UInt64) : (a ||| 1).toNat = a.toNat / 2 * 2 + 1 := by
  have hone : (1 : UInt64).toNat = 1 := rfl
  have hbits := @shiftLeft_or (a.toNat / 2) 1 1 (by decide)
  rw [Nat.pow_one] at hbits
  rw [UInt64.toNat_or, hone, ← hbits]
  rcases Nat.mod_two_eq_zero_or_one a.toNat with heven | hodd
  · have hshift : (a.toNat / 2) <<< 1 = a.toNat := by
      rw [Nat.shiftLeft_eq]
      omega
    rw [hshift]
  · have ha : (a.toNat / 2) <<< 1 ||| 1 = a.toNat := by omega
    conv_lhs => rw [← ha]
    rw [Nat.or_assoc, Nat.or_self]

theorem and_bit_ne_zero (a bit : UInt64) {i : Nat} (hbit : bit.toNat = 2 ^ i) :
    a &&& bit ≠ 0 ↔ a.toNat / 2 ^ i % 2 = 1 := by
  have hzero : a &&& bit = 0 ↔ (a &&& bit).toNat = 0 := by
    rw [← UInt64.toNat_inj]
    rfl
  have hpos : 2 ^ i ≠ 0 := Nat.ne_of_gt (Nat.two_pow_pos i)
  rw [ne_eq, hzero, UInt64.toNat_and, hbit, Nat.and_two_pow, Nat.testBit_eq_decide_div_mod_eq]
  by_cases h : a.toNat / 2 ^ i % 2 = 1
  · simp [h]
  · simp [h]

/-! ## Arithmetic that wraps -/

variable {x y : UInt64} {X Y : Nat}

theorem toNat_add_mod (hx : x.toNat = X % 2 ^ 64)
    (hy : y.toNat = Y % 2 ^ 64) : (x + y).toNat = (X + Y) % 2 ^ 64 := by
  rw [UInt64.toNat_add, hx, hy, ← Nat.add_mod]

theorem toNat_mul_mod (hx : x.toNat = X % 2 ^ 64)
    (hy : y.toNat = Y % 2 ^ 64) : (x * y).toNat = X * Y % 2 ^ 64 := by
  rw [UInt64.toNat_mul, hx, hy, ← Nat.mul_mod]

theorem toNat_mod (x : UInt64) : x.toNat = x.toNat % 2 ^ 64 :=
  (Nat.mod_eq_of_lt x.toNat_lt).symm

/-- A difference of numbers past the word is exact when it fits the word. -/
theorem toNat_sub_exact (hx : x.toNat = X % 2 ^ 64)
    (hy : y.toNat = Y % 2 ^ 64) (hle : Y ≤ X) (hfits : X - Y < 2 ^ 64) :
    (x - y).toNat = X - Y := by
  rw [UInt64.toNat_sub, hx, hy]
  omega

theorem toNat_sub_of_le (h : y.toNat ≤ x.toNat) :
    (x - y).toNat = x.toNat - y.toNat :=
  toNat_sub_exact (toNat_mod x) (toNat_mod y) h (Nat.lt_of_le_of_lt (Nat.sub_le _ _) x.toNat_lt)

theorem toNat_add_of_lt (h : x.toNat + y.toNat < 2 ^ 64) :
    (x + y).toNat = x.toNat + y.toNat := by
  rw [UInt64.toNat_add, Nat.mod_eq_of_lt h]

theorem toNat_mul_of_lt (h : x.toNat * y.toNat < 2 ^ 64) :
    (x * y).toNat = x.toNat * y.toNat := by
  rw [UInt64.toNat_mul, Nat.mod_eq_of_lt h]

theorem toNat_ofNat_of_lt {n : Nat} (h : n < 2 ^ 64) : (UInt64.ofNat n).toNat = n := by
  rw [UInt64.toNat_ofNat', Nat.mod_eq_of_lt h]

theorem toNat_ofInt {i : Int} {n : Nat} (hi : i = n) (hn : n < 2 ^ 64) :
    (UInt64.ofInt i).toNat = n := by
  have hmod : (i % 2 ^ 64).toNat = n := by omega
  rw [UInt64.ofInt, hmod]
  exact toNat_ofNat_of_lt hn

variable {x : UInt64}

theorem pos_of_ne_zero (h : x ≠ 0) : 0 < x.toNat := by
  rcases Nat.eq_zero_or_pos x.toNat with hzero | hpos
  · exact absurd (UInt64.toNat_inj.mp hzero) h
  · exact hpos

theorem ne_zero_of_pos (h : 0 < x.toNat) : x ≠ 0 := by
  intro hzero
  rw [hzero] at h
  exact absurd h (by decide)

/-- The mask of the bits below a position. -/
theorem toNat_mask {t : UInt64} (ht : t.toNat < 64) :
    ((1 : UInt64) <<< t - 1).toNat = 2 ^ t.toNat - 1 := by
  have hone : (1 : UInt64).toNat = 1 := rfl
  have hpow : 2 ^ t.toNat < 2 ^ 64 := Nat.pow_lt_pow_right (by decide) ht
  have hpos : 0 < 2 ^ t.toNat := Nat.two_pow_pos _
  have hshift : ((1 : UInt64) <<< t).toNat = 2 ^ t.toNat := by
    rw [toNat_shiftLeft_of_lt ht (by rw [hone]; omega), hone, Nat.one_mul]
  rw [toNat_sub_of_le (by rw [hshift, hone]; exact hpos), hshift, hone]

/-! ## Leading zeros -/

/-- The number of zero bits above the highest bit set. -/
def clz (x : UInt64) : UInt64 :=
  UInt64.ofNat (if x = 0 then 64 else 63 - x.toNat.log2)

theorem log2_lt (hx : x ≠ 0) : x.toNat.log2 < 64 :=
  (Nat.log2_lt (Nat.ne_of_gt (pos_of_ne_zero hx))).mpr x.toNat_lt

theorem toNat_clz (hx : x ≠ 0) : (clz x).toNat = 63 - x.toNat.log2 := by
  rw [clz, if_neg hx]
  exact toNat_ofNat_of_lt (by omega)

/-- Shifting a word by its leading zeros brings its highest bit to the top. -/
theorem clz_spec (hx : x ≠ 0) :
    (clz x).toNat < 64 ∧ 2 ^ 63 ≤ x.toNat * 2 ^ (clz x).toNat ∧
      x.toNat * 2 ^ (clz x).toNat < 2 ^ 64 := by
  have hpos := pos_of_ne_zero hx
  have hlog := log2_lt hx
  have hclz := toNat_clz hx
  have hsplit : 2 ^ 63 = 2 ^ x.toNat.log2 * 2 ^ (63 - x.toNat.log2) := by
    rw [← Nat.pow_add]
    congr 1
    omega
  have hlow : 2 ^ x.toNat.log2 ≤ x.toNat := Nat.log2_self_le (by omega)
  have hhigh : x.toNat < 2 ^ (x.toNat.log2 + 1) := Nat.lt_log2_self
  rw [hclz]
  refine ⟨by omega, ?_, ?_⟩
  · rw [hsplit]
    exact Nat.mul_le_mul_right _ hlow
  · have hdouble : 2 ^ 64 = 2 ^ (x.toNat.log2 + 1) * 2 ^ (63 - x.toNat.log2) := by
      rw [@Nat.pow_succ 2 x.toNat.log2, Nat.mul_right_comm, ← hsplit]
      exact @Nat.pow_succ 2 63
    rw [hdouble]
    exact Nat.mul_lt_mul_of_pos_right hhigh (Nat.two_pow_pos _)

end Words
