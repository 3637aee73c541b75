/-
Long division in a radix: two-digit divisors, scaled operands and estimates
from the top of a divisor.
-/
import Mathlib.Algebra.Ring.Int.Defs
import Mathlib.Tactic.Ring
import Mathlib.Tactic.Linarith

namespace LongDivision

/-! ## One digit of the quotient -/

section HalfQuotient

variable {B d1 d0 num next q r : Nat}

/-- A remainder below the divisor leaves one digit of quotient. -/
theorem quotient_lt {D : Nat} (hnum : num < D) (hnext : next < B) : (num * B + next) / D < B := by
  apply Nat.div_lt_of_lt_mul
  have hle : (num + 1) * B ≤ D * B := Nat.mul_le_mul_right B hnum
  rw [Nat.add_mul, Nat.one_mul] at hle
  omega

/-- An estimate against the leading digit is too high just when the second
digit's part exceeds what the estimate leaves. -/
theorem lt_mul_iff (h : q * d1 + r = num) :
    num * B + next < q * (d1 * B + d0) ↔ r * B + next < q * d0 := by
  have hnum : num * B = q * d1 * B + r * B := by rw [← h, Nat.add_mul]
  have hq : q * (d1 * B + d0) = q * d1 * B + q * d0 := by rw [Nat.mul_add, Nat.mul_assoc]
  omega

/-- What the estimate leaves past one digit bounds it. -/
theorem mul_le_of_le (h : q * d1 + r = num) (hq : q ≤ B) (hd0 : d0 ≤ B) (hr : B ≤ r) :
    q * (d1 * B + d0) ≤ num * B + next := by
  have hlow : q * d0 ≤ B * B := Nat.mul_le_mul hq hd0
  have hrest : B * B ≤ r * B := Nat.mul_le_mul_right B hr
  have hnot := not_congr (@lt_mul_iff B d1 d0 num next q r h)
  exact Nat.le_of_not_lt (hnot.mpr (by omega))

/-- Over a divisor with a leading digit of at least half the radix the first
estimate is at most one past the radix. -/
theorem first_estimate_le (hnum : num < d1 * B + d0) (hd0 : d0 < B) (hd1 : B ≤ 2 * d1) :
    num / d1 ≤ B + 1 := by
  have hpos : 0 < d1 := by omega
  have hlt : num < d1 * (B + 2) := by
    rw [Nat.mul_add]
    omega
  exact Nat.le_of_lt_succ (Nat.div_lt_of_lt_mul hlt)

/-- The leading digits alone never estimate too low. -/
theorem div_le_first_estimate (hd1 : 0 < d1) (hnext : next < B) :
    (num * B + next) / (d1 * B + d0) ≤ num / d1 := by
  rw [← Nat.lt_add_one_iff]
  apply Nat.div_lt_of_lt_mul
  have hnum : num + 1 ≤ d1 * (num / d1 + 1) := Nat.lt_mul_div_succ num hd1
  have hscaled : (num + 1) * B ≤ d1 * (num / d1 + 1) * B := Nat.mul_le_mul_right B hnum
  have hdrop : d1 * (num / d1 + 1) * B ≤ (d1 * B + d0) * (num / d1 + 1) := by
    rw [Nat.add_mul, Nat.mul_right_comm]
    exact Nat.le_add_right _ _
  rw [Nat.add_mul, Nat.one_mul] at hscaled
  omega

/-- The quotient is the estimate that is not too high and whose successor is. -/
theorem eq_div_of_bounds {N D : Nat} (hle : q * D ≤ N) (hlt : N < (q + 1) * D) : q = N / D := by
  have hD : 0 < D := by
    rcases Nat.eq_zero_or_pos D with rfl | h
    · simp at hlt
    · exact h
  symm
  rw [Nat.div_eq_iff hD]
  rw [Nat.add_mul, Nat.one_mul] at hlt
  omega

end HalfQuotient

/-! ## Two digits, and scaled operands -/

theorem div_two_digits (x y B D : Nat) (hD : 0 < D) :
    (x * B + y) / D = x / D * B + (x % D * B + y) / D := by
  have hx : x * B + y = (x % D * B + y) + D * (x / D * B) := by
    conv_lhs => rw [← Nat.div_add_mod x D]
    ring
  rw [hx, Nat.add_mul_div_left _ _ hD, Nat.add_comm]

theorem mod_two_digits (x y B D : Nat) : (x * B + y) % D = (x % D * B + y) % D := by
  have hx : x * B + y = (x % D * B + y) + D * (x / D * B) := by
    conv_lhs => rw [← Nat.div_add_mod x D]
    ring
  rw [hx, Nat.add_mul_mod_self_left]

theorem sub_div_mul (N D : Nat) : N - N / D * D = N % D := by
  rw [Nat.mul_comm]
  have h := Nat.div_add_mod N D
  omega

/-! ## An estimate from the top of the divisor -/

section Estimate

variable {N M V W e : Nat}

theorem div_le_estimate (hV : V = W + e) (hW : 0 < W) : N < (N / W + 1) * V := by
  have hlt : N < W * (N / W + 1) := Nat.lt_mul_div_succ N hW
  have hle : W * (N / W + 1) ≤ V * (N / W + 1) := Nat.mul_le_mul_right _ (by omega)
  rw [Nat.mul_comm]
  omega

/-- The estimate from a divisor's top is at most one too high, when the part cut
off is small beside the square of the top. -/
theorem estimate_pred_mul_le (hV : V = W + e) (hW : 0 < W) (hN : N < M) (he : e * M ≤ W * W) :
    (N / W - 1) * V ≤ N := by
  have hq : N / W * W ≤ N := Nat.div_mul_le_self N W
  rcases Nat.eq_zero_or_pos (N / W) with hzero | hpos
  · rw [hzero]
    simp
  · obtain ⟨p, hp⟩ : ∃ p, N / W = p + 1 := ⟨N / W - 1, by omega⟩
    rw [hp] at hq ⊢
    rw [Nat.add_sub_cancel]
    have hcut : p * e ≤ W := by
      apply Nat.le_of_mul_le_mul_right _ hW
      calc p * e * W = p * W * e := by ring
        _ ≤ M * e := Nat.mul_le_mul_right e (by rw [Nat.add_mul] at hq; omega)
        _ ≤ W * W := by rw [Nat.mul_comm]; exact he
    rw [hV, Nat.mul_add]
    rw [Nat.add_mul] at hq
    omega

/-- Cutting a divisor to its top half loses little beside the square. -/
theorem cut_small {A t : Nat} (he : e < t) (hA : A * t ≤ W) (hAA : 4 * (A * A) = M) (ht : 1 ≤ t) :
    e * M ≤ W * W := by
  have hsquare : A * t * (A * t) ≤ W * W := Nat.mul_le_mul hA hA
  have hfour : 4 * e ≤ t * t := by
    have hle : 4 * (t - 1) ≤ t * t := by
      obtain ⟨s, rfl⟩ : ∃ s, t = s + 1 := ⟨t - 1, by omega⟩
      rw [Nat.add_sub_cancel]
      nlinarith [sq_nonneg ((s : Int) - 1)]
    omega
  calc e * M = A * A * (4 * e) := by rw [← hAA]; ring
    _ ≤ A * A * (t * t) := Nat.mul_le_mul_left _ hfour
    _ = A * t * (A * t) := by ring
    _ ≤ W * W := hsquare

end Estimate

end LongDivision
