/-
Rounding an exact quotient to an integer, and reading what it rounds to off the quotient
and the remainder of the division.
-/
import Wado.FloatFormat
import Mathlib.Data.Int.Log
import Mathlib.Data.Rat.Floor
import Mathlib.Tactic.FieldSimp
import Mathlib.Tactic.NormNum

namespace Wado

namespace StepRounding

/-- The nearest integer, the upper one where two are nearest. -/
def halfUp (x : ℚ) : ℤ := ⌊x + 1 / 2⌋

/-- The nearest integer, the lower one where two are nearest. -/
def halfDown (x : ℚ) : ℤ := ⌈x - 1 / 2⌉

/-- The nearest integer, the even one where two are nearest. -/
def halfEven (x : ℚ) : ℤ := if 2 ∣ halfUp x then halfUp x else halfDown x

section Integers

theorem halfUp_intCast (q : ℤ) : halfUp q = q := by
  apply Int.floor_eq_iff.mpr
  constructor <;> linarith

theorem halfDown_intCast (q : ℤ) : halfDown q = q := by
  apply Int.ceil_eq_iff.mpr
  constructor <;> linarith

theorem halfEven_intCast (q : ℤ) : halfEven q = q := by
  unfold halfEven
  rw [halfUp_intCast, halfDown_intCast, ite_self]

end Integers

section Negation

variable (x : ℚ)

theorem halfUp_neg : halfUp (-x) = -halfDown x := by
  unfold halfUp halfDown
  rw [← Int.floor_neg]
  congr 1
  ring

theorem halfDown_neg : halfDown (-x) = -halfUp x := by
  unfold halfUp halfDown
  rw [← Int.ceil_neg]
  congr 1
  ring

/-- The two nearest integers of a tie are neighbours; elsewhere they are one. -/
theorem halfUp_cases : halfUp x = halfDown x ∨ halfUp x = halfDown x + 1 := by
  have hup : (halfUp x : ℚ) ≤ x + 1 / 2 ∧ x + 1 / 2 < halfUp x + 1 := Int.floor_eq_iff.mp rfl
  have hdown : (halfDown x : ℚ) - 1 < x - 1 / 2 ∧ x - 1 / 2 ≤ halfDown x :=
    Int.ceil_eq_iff.mp rfl
  have hle : halfDown x < halfUp x + 1 := by
    have hlt : (halfDown x : ℚ) < (halfUp x : ℚ) + 1 := by linarith
    exact_mod_cast hlt
  have hge : halfUp x < halfDown x + 2 := by
    have hlt : (halfUp x : ℚ) < (halfDown x : ℚ) + 2 := by linarith
    exact_mod_cast hlt
  omega

theorem halfEven_neg : halfEven (-x) = -halfEven x := by
  have hcases := halfUp_cases x
  unfold halfEven
  rw [halfUp_neg, halfDown_neg]
  split_ifs <;> omega

end Negation

/-- `n` lies strictly between the multiples `q` and `q + 1` of a step, `r` past the lower. -/
structure Between (n q r step : ℤ) : Prop where
  eq : n = q * step + r
  pos : 0 < r
  lt : r < step

namespace Between

variable {n q r step : ℤ}

section

variable (h : Between n q r step)
include h

theorem step_pos : (0 : ℚ) < step := by
  exact_mod_cast h.pos.trans h.lt

theorem quotient_eq : (n : ℚ) / step = q + (r : ℚ) / step := by
  have hstep := h.step_pos
  have heq : (n : ℚ) = q * step + r := by exact_mod_cast h.eq
  rw [heq]
  field_simp

theorem fraction_pos : 0 < (r : ℚ) / step := by
  have hr : (0 : ℚ) < r := by exact_mod_cast h.pos
  exact div_pos hr h.step_pos

theorem fraction_lt : (r : ℚ) / step < 1 := by
  rw [div_lt_one h.step_pos]
  exact_mod_cast h.lt

theorem floor_eq : ⌊(n : ℚ) / step⌋ = q := by
  have hpos := h.fraction_pos
  have hlt := h.fraction_lt
  rw [h.quotient_eq]
  apply Int.floor_eq_iff.mpr
  constructor <;> linarith

theorem ceil_eq : ⌈(n : ℚ) / step⌉ = q + 1 := by
  have hpos := h.fraction_pos
  have hlt := h.fraction_lt
  rw [h.quotient_eq]
  apply Int.ceil_eq_iff.mpr
  push_cast
  constructor <;> linarith

theorem half_le_iff : 1 / 2 ≤ (r : ℚ) / step ↔ step - r ≤ r := by
  rw [le_div_iff₀ h.step_pos]
  constructor
  · intro hle
    have hle : (step : ℚ) ≤ r + r := by linarith
    have hle : step ≤ r + r := by exact_mod_cast hle
    omega
  · intro hle
    have hle : step ≤ r + r := by omega
    have hle : (step : ℚ) ≤ r + r := by exact_mod_cast hle
    linarith

theorem half_lt_iff : 1 / 2 < (r : ℚ) / step ↔ step - r < r := by
  rw [lt_div_iff₀ h.step_pos]
  constructor
  · intro hlt
    have hlt : (step : ℚ) < r + r := by linarith
    have hlt : step < r + r := by exact_mod_cast hlt
    omega
  · intro hlt
    have hlt : step < r + r := by omega
    have hlt : (step : ℚ) < r + r := by exact_mod_cast hlt
    linarith

theorem halfUp_eq :
    halfUp ((n : ℚ) / step) = if step - r ≤ r then q + 1 else q := by
  have hpos := h.fraction_pos
  have hlt := h.fraction_lt
  have hhalf := h.half_le_iff
  unfold halfUp
  rw [h.quotient_eq]
  apply Int.floor_eq_iff.mpr
  by_cases hle : step - r ≤ r
  · rw [if_pos hle]
    have hhalf := hhalf.mpr hle
    push_cast
    constructor <;> linarith
  · rw [if_neg hle]
    have hhalf := not_le.mp fun hhalf' => hle (hhalf.mp hhalf')
    constructor <;> linarith

theorem halfDown_eq :
    halfDown ((n : ℚ) / step) = if step - r < r then q + 1 else q := by
  have hpos := h.fraction_pos
  have hlt := h.fraction_lt
  have hhalf := h.half_lt_iff
  unfold halfDown
  rw [h.quotient_eq]
  apply Int.ceil_eq_iff.mpr
  by_cases hhigh : step - r < r
  · rw [if_pos hhigh]
    have hhalf := hhalf.mpr hhigh
    push_cast
    constructor <;> linarith
  · rw [if_neg hhigh]
    have hhalf := not_lt.mp fun hhalf' => hhigh (hhalf.mp hhalf')
    constructor <;> linarith

/-- A tie goes up where the lower multiple is odd. -/
theorem halfEven_eq : halfEven ((n : ℚ) / step) =
      if step - r < r ∨ step - r = r ∧ q % 2 = 1 then q + 1 else q := by
  unfold halfEven
  rw [h.halfUp_eq, h.halfDown_eq]
  split_ifs <;> omega

end

end Between

end StepRounding

end Wado

/-
Rounding of rationals to the numbers of a floating-point format, by the place of the
leading bit.
-/

namespace FloatFormat

open Wado.StepRounding

variable (fmt : FloatFormat)

/-- The exponent of the last place of a number, the least one for a number below its binade. -/
def lastPlace (x : Rat) : Int := max (Int.log 2 |x| - (fmt.precision - 1)) (fmt.place 1)

/-- Rounding to nearest, ties to even, of a number short of overflow. -/
def roundRat (x : Rat) : Rat := halfEven (x / 2 ^ fmt.lastPlace x) * 2 ^ fmt.lastPlace x

/-- The number of the format closest to another, with an even significand when two are. -/
structure NearestTo (x y : Rat) : Prop where
  representable : fmt.Representable y
  closest : ∀ z, fmt.Representable z → |y - x| ≤ |z - x|
  even : ∀ z, fmt.Representable z → z ≠ y → |z - x| = |y - x| →
    ∃ m e : Int, y = m * 2 ^ e ∧ (fmt.binade ≤ |m| ∧ |m| ≤ 2 * fmt.binade) ∧ 2 ∣ m

section HalfEven

/-- The integer is within a half, and even when it is a half away. -/
theorem halfEven_close (x : Rat) :
    2 * |(halfEven x : Rat) - x| ≤ 1 ∧ (2 * |(halfEven x : Rat) - x| = 1 → 2 ∣ halfEven x) := by
  have hup : (halfUp x : Rat) ≤ x + 1 / 2 ∧ x + 1 / 2 < halfUp x + 1 := Int.floor_eq_iff.mp rfl
  have hdown : (halfDown x : Rat) - 1 < x - 1 / 2 ∧ x - 1 / 2 ≤ halfDown x :=
    Int.ceil_eq_iff.mp rfl
  unfold halfEven
  by_cases heven : 2 ∣ halfUp x
  · rw [if_pos heven]
    refine ⟨?_, fun _ => heven⟩
    have habs : |(halfUp x : Rat) - x| ≤ 1 / 2 := abs_le.mpr ⟨by linarith, by linarith⟩
    linarith
  · rw [if_neg heven]
    have habs : |(halfDown x : Rat) - x| ≤ 1 / 2 := abs_le.mpr ⟨by linarith, by linarith⟩
    refine ⟨by linarith, ?_⟩
    intro htie
    rcases halfUp_cases x with heq | heq
    · -- one nearest integer is less than a half away, but for the upper end of its range
      have hle : (halfDown x : Rat) ≤ x + 1 / 2 := by rw [← heq]; exact hup.1
      have hlt : x - 1 / 2 < (halfDown x : Rat) := by rw [← heq]; linarith
      rcases abs_cases ((halfDown x : Rat) - x) with ⟨habs', _⟩ | ⟨habs', _⟩
      · rw [habs'] at htie
        have hhalf : (halfDown x : Rat) = x + 1 / 2 := by linarith
        linarith
      · rw [habs'] at htie
        linarith
    · omega

end HalfEven

section Places

variable {x : Rat} {k : Int}

theorem binade_eq_zpow : (fmt.binade : Rat) = 2 ^ ((fmt.precision : Int) - 1) := by
  have hp := fmt.two_le_precision
  have hexp : (fmt.precision : Int) - 1 = ((fmt.precision - 1 : Nat) : Int) := by omega
  rw [hexp, zpow_natCast, binade]
  push_cast
  rfl

/-- The last place of a number by the binade it is in. -/
theorem lastPlace_eq (hlow : fmt.binade * 2 ^ k ≤ |x|) (hhigh : |x| < 2 * fmt.binade * 2 ^ k)
    (hk : fmt.place 1 ≤ k) : fmt.lastPlace x = k := by
  have hpow : (0 : Rat) < fmt.binade * 2 ^ k := by
    have hbinade : (0 : Rat) < fmt.binade := by exact_mod_cast fmt.binade_pos
    positivity
  have hx : 0 < |x| := lt_of_lt_of_le hpow hlow
  have hlog : Int.log 2 |x| = fmt.precision - 1 + k := by
    apply le_antisymm
    · have hlt : Int.log 2 |x| < fmt.precision + k := by
        apply (Int.lt_zpow_iff_log_lt (by norm_num) hx).mp
        push_cast
        rw [zpow_add₀ (by norm_num)]
        have htwo : (2 : Rat) * fmt.binade = 2 ^ (fmt.precision : Int) := by
          rw [zpow_natCast]
          exact_mod_cast fmt.two_mul_binade
        rw [← htwo]
        exact hhigh
      omega
    · apply (Int.zpow_le_iff_le_log (by norm_num) hx).mp
      push_cast
      rw [zpow_add₀ (by norm_num), ← binade_eq_zpow]
      exact hlow
  unfold lastPlace
  omega

/-- A number below the binade of a place has no later last place. -/
theorem lastPlace_le (hhigh : |x| < 2 * fmt.binade * 2 ^ k) (hk : fmt.place 1 ≤ k)
    (hx : x ≠ 0) : fmt.lastPlace x ≤ k := by
  have hx : 0 < |x| := abs_pos.mpr hx
  have hlt : Int.log 2 |x| < fmt.precision + k := by
    apply (Int.lt_zpow_iff_log_lt (by norm_num) hx).mp
    push_cast
    rw [zpow_add₀ (by norm_num)]
    have htwo : (2 : Rat) * fmt.binade = 2 ^ (fmt.precision : Int) := by
      rw [zpow_natCast]
      exact_mod_cast fmt.two_mul_binade
    rw [← htwo]
    exact hhigh
  unfold lastPlace
  omega

theorem roundRat_zero : fmt.roundRat 0 = 0 := by
  unfold roundRat
  rw [zero_div]
  have hzero := halfEven_intCast 0
  rw [Int.cast_zero] at hzero
  rw [hzero, Int.cast_zero, zero_mul]

theorem roundRat_neg (x : Rat) : fmt.roundRat (-x) = -fmt.roundRat x := by
  have hplace : fmt.lastPlace (-x) = fmt.lastPlace x := by
    unfold lastPlace
    rw [abs_neg]
  unfold roundRat
  rw [hplace, neg_div, halfEven_neg]
  push_cast
  ring

/-- A number of the format rounds to itself. -/
theorem roundRat_multiple {q : Int} (hx : x = q * 2 ^ k) (hq : |q| < 2 * fmt.binade)
    (hk : fmt.place 1 ≤ k) : fmt.roundRat x = x := by
  by_cases hzero : x = 0
  · rw [hzero, roundRat_zero]
  have hpow : (0 : Rat) < 2 ^ k := by positivity
  have hhigh : |x| < 2 * fmt.binade * 2 ^ k := by
    rw [hx, abs_mul, abs_of_pos hpow]
    apply mul_lt_mul_of_pos_right _ hpow
    exact_mod_cast hq
  have hle := fmt.lastPlace_le hhigh hk hzero
  have hmultiple : x / 2 ^ fmt.lastPlace x = (q * 2 ^ (k - fmt.lastPlace x).toNat : Int) := by
    have hsplit : k = ((k - fmt.lastPlace x).toNat : Int) + fmt.lastPlace x := by omega
    generalize fmt.lastPlace x = e at *
    rw [hx]
    conv_lhs => rw [hsplit, zpow_add₀ (by norm_num), zpow_natCast]
    push_cast
    rw [← mul_assoc]
    exact mul_div_cancel_right₀ _ (by positivity)
  unfold roundRat
  rw [hmultiple, halfEven_intCast, ← hmultiple]
  exact div_mul_cancel₀ x (by positivity)

end Places

section Nearest

variable {x : Rat} {k : Int}

/-- In its binade a positive number rounds to the nearest number of the format. -/
theorem roundRat_nearest_pos (hlow : fmt.binade * 2 ^ k ≤ x) (hhigh : x < 2 * fmt.binade * 2 ^ k)
    (hk : fmt.place 1 ≤ k) (hk' : k < fmt.place (2 * fmt.bias)) :
    fmt.NearestTo x (fmt.roundRat x) := by
  have hpow : (0 : Rat) < 2 ^ k := by positivity
  have hbinade : (0 : Rat) < fmt.binade := by exact_mod_cast fmt.binade_pos
  have hx : 0 < x := lt_of_lt_of_le (by positivity) hlow
  have hplace : fmt.lastPlace x = k := by
    apply fmt.lastPlace_eq _ _ hk <;> rw [abs_of_pos hx]
    · exact hlow
    · exact hhigh
  obtain ⟨hclose, heven⟩ := halfEven_close (x / 2 ^ k)
  unfold roundRat
  rw [hplace]
  generalize hq : halfEven (x / 2 ^ k) = q at *
  have hscale : 2 * |(q : Rat) * 2 ^ k - x| = 2 * |(q : Rat) - x / 2 ^ k| * 2 ^ k := by
    have hmul : (q : Rat) * 2 ^ k - x = (q - x / 2 ^ k) * 2 ^ k := by
      rw [sub_mul, div_mul_cancel₀ x hpow.ne']
    rw [hmul, abs_mul, abs_of_pos hpow, mul_assoc]
  have hclose' : 2 * |(q : Rat) * 2 ^ k - x| ≤ 2 ^ k := by
    rw [hscale]
    exact mul_le_of_le_one_left hpow.le hclose
  have hbounds : fmt.binade ≤ q ∧ q ≤ 2 * fmt.binade := by
    have hlow' : (fmt.binade : Rat) ≤ x / 2 ^ k := (le_div_iff₀ hpow).mpr hlow
    have hhigh' : x / 2 ^ k < 2 * fmt.binade := (div_lt_iff₀ hpow).mpr hhigh
    have habs := abs_le.mp (by linarith : |(q : Rat) - x / 2 ^ k| ≤ 1 / 2)
    constructor
    · have hlt : (fmt.binade : Rat) < q + 1 := by linarith
      have hlt : (fmt.binade : Int) < q + 1 := by exact_mod_cast hlt
      omega
    · have hlt : (q : Rat) < 2 * fmt.binade + 1 := by linarith
      have hlt : q < 2 * fmt.binade + 1 := by exact_mod_cast hlt
      omega
  have hpositive : 0 ≤ q := by omega
  have habs : |q| = q := abs_of_nonneg hpositive
  refine ⟨?_, fun z hz => (fmt.grid_closest hlow hclose' hz).1, ?_⟩
  · have htwo : (2 : Int) ^ fmt.precision = 2 * fmt.binade := by
      exact_mod_cast fmt.two_mul_binade.symm
    rcases lt_or_eq_of_le hbounds.2 with hlt | heq
    · exact ⟨q, k, by omega, hk, hk'.le, rfl⟩
    · refine ⟨fmt.binade, k + 1, ?_, by omega, by omega, ?_⟩
      · rw [htwo, abs_of_nonneg (Int.natCast_nonneg _)]
        have hpos := fmt.binade_pos
        omega
      · rw [heq, zpow_add₀ (by norm_num), zpow_one]
        push_cast
        ring
  · intro z hz hne heq
    have htie := (fmt.grid_closest hlow hclose' hz).2 hne heq
    rw [hscale] at htie
    refine ⟨q, k, rfl, by rw [habs]; exact hbounds, heven ?_⟩
    exact mul_right_cancel₀ hpow.ne' (by rw [htie, one_mul])

theorem Representable.neg {fmt : FloatFormat} {y : Rat} (h : fmt.Representable y) :
    fmt.Representable (-y) := by
  obtain ⟨m, e, hm, hlow, hhigh, rfl⟩ := h
  refine ⟨-m, e, by rw [abs_neg]; exact hm, hlow, hhigh, ?_⟩
  push_cast
  ring

theorem NearestTo.neg {fmt : FloatFormat} {x y : Rat} (h : fmt.NearestTo x y) :
    fmt.NearestTo (-x) (-y) := by
  have hmirror : ∀ z w : Rat, |-z - -w| = |z - w| := by
    intro z w
    rw [← abs_neg]
    congr 1
    ring
  refine ⟨h.representable.neg, ?_, ?_⟩
  · intro z hz
    have hclosest := h.closest (-z) hz.neg
    rw [hmirror, ← neg_neg z, hmirror]
    exact hclosest
  · intro z hz hne heq
    rw [hmirror, ← neg_neg z, hmirror] at heq
    obtain ⟨m, e, hm, hbounds, heven⟩ := h.even (-z) hz.neg (fun h => hne (neg_eq_iff_eq_neg.mp h))
      heq
    refine ⟨-m, e, ?_, by rw [abs_neg]; exact hbounds, (Int.dvd_neg).mpr heven⟩
    rw [hm]
    push_cast
    ring

/-- In its binade a number rounds to the nearest number of the format. -/
theorem roundRat_nearest (hlow : fmt.binade * 2 ^ k ≤ |x|) (hhigh : |x| < 2 * fmt.binade * 2 ^ k)
    (hk : fmt.place 1 ≤ k) (hk' : k < fmt.place (2 * fmt.bias)) :
    fmt.NearestTo x (fmt.roundRat x) := by
  rcases abs_cases x with ⟨habs, _⟩ | ⟨habs, _⟩
  · rw [habs] at hlow hhigh
    exact fmt.roundRat_nearest_pos hlow hhigh hk hk'
  · rw [habs] at hlow hhigh
    have hneg := (fmt.roundRat_nearest_pos hlow hhigh hk hk').neg
    rw [roundRat_neg, neg_neg, neg_neg] at hneg
    exact hneg

/-- A number whose last place the format has rounds to the nearest number of the format. -/
theorem roundRat_nearest_log (hx : x ≠ 0) (hlow : fmt.place 1 ≤ Int.log 2 |x| - (fmt.precision - 1))
    (hhigh : Int.log 2 |x| - (fmt.precision - 1) < fmt.place (2 * fmt.bias)) :
    fmt.NearestTo x (fmt.roundRat x) := by
  have hpos : 0 < |x| := abs_pos.mpr hx
  have hle := Int.zpow_log_le_self (by norm_num : 1 < 2) hpos
  have hlt := Int.lt_zpow_succ_log_self (by norm_num : 1 < 2) |x|
  push_cast at hle hlt
  apply fmt.roundRat_nearest _ _ hlow hhigh
  · rw [binade_eq_zpow, ← zpow_add₀ (by norm_num)]
    have hexp : (fmt.precision : Int) - 1 + (Int.log 2 |x| - (fmt.precision - 1)) =
        Int.log 2 |x| := by ring
    rw [hexp]
    exact hle
  · rw [binade_eq_zpow, mul_assoc, ← zpow_add₀ (by norm_num), ← zpow_one_add₀ (by norm_num)]
    have hexp : 1 + ((fmt.precision : Int) - 1 + (Int.log 2 |x| - (fmt.precision - 1))) =
        Int.log 2 |x| + 1 := by ring
    rw [hexp]
    exact hlt

theorem nearestTo_zero : fmt.NearestTo 0 0 := by
  refine ⟨⟨0, fmt.place 1, ?_, le_refl _, ?_, ?_⟩, ?_, ?_⟩
  · rw [abs_zero]
    positivity
  · have hp := fmt.two_le_precision
    have hb := fmt.precision_le_bias
    unfold place
    omega
  · rw [Int.cast_zero, zero_mul]
  · intro z _
    rw [sub_zero, abs_zero]
    exact abs_nonneg _
  · intro z _ hne heq
    rw [sub_zero, sub_zero, abs_zero, abs_eq_zero] at heq
    exact absurd heq hne

end Nearest

end FloatFormat
