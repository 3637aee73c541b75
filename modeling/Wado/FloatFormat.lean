/-
Binary floating-point formats: the numbers that bit patterns stand for, rounding
to nearest with ties to even, and the rounding of natural numbers.
-/
import Mathlib.Algebra.Order.Field.Power
import Mathlib.Algebra.Order.Field.Rat
import Mathlib.Tactic.Linarith
import Mathlib.Tactic.Ring
import Mathlib.Tactic.SplitIfs
import Mathlib.Tactic.Positivity

/-- A format by its precision, the leading bit included, and its exponent bias. -/
structure FloatFormat where
  precision : Nat
  bias : Nat
  two_le_precision : 2 ≤ precision
  precision_le_bias : precision ≤ bias

namespace FloatFormat

variable (fmt : FloatFormat)

/-! ## Patterns -/

/-- The patterns that one biased exponent covers. -/
def binade : Nat := 2 ^ (fmt.precision - 1)

/-- The pattern of infinity; those below it are finite. -/
def infinity : Nat := (2 * fmt.bias + 1) * fmt.binade

/-- The exponent of the last place at a biased exponent of at least one. -/
def place (biased : Int) : Int := biased - fmt.bias - (fmt.precision - 1)

/-- The number a finite pattern without a sign stands for. -/
def value (bits : Nat) : Rat :=
  if bits / fmt.binade = 0 then (bits % fmt.binade : Nat) * 2 ^ fmt.place 1
  else (fmt.binade + bits % fmt.binade : Nat) * 2 ^ fmt.place (bits / fmt.binade : Nat)

/-- The finite numbers of the format, of either sign. -/
def Representable (x : Rat) : Prop :=
  ∃ m e : Int, |m| < 2 ^ fmt.precision ∧ fmt.place 1 ≤ e ∧ e ≤ fmt.place (2 * fmt.bias) ∧
    x = m * 2 ^ e

/-- A pattern whose number is the closest, with an even last bit when another
number is as close. -/
structure Nearest (x : Rat) (bits : Nat) : Prop where
  finite : bits < fmt.infinity
  closest : ∀ y, fmt.Representable y → |fmt.value bits - x| ≤ |y - x|
  even : ∀ y, fmt.Representable y → y ≠ fmt.value bits →
    |y - x| = |fmt.value bits - x| → bits % 2 = 0

/-- Half a place past the greatest finite number. -/
def overflowBound : Nat := (2 ^ (fmt.precision + 1) - 1) * 2 ^ (fmt.bias - fmt.precision)

/-- Rounding to nearest, ties to even, of a number that is not negative. -/
def Rounds (x : Rat) (bits : Nat) : Prop :=
  (fmt.overflowBound ≤ x → bits = fmt.infinity) ∧ (x < fmt.overflowBound → fmt.Nearest x bits)

/-! ## Rounding natural numbers -/

/-- A number without its last `k` bits, rounded to nearest with ties to even. -/
def roundShift (n k : Nat) : Nat :=
  if 2 ^ k < 2 * (n % 2 ^ k) ∨ (2 ^ k = 2 * (n % 2 ^ k) ∧ n / 2 ^ k % 2 = 1) then
    n / 2 ^ k + 1
  else n / 2 ^ k

/-- The significand of a number, by the place of its leading bit. -/
def significand (n : Nat) : Nat :=
  if n.log2 < fmt.precision then n * 2 ^ (fmt.precision - 1 - n.log2)
  else roundShift n (n.log2 + 1 - fmt.precision)

/-- The pattern of a significand at an exponent; a significand of twice the
least one carries into the exponent. -/
def pattern (e q : Nat) : Nat := (e + fmt.bias) * fmt.binade + (q - fmt.binade)

def roundNat (n : Nat) : Nat :=
  if n = 0 then 0 else min fmt.infinity (fmt.pattern n.log2 (fmt.significand n))

/-! ## Facts of the rounding -/

theorem roundShift_close (n k : Nat) : 2 * |(roundShift n k : Int) * 2 ^ k - n| ≤ 2 ^ k ∧
      (2 * |(roundShift n k : Int) * 2 ^ k - n| = 2 ^ k → roundShift n k % 2 = 0) := by
  have hsplit := Nat.div_add_mod n (2 ^ k)
  have hlt : n % 2 ^ k < 2 ^ k := Nat.mod_lt _ (Nat.two_pow_pos k)
  have hcast : (n : Int) = 2 ^ k * (n / 2 ^ k : Nat) + (n % 2 ^ k : Nat) := by
    exact_mod_cast hsplit.symm
  have hltInt : ((n % 2 ^ k : Nat) : Int) < 2 ^ k := by exact_mod_cast hlt
  unfold roundShift
  split_ifs with hup
  · have herror : ((n / 2 ^ k + 1 : Nat) : Int) * 2 ^ k - n = 2 ^ k - (n % 2 ^ k : Nat) := by
      rw [hcast]
      push_cast
      ring
    have hge : (2 : Int) ^ k ≤ 2 * (n % 2 ^ k : Nat) := by
      rcases hup with h | h
      · exact_mod_cast Nat.le_of_lt h
      · exact_mod_cast Nat.le_of_eq h.1
    rw [herror, abs_of_nonneg (by linarith)]
    refine ⟨by linarith, ?_⟩
    intro htie
    have hhalf : 2 ^ k = 2 * (n % 2 ^ k) := by
      have : (2 : Int) ^ k = 2 * (n % 2 ^ k : Nat) := by linarith
      exact_mod_cast this
    rcases hup with h | h
    · omega
    · omega
  · have herror : ((n / 2 ^ k : Nat) : Int) * 2 ^ k - n = -(n % 2 ^ k : Nat) := by
      rw [hcast]
      push_cast
      ring
    obtain ⟨hlow, hodd⟩ := not_or.mp hup
    have hle : 2 * ((n % 2 ^ k : Nat) : Int) ≤ 2 ^ k := by exact_mod_cast Nat.le_of_not_lt hlow
    rw [herror, abs_neg, abs_of_nonneg (Int.natCast_nonneg _)]
    refine ⟨hle, ?_⟩
    intro htie
    have hhalf : 2 ^ k = 2 * (n % 2 ^ k) := by exact_mod_cast htie.symm
    have hnot : ¬ n / 2 ^ k % 2 = 1 := fun h => hodd ⟨hhalf, h⟩
    omega

/-- The guard bit, the bits below it and the parity of what is kept decide the
rounding, as one more in the bit below the guard bit. -/
theorem roundShift_eq_guard (n s b : Nat)
    (hb : b = if n % 2 ^ s ≠ 0 ∨ n / 2 ^ s % 2 = 1 ∨ n / 2 ^ s / 4 % 2 = 1 then 1 else 0) :
    (n / 2 ^ s / 2 * 2 + b + 1) / 4 = roundShift n (s + 2) := by
  obtain ⟨T, hT⟩ : ∃ T, 2 ^ s = T := ⟨_, rfl⟩
  have hTpos : 0 < T := hT ▸ Nat.two_pow_pos s
  have hpow : 2 ^ (s + 2) = T * 4 := by rw [Nat.pow_add, hT]
  have hmod : n % (T * 4) = n % T + T * (n / T % 4) := Nat.mod_mul
  have hrest := Nat.mod_lt n hTpos
  rw [hT] at hb
  rw [roundShift, hpow, hT, ← Nat.div_div_eq_div_mul, hmod]
  generalize n / T = A at *
  have hcases : A % 4 = 0 ∨ A % 4 = 1 ∨ A % 4 = 2 ∨ A % 4 = 3 := by omega
  rcases hcases with h | h | h | h
  all_goals
    rw [h]
    split_ifs at hb ⊢ <;> omega

theorem binade_pos : 0 < fmt.binade := Nat.two_pow_pos _

theorem two_mul_binade : 2 * fmt.binade = 2 ^ fmt.precision := by
  have h := fmt.two_le_precision
  rw [binade, ← Nat.pow_succ']
  congr 1
  omega

theorem binade_even : fmt.binade % 2 = 0 := by
  have h := fmt.two_le_precision
  obtain ⟨i, hi⟩ : ∃ i, fmt.precision - 1 = i + 1 := ⟨fmt.precision - 2, by omega⟩
  rw [binade, hi, Nat.pow_succ, Nat.mul_mod_left]

variable {n : Nat}

/-- The quotient of a number by the place below its significand. -/
theorem quotient_bounds (hn : n ≠ 0) (hlog : fmt.precision ≤ n.log2) :
    fmt.binade ≤ n / 2 ^ (n.log2 + 1 - fmt.precision) ∧
      n / 2 ^ (n.log2 + 1 - fmt.precision) < 2 * fmt.binade := by
  have h := fmt.two_le_precision
  have hlow := Nat.log2_self_le hn
  have hhigh := @Nat.lt_log2_self n
  constructor
  · rw [Nat.le_div_iff_mul_le (Nat.two_pow_pos _), binade, ← Nat.pow_add]
    have hexp : fmt.precision - 1 + (n.log2 + 1 - fmt.precision) = n.log2 := by omega
    rw [hexp]
    exact hlow
  · apply Nat.div_lt_of_lt_mul
    rw [two_mul_binade, ← Nat.pow_add]
    have hexp : n.log2 + 1 - fmt.precision + fmt.precision = n.log2 + 1 := by omega
    rw [hexp]
    exact hhigh

theorem roundShift_le (n k : Nat) : n / 2 ^ k ≤ roundShift n k ∧
    roundShift n k ≤ n / 2 ^ k + 1 := by
  unfold roundShift
  split_ifs <;> omega

theorem significand_bounds (hn : n ≠ 0) :
    fmt.binade ≤ fmt.significand n ∧ fmt.significand n ≤ 2 * fmt.binade := by
  have h := fmt.two_le_precision
  unfold significand
  split_ifs with hlog
  · have hlow := Nat.log2_self_le hn
    have hhigh := @Nat.lt_log2_self n
    have hexp : fmt.precision - 1 = n.log2 + (fmt.precision - 1 - n.log2) := by omega
    have hexp' : fmt.precision = n.log2 + 1 + (fmt.precision - 1 - n.log2) := by omega
    constructor
    · rw [binade, hexp, Nat.pow_add]
      conv_rhs => rw [← hexp]
      exact Nat.mul_le_mul_right _ hlow
    · rw [two_mul_binade, hexp', Nat.pow_add]
      conv_lhs => rw [← hexp']
      exact Nat.mul_le_mul_right _ (Nat.le_of_lt hhigh)
  · obtain ⟨hlow, hhigh⟩ := fmt.quotient_bounds hn (Nat.le_of_not_lt hlog)
    obtain ⟨hge, hle⟩ := roundShift_le n (n.log2 + 1 - fmt.precision)
    omega

/-- The significand at its place is close to the number. -/
theorem significand_close (n : Nat) :
    2 * |(fmt.significand n : Rat) * 2 ^ ((n.log2 : Int) - (fmt.precision - 1)) - n| ≤
        2 ^ ((n.log2 : Int) - (fmt.precision - 1)) ∧
      (2 * |(fmt.significand n : Rat) * 2 ^ ((n.log2 : Int) - (fmt.precision - 1)) - n| =
        2 ^ ((n.log2 : Int) - (fmt.precision - 1)) → fmt.significand n % 2 = 0) := by
  have hp := fmt.two_le_precision
  unfold significand
  split_ifs with hlog
  · have hplace : (n.log2 : Int) - (fmt.precision - 1) =
        -((fmt.precision - 1 - n.log2 : Nat) : Int) := by omega
    have hexact : ((n * 2 ^ (fmt.precision - 1 - n.log2) : Nat) : Rat) *
        2 ^ (-((fmt.precision - 1 - n.log2 : Nat) : Int)) = n := by
      push_cast
      rw [mul_assoc, zpow_neg, zpow_natCast, mul_inv_cancel₀ (by positivity), mul_one]
    have hpos : (0 : Rat) < 2 ^ (-((fmt.precision - 1 - n.log2 : Nat) : Int)) := by positivity
    rw [hplace, hexact, sub_self, abs_zero, mul_zero]
    refine ⟨hpos.le, ?_⟩
    intro h
    linarith
  · have hplace : (n.log2 : Int) - (fmt.precision - 1) =
        ((n.log2 + 1 - fmt.precision : Nat) : Int) := by omega
    rw [hplace, zpow_natCast]
    obtain ⟨hclose, heven⟩ := roundShift_close n (n.log2 + 1 - fmt.precision)
    constructor
    · exact_mod_cast hclose
    · intro h
      exact heven (by exact_mod_cast h)

variable {e q : Nat}

theorem value_pattern (hlow : fmt.binade ≤ q) (hhigh : q ≤ 2 * fmt.binade) :
    fmt.value (fmt.pattern e q) = q * 2 ^ ((e : Int) - (fmt.precision - 1)) := by
  have hbinade := fmt.binade_pos
  have hbias : 0 < e + fmt.bias := by
    have h := fmt.two_le_precision
    have h' := fmt.precision_le_bias
    omega
  rcases Nat.eq_or_lt_of_le hhigh with rfl | hlt
  · have hcarry : fmt.pattern e (2 * fmt.binade) = (e + fmt.bias + 1) * fmt.binade := by
      rw [pattern, Nat.add_mul (e + fmt.bias), Nat.one_mul]
      omega
    rw [value, hcarry, Nat.mul_div_cancel _ hbinade, Nat.mul_mod_left, if_neg (by omega)]
    have hplace : fmt.place ((e + fmt.bias + 1 : Nat) : Int) =
        1 + ((e : Int) - (fmt.precision - 1)) := by
      unfold place
      push_cast
      ring
    rw [hplace, zpow_add₀ (by norm_num)]
    push_cast
    ring
  · have hdiv : fmt.pattern e q / fmt.binade = e + fmt.bias := by
      rw [pattern, Nat.add_comm, Nat.add_mul_div_right _ _ hbinade, Nat.div_eq_of_lt (by omega),
        Nat.zero_add]
    have hmod : fmt.pattern e q % fmt.binade = q - fmt.binade := by
      rw [pattern, Nat.add_comm, Nat.add_mul_mod_self_right, Nat.mod_eq_of_lt (by omega)]
    rw [value, hdiv, hmod, if_neg (by omega)]
    have hplace : fmt.place ((e + fmt.bias : Nat) : Int) = (e : Int) - (fmt.precision - 1) := by
      unfold place
      push_cast
      ring
    have hq : fmt.binade + (q - fmt.binade) = q := by omega
    rw [hplace, hq]

/-! ## Closest numbers -/

/-- A number on the grid of its own binade is the closest when it is within half
a place, and alone so unless it is half a place away. -/
theorem grid_closest {x : Rat} {q k : Int} (hx : fmt.binade * 2 ^ k ≤ x)
    (hclose : 2 * |(q : Rat) * 2 ^ k - x| ≤ 2 ^ k) {y : Rat} (hy : fmt.Representable y) :
    |(q : Rat) * 2 ^ k - x| ≤ |y - x| ∧
      (y ≠ q * 2 ^ k → |y - x| = |(q : Rat) * 2 ^ k - x| → 2 * |(q : Rat) * 2 ^ k - x| =
        2 ^ k) := by
  have hu : (0 : Rat) < 2 ^ k := by positivity
  -- Another number of the grid is at least one place off.
  have hgrid : ∀ M : Int, M ≠ q → 2 ^ k ≤ 2 * |(M : Rat) * 2 ^ k - x| := by
    intro M hM
    have hone : (1 : Rat) ≤ |(M : Rat) - q| := by
      have hne : M - q ≠ 0 := sub_ne_zero.mpr hM
      exact_mod_cast Int.one_le_abs hne
    have hapart : 2 ^ k ≤ |(M : Rat) * 2 ^ k - q * 2 ^ k| := by
      rw [← sub_mul, abs_mul, abs_of_pos hu]
      exact le_mul_of_one_le_left hu.le hone
    have htriangle := abs_sub_le ((M : Rat) * 2 ^ k) x (q * 2 ^ k)
    rw [abs_sub_comm x] at htriangle
    linarith
  obtain ⟨m, e, hm, -, -, rfl⟩ := hy
  rcases le_or_gt k e with hke | hek
  · have hmultiple : (m : Rat) * 2 ^ e = (m * 2 ^ (e - k).toNat : Int) * 2 ^ k := by
      have hsplit : e = ((e - k).toNat : Int) + k := by omega
      conv_lhs => rw [hsplit, zpow_add₀ (by norm_num), zpow_natCast]
      push_cast
      ring
    rw [hmultiple]
    by_cases hM : m * 2 ^ (e - k).toNat = q
    · rw [hM]
      exact ⟨le_refl _, fun hne => absurd rfl hne⟩
    · have hfar := hgrid _ hM
      refine ⟨by linarith, ?_⟩
      intro _ heq
      rw [heq] at hfar
      linarith
  · -- A number of finer grain lies below the binade.
    have hbelow : (m : Rat) * 2 ^ e < fmt.binade * 2 ^ k := by
      have hmlt : (m : Rat) < 2 ^ fmt.precision := by
        have hint : m < 2 ^ fmt.precision := lt_of_le_of_lt (le_abs_self m) hm
        exact_mod_cast hint
      have hstep : (2 : Rat) ^ e * 2 ≤ 2 ^ k := by
        have hpow : (2 : Rat) ^ (e + 1) ≤ 2 ^ k := zpow_le_zpow_right₀ (by norm_num) (by omega)
        rwa [zpow_add₀ (by norm_num), zpow_one] at hpow
      have hbinade : (2 : Rat) ^ fmt.precision = 2 * fmt.binade := by
        exact_mod_cast fmt.two_mul_binade.symm
      have he : (0 : Rat) < 2 ^ e := by positivity
      have hb : (0 : Rat) < fmt.binade := by exact_mod_cast fmt.binade_pos
      calc (m : Rat) * 2 ^ e < 2 * fmt.binade * 2 ^ e := by
            rw [← hbinade]
            exact mul_lt_mul_of_pos_right hmlt he
        _ = fmt.binade * (2 ^ e * 2) := by ring
        _ ≤ fmt.binade * 2 ^ k := mul_le_mul_of_nonneg_left hstep hb.le
    have hless : |(q : Rat) * 2 ^ k - x| < |(m : Rat) * 2 ^ e - x| := by
      rw [abs_of_nonpos (by linarith : (m : Rat) * 2 ^ e - x ≤ 0)]
      by_cases hq : (fmt.binade : Int) = q
      · have hcast : (q : Rat) = fmt.binade := by exact_mod_cast hq.symm
        rw [hcast, abs_of_nonpos (by linarith)]
        linarith
      · have hfar := hgrid _ hq
        push_cast at hfar
        rw [abs_of_nonpos (by linarith : (fmt.binade : Rat) * 2 ^ k - x ≤ 0)] at hfar
        linarith
    exact ⟨hless.le, fun _ heq => absurd heq hless.ne'⟩

theorem binade_le (n : Nat) (hn : n ≠ 0) :
    (fmt.binade : Rat) * 2 ^ ((n.log2 : Int) - (fmt.precision - 1)) ≤ n := by
  have hp := fmt.two_le_precision
  have hbinade : (fmt.binade : Rat) = 2 ^ ((fmt.precision - 1 : Nat) : Int) := by
    rw [zpow_natCast, binade]
    push_cast
    rfl
  rw [hbinade, ← zpow_add₀ (by norm_num)]
  have hexp : ((fmt.precision - 1 : Nat) : Int) + ((n.log2 : Int) - (fmt.precision - 1)) =
      (n.log2 : Int) := by omega
  rw [hexp, zpow_natCast]
  exact_mod_cast Nat.log2_self_le hn

theorem pattern_mod_two (hq : fmt.binade ≤ q) : fmt.pattern e q % 2 = q % 2 := by
  have heven := fmt.binade_even
  have hmul : (e + fmt.bias) * fmt.binade % 2 = 0 := by
    rw [Nat.mul_mod, heven, Nat.mul_zero]
  unfold pattern
  omega

/-- The pattern of the significand is the closest when it is finite. -/
theorem nearest_pattern (hn : n ≠ 0)
    (hfinite : fmt.pattern n.log2 (fmt.significand n) < fmt.infinity) :
    fmt.Nearest n (fmt.pattern n.log2 (fmt.significand n)) := by
  obtain ⟨hlow, hhigh⟩ := fmt.significand_bounds hn
  obtain ⟨hclose, heven⟩ := fmt.significand_close n
  have hvalue := fmt.value_pattern (e := n.log2) hlow hhigh
  have hgrid := @fmt.grid_closest n (fmt.significand n : Int) _ (fmt.binade_le n hn) (by
    push_cast
    exact hclose)
  push_cast at hgrid
  refine ⟨hfinite, ?_, ?_⟩
  · intro y hy
    rw [hvalue]
    exact (hgrid hy).1
  · intro y hy hne heq
    rw [hvalue] at hne heq
    rw [fmt.pattern_mod_two hlow]
    exact heven ((hgrid hy).2 hne heq)

/-! ## Overflow -/

theorem overflowBound_eq : fmt.overflowBound = 4 * (2 ^ (fmt.bias - fmt.precision) * fmt.binade) -
      2 ^ (fmt.bias - fmt.precision) := by
  have hpow : 2 ^ (fmt.precision + 1) = 4 * fmt.binade := by
    rw [Nat.pow_succ, ← two_mul_binade]
    omega
  rw [overflowBound, hpow, Nat.sub_mul, Nat.one_mul]
  congr 1
  ring

/-- At the greatest exponent the rounding carries just from the bound on. -/
theorem roundShift_lt_iff (hn : n ≠ 0) (hlog : n.log2 = fmt.bias) :
    roundShift n (fmt.bias + 1 - fmt.precision) < 2 * fmt.binade ↔ n < fmt.overflowBound := by
  have hle := fmt.precision_le_bias
  have hpos := fmt.binade_pos
  obtain ⟨H, hH⟩ : ∃ H, 2 ^ (fmt.bias - fmt.precision) = H := ⟨_, rfl⟩
  have hHpos : 0 < H := hH ▸ Nat.two_pow_pos _
  have hT : 2 ^ (fmt.bias + 1 - fmt.precision) = 2 * H := by
    rw [← hH, ← Nat.pow_succ']
    congr 1
    omega
  obtain ⟨-, hquotient⟩ := fmt.quotient_bounds hn (by omega)
  rw [hlog, hT] at hquotient
  have hsplit := Nat.div_add_mod n (2 * H)
  have hmod := Nat.mod_lt n (by omega : 0 < 2 * H)
  rw [overflowBound_eq, hH, roundShift, hT]
  rcases Nat.lt_or_ge (n / (2 * H) + 1) (2 * fmt.binade) with hsmall | hlarge
  · have hbelow : H * (n / (2 * H) + 2) ≤ H * (2 * fmt.binade) :=
      Nat.mul_le_mul_left H (by omega)
    have hproduct : H * (2 * fmt.binade) = 2 * (H * fmt.binade) := by ring
    have hquot : 2 * H * (n / (2 * H)) = 2 * (H * (n / (2 * H))) := by ring
    rw [Nat.mul_add] at hbelow
    have hrounded : (if 2 * H < 2 * (n % (2 * H)) ∨
        2 * H = 2 * (n % (2 * H)) ∧ n / (2 * H) % 2 = 1 then n / (2 * H) + 1
        else n / (2 * H)) < 2 * fmt.binade := by
      split_ifs <;> omega
    constructor
    · intro _
      omega
    · intro _
      exact hrounded
  · have hQ : n / (2 * H) = 2 * fmt.binade - 1 := by omega
    have hquot : 2 * H * (n / (2 * H)) = 4 * (H * fmt.binade) - 2 * H := by
      rw [hQ, Nat.mul_sub, Nat.mul_one]
      congr 1
      ring
    have hroom : H ≤ H * fmt.binade := Nat.le_mul_of_pos_right H hpos
    have hodd : (2 * fmt.binade - 1) % 2 = 1 := by omega
    rw [hQ, hodd]
    split_ifs with hup
    · omega
    · obtain ⟨hlow, htie⟩ := not_or.mp hup
      have hne : ¬ 2 * H = 2 * (n % (2 * H)) := fun h => htie ⟨h, rfl⟩
      omega

theorem pattern_lt_infinity_iff (hn : n ≠ 0) :
    fmt.pattern n.log2 (fmt.significand n) < fmt.infinity ↔ n < fmt.overflowBound := by
  have hle := fmt.precision_le_bias
  have hpos := fmt.binade_pos
  obtain ⟨hlow, hhigh⟩ := fmt.significand_bounds hn
  have hself := Nat.log2_self_le hn
  have hself' := @Nat.lt_log2_self n
  obtain ⟨H, hH⟩ : ∃ H, 2 ^ (fmt.bias - fmt.precision) = H := ⟨_, rfl⟩
  have hHpos : 0 < H := hH ▸ Nat.two_pow_pos _
  have hroom : H ≤ H * fmt.binade := Nat.le_mul_of_pos_right H hpos
  have htop : 2 ^ fmt.bias = 2 * (H * fmt.binade) := by
    have hexp : fmt.bias = fmt.bias - fmt.precision + fmt.precision := by omega
    rw [hexp, Nat.pow_add, ← two_mul_binade, hH]
    ring
  rcases Nat.lt_trichotomy n.log2 fmt.bias with hlt | heq | hgt
  · have hpattern : (n.log2 + fmt.bias + 1) * fmt.binade ≤ 2 * fmt.bias * fmt.binade :=
      Nat.mul_le_mul_right _ (by omega)
    have hnumber : 2 ^ (n.log2 + 1) ≤ 2 ^ fmt.bias := Nat.pow_le_pow_right (by decide) hlt
    rw [overflowBound_eq, hH, pattern, infinity, Nat.add_mul (2 * fmt.bias), Nat.one_mul]
    rw [Nat.add_mul (n.log2 + fmt.bias), Nat.one_mul] at hpattern
    constructor
    · intro _
      omega
    · intro _
      omega
  · have hsignificand : fmt.significand n = roundShift n (fmt.bias + 1 - fmt.precision) := by
      rw [significand, heq, if_neg (by omega)]
    have hcarry := fmt.roundShift_lt_iff hn heq
    rw [← hcarry, ← hsignificand, pattern, infinity, heq]
    have hdouble : (2 * fmt.bias + 1) * fmt.binade =
        (fmt.bias + fmt.bias) * fmt.binade + fmt.binade := by ring
    rw [hdouble]
    omega
  · have hpattern : (2 * fmt.bias + 1) * fmt.binade ≤ (n.log2 + fmt.bias) * fmt.binade :=
      Nat.mul_le_mul_right _ (by omega)
    have hnumber : 2 ^ (fmt.bias + 1) ≤ 2 ^ n.log2 := Nat.pow_le_pow_right (by decide) hgt
    rw [Nat.pow_succ] at hnumber
    rw [overflowBound_eq, hH, pattern, infinity]
    constructor
    · intro _
      omega
    · intro _
      omega

theorem pattern_le (hq : q ≤ 2 * fmt.binade) :
    fmt.pattern e q ≤ (e + fmt.bias + 1) * fmt.binade := by
  rw [pattern, Nat.add_mul (e + fmt.bias), Nat.one_mul]
  omega

/-- Up to the greatest exponent the pattern reaches infinity and never passes it. -/
theorem roundNat_eq_pattern (hn : n ≠ 0) (hlog : n.log2 ≤ fmt.bias) :
    fmt.roundNat n = fmt.pattern n.log2 (fmt.significand n) := by
  have hle := fmt.pattern_le (e := n.log2) (fmt.significand_bounds hn).2
  have htop : (n.log2 + fmt.bias + 1) * fmt.binade ≤ fmt.infinity :=
    Nat.mul_le_mul_right _ (by omega)
  rw [roundNat, if_neg hn, Nat.min_eq_right (Nat.le_trans hle htop)]

theorem roundNat_le (n : Nat) : fmt.roundNat n ≤ fmt.infinity := by
  unfold roundNat
  split_ifs
  · exact Nat.zero_le _
  · exact Nat.min_le_left _ _

/-- An exponent is bounded by the pattern it makes. -/
theorem exponent_le {e e' q : Nat} (hq : q ≤ 2 * fmt.binade) {m : Nat}
    (h : fmt.pattern e m = fmt.pattern e' q) : e ≤ e' + 1 := by
  have hle := fmt.pattern_le (e := e') hq
  rw [← h, pattern] at hle
  have hmul := Nat.le_of_mul_le_mul_right (Nat.le_trans (Nat.le_add_right _ _) hle) fmt.binade_pos
  omega

theorem value_zero : fmt.value 0 = 0 := by
  rw [value, Nat.zero_div, if_pos rfl, Nat.zero_mod]
  simp

theorem infinity_pos : 0 < fmt.infinity := Nat.mul_pos (by omega) fmt.binade_pos

theorem overflowBound_pos : 0 < fmt.overflowBound := by
  have hbinade := fmt.binade_pos
  have hpos : 0 < 2 ^ (fmt.bias - fmt.precision) := Nat.two_pow_pos _
  have hroom := Nat.le_mul_of_pos_right (2 ^ (fmt.bias - fmt.precision)) hbinade
  rw [overflowBound_eq]
  omega

/-- The rounding of natural numbers is to nearest, ties to even. -/
theorem roundNat_rounds (n : Nat) : fmt.Rounds n (fmt.roundNat n) := by
  by_cases hn : n = 0
  · subst hn
    constructor
    · intro h
      have hpos := fmt.overflowBound_pos
      have hle : fmt.overflowBound ≤ 0 := by exact_mod_cast h
      omega
    · intro _
      rw [roundNat, if_pos rfl]
      refine ⟨fmt.infinity_pos, ?_, ?_⟩
      · intro y _
        rw [value_zero]
        simp
      · intro y _ _ _
        rfl
  · rw [roundNat, if_neg hn]
    constructor
    · intro h
      have hle : fmt.overflowBound ≤ n := by exact_mod_cast h
      have hnot := not_congr (fmt.pattern_lt_infinity_iff hn)
      exact Nat.min_eq_left (Nat.le_of_not_lt (hnot.mpr (Nat.not_lt.mpr hle)))
    · intro h
      have hlt : n < fmt.overflowBound := by exact_mod_cast h
      have hfinite := (fmt.pattern_lt_infinity_iff hn).mpr hlt
      rw [Nat.min_eq_right (Nat.le_of_lt hfinite)]
      exact fmt.nearest_pattern hn hfinite

end FloatFormat
