/-
The float nearest an exact quotient: scaling to two or three bits more than a float keeps,
then halving with a round bit and a sticky one.
-/
import Wado.Temporal.TimeDuration

namespace Wado.Temporal

open StepRounding

theorem f64_two_le : 2 ≤ 53 := by decide

theorem f64_le_bias : 53 ≤ 1023 := by decide

def f64 : FloatFormat := ⟨53, 1023, f64_two_le, f64_le_bias⟩

/-- An `i128` product, sum or negation, as the machine wraps it. -/
@[irreducible] def i128 (x : Int) : Int := (x + 2 ^ 127) % 2 ^ 128 - 2 ^ 127

theorem i128_eq {x : Int} (h : -2 ^ 127 ≤ x ∧ x < 2 ^ 127) : i128 x = x := by
  unfold i128
  omega

def bitLength (rest : Nat) : Nat :=
  if rest = 0 then 0 else bitLength (rest / 2) + 1

def powerOfTwo : Nat → Int
  | 0 => 1
  | exponent + 1 => i128 (powerOfTwo exponent * 2)

theorem powerOfTwo_eq {exponent : Nat} (h : exponent < 127) :
    powerOfTwo exponent = 2 ^ exponent := by
  induction exponent with
  | zero => rfl
  | succ exponent ih =>
    rw [powerOfTwo, ih (by omega), ← Int.pow_succ]
    apply i128_eq
    have hpos : (0 : Int) < 2 ^ (exponent + 1) := by positivity
    have hlt : (2 : Int) ^ (exponent + 1) < 2 ^ 127 :=
      pow_lt_pow_right₀ (by norm_num) h
    omega

/-- A quotient being halved: the bits it keeps, the last one it lost, and whether one before
that was set or there was a remainder. -/
structure Halving where
  quotient : Int
  exponent : Int
  roundBit : Int
  sticky : Bool
deriving DecidableEq, Repr

/-- The loop that halves a quotient to 53 bits. -/
def halve (h : Halving) : Halving :=
  if powerOfTwo 53 ≤ h.quotient then
    halve ⟨h.quotient.tdiv 2, h.exponent + 1, h.quotient.tmod 2, h.sticky || h.roundBit != 0⟩
  else h
termination_by h.quotient.toNat
decreasing_by
  have hlimit : powerOfTwo 53 = 2 ^ 53 := powerOfTwo_eq (by decide)
  rw [tdiv_of_nonneg (by omega)]
  omega

/-- How far a quotient is scaled up, or down where that is negative. -/
def quotientShift (magnitude denominator : Int) : Int :=
  55 + bitLength denominator.toNat - bitLength magnitude.toNat

def exactQuotientToF64 (numerator denominator : Int) : Rat :=
  if numerator = 0 then 0
  else
    let negative := numerator < 0
    let magnitude := if negative then i128 (-numerator) else numerator
    let shift := quotientShift magnitude denominator
    let scaledNumerator :=
      if shift ≥ 0 then i128 (magnitude * powerOfTwo shift.toNat) else magnitude
    let scaledDenominator :=
      if shift ≥ 0 then denominator else i128 (denominator * powerOfTwo (-shift).toNat)
    let halved := halve ⟨scaledNumerator.tdiv scaledDenominator, -shift, 0,
      scaledNumerator.tmod scaledDenominator ≠ 0⟩
    let up := halved.roundBit = 1 ∧ (halved.sticky ∨ halved.quotient.tmod 2 = 1)
    let carries := up ∧ halved.quotient + 1 = powerOfTwo 53
    let quotient :=
      if carries then (halved.quotient + 1).tdiv 2
      else if up then halved.quotient + 1
      else halved.quotient
    let exponent := if carries then halved.exponent + 1 else halved.exponent
    let scale := f64.value (((exponent + 1023) % 2 ^ 64).toNat * 2 ^ 52 % 2 ^ 64)
    let value := f64.roundRat (f64.roundRat quotient * scale)
    if negative then -value else value

section Bits

theorem bitLength_bounds {n : Nat} (hn : 0 < n) :
    2 ^ bitLength n ≤ 2 * n ∧ n < 2 ^ bitLength n := by
  induction n using Nat.strongRecOn with
  | ind n ih =>
    rw [bitLength, if_neg (by omega), Nat.pow_succ]
    by_cases hhalf : n / 2 = 0
    · rw [hhalf, bitLength, if_pos rfl, Nat.pow_zero]
      omega
    · have hbounds := ih (n / 2) (by omega) (by omega)
      omega

end Bits

section Halving

variable {N D : Int}

/-- What a quotient being halved has lost of `N / D` shows in its round and sticky bits. -/
structure Halves (N D : Int) (h : Halving) : Prop where
  quotient : h.quotient = N / D
  lost : N % D ≠ 0 ↔ h.sticky = true ∨ h.roundBit ≠ 0

/-- The bits of a halved quotient decide the rounding of `N / D` to nearest even. -/
structure Halved (N D : Int) (h : Halving) : Prop extends Halves N D h where
  up : h.roundBit = 1 ∧ (h.sticky = true ∨ h.quotient % 2 = 1) ↔
    D - N % D < N % D ∨ D - N % D = N % D ∧ h.quotient % 2 = 1

theorem emod_mul_two (hD : 0 ≤ D) : N % (D * 2) = N % D + D * (N / D % 2) := by
  rw [Int.emod_def N (D * 2), ← Int.ediv_ediv_of_nonneg hD, Int.emod_def N D,
    Int.emod_def (N / D) 2]
  ring

/-- One halving keeps what it loses. -/
theorem Halves.step {h : Halving} (hhalves : Halves N D h) (hD : 0 < D) (hN : 0 ≤ N) :
    Halved N (D * 2) ⟨h.quotient.tdiv 2, h.exponent + 1, h.quotient.tmod 2,
      h.sticky || h.roundBit != 0⟩ := by
  have hquotient := Int.ediv_nonneg hN hD.le
  have hrest := Int.emod_nonneg N hD.ne'
  have hrestLt := Int.emod_lt_of_pos N hD
  have hlost : (h.sticky || h.roundBit != 0) = true ↔ N % D ≠ 0 := by
    rw [hhalves.lost, Bool.or_eq_true, bne_iff_ne]
  have hhalf : h.quotient.tdiv 2 = N / (D * 2) := by
    rw [hhalves.quotient, tdiv_of_nonneg hquotient, Int.ediv_ediv_of_nonneg hD.le]
  have hbit : h.quotient.tmod 2 = N / D % 2 := by
    rw [hhalves.quotient, Int.tmod_eq_emod_of_nonneg hquotient]
  have hmod := emod_mul_two (N := N) hD.le
  rcases Int.emod_two_eq (N / D) with heven | hodd
  · rw [heven, Int.mul_zero, Int.add_zero] at hmod
    refine ⟨⟨hhalf, ?_⟩, ?_⟩ <;> dsimp only
    · rw [hlost, hmod, hbit, heven]
      omega
    · rw [hlost, hmod, hbit, heven]
      omega
  · rw [hodd, Int.mul_one] at hmod
    refine ⟨⟨hhalf, ?_⟩, ?_⟩ <;> dsimp only
    · rw [hlost, hmod, hbit, hodd]
      omega
    · rw [hlost, hmod, hbit, hodd]
      omega

/-- The loop halves to 53 bits, at least once, and counts the halvings in the exponent. -/
theorem halve_spec {h : Halving} (hhalves : Halves N D h) (hD : 0 < D) (hN : 0 ≤ N)
    (hlow : 2 ^ 53 ≤ h.quotient) :
    ∃ j : Nat, (halve h).exponent = h.exponent + j ∧ Halved N (D * 2 ^ j) (halve h) ∧
      2 ^ 52 ≤ (halve h).quotient ∧ (halve h).quotient < 2 ^ 53 := by
  have hlimit : powerOfTwo 53 = 2 ^ 53 := powerOfTwo_eq (by decide)
  generalize hn : h.quotient.toNat = n
  induction n using Nat.strongRecOn generalizing h D with
  | ind n ih =>
    have hstep := hhalves.step hD hN
    have hdiv : h.quotient.tdiv 2 = h.quotient / 2 := tdiv_of_nonneg (by omega) 2
    rw [halve, hlimit, if_pos hlow]
    by_cases hagain : 2 ^ 53 ≤ h.quotient.tdiv 2
    · obtain ⟨j, hexponent, hhalved, hbounds⟩ := ih (h.quotient.tdiv 2).toNat (by omega)
        hstep.toHalves (by omega) hagain rfl
      refine ⟨j + 1, ?_, ?_, hbounds⟩
      · rw [hexponent]
        push_cast
        ring
      · rw [pow_succ', ← mul_assoc]
        exact hhalved
    · rw [halve, hlimit, if_neg hagain]
      refine ⟨1, rfl, ?_, ?_⟩
      · rw [pow_one]
        exact hstep
      · dsimp only
        omega

end Halving

section Scaling

variable {magnitude denominator : Int}

/-- The operands scaled to a quotient of 55 or 56 bits fit the words that hold them. -/
structure Fits (magnitude denominator : Int) : Prop where
  magnitude_pos : 0 < magnitude
  denominator_pos : 0 < denominator
  numerator_lt : magnitude * 2 ^ (quotientShift magnitude denominator).toNat < 2 ^ 127
  denominator_lt : denominator * 2 ^ (-quotientShift magnitude denominator).toNat < 2 ^ 127

theorem bitLength_int {n : Int} (hn : 0 < n) :
    2 ^ bitLength n.toNat ≤ 2 * n ∧ n < 2 ^ bitLength n.toNat := by
  obtain ⟨m, rfl⟩ := Int.eq_ofNat_of_zero_le hn.le
  rw [Int.toNat_natCast]
  have hbounds := bitLength_bounds (n := m) (by omega)
  exact_mod_cast hbounds

/-- The scaled quotient has 55 or 56 bits. -/
theorem Fits.quotient_bounds (h : Fits magnitude denominator) :
    2 ^ 54 * (denominator * 2 ^ (-quotientShift magnitude denominator).toNat) ≤
        magnitude * 2 ^ (quotientShift magnitude denominator).toNat ∧
      magnitude * 2 ^ (quotientShift magnitude denominator).toNat <
        2 ^ 56 * (denominator * 2 ^ (-quotientShift magnitude denominator).toNat) := by
  obtain ⟨hmLow, hmHigh⟩ := bitLength_int h.magnitude_pos
  obtain ⟨hdLow, hdHigh⟩ := bitLength_int h.denominator_pos
  unfold quotientShift
  generalize bitLength magnitude.toNat = a at *
  generalize bitLength denominator.toNat = b at *
  generalize hs : (55 + (b : Int) - a).toNat = s
  generalize ht : (-(55 + (b : Int) - a)).toNat = t
  have hexponents : a + s = 55 + b + t := by omega
  have hpowers : (2 : Int) ^ a * 2 ^ s = 2 ^ 55 * 2 ^ b * 2 ^ t := by
    rw [← pow_add, ← pow_add, ← pow_add, hexponents]
  have hsPos : (0 : Int) < 2 ^ s := by positivity
  have htPos : (0 : Int) < 2 ^ t := by positivity
  have hnumLow : (2 : Int) ^ a * 2 ^ s ≤ 2 * magnitude * 2 ^ s :=
    mul_le_mul_of_nonneg_right hmLow hsPos.le
  have hnumHigh : magnitude * 2 ^ s < (2 : Int) ^ a * 2 ^ s :=
    mul_lt_mul_of_pos_right hmHigh hsPos
  have hdenLow : (2 : Int) ^ b * 2 ^ t ≤ 2 * denominator * 2 ^ t :=
    mul_le_mul_of_nonneg_right hdLow htPos.le
  have hdenHigh : denominator * 2 ^ t < (2 : Int) ^ b * 2 ^ t :=
    mul_lt_mul_of_pos_right hdHigh htPos
  constructor <;> linarith

end Scaling

section Value

/-- The float whose biased exponent is set and whose significand is not. -/
theorem scale_eq {e : Int} (h : -1022 ≤ e ∧ e ≤ 1023) :
    f64.value (((e + 1023) % 2 ^ 64).toNat * 2 ^ 52 % 2 ^ 64) = 2 ^ e := by
  obtain ⟨n, hn⟩ := Int.eq_ofNat_of_zero_le (a := e + 1023) (by omega)
  have hmod : ((e + 1023) % 2 ^ 64).toNat = n := by omega
  have hbinade : f64.binade = 2 ^ 52 := rfl
  have hquotient : n * 2 ^ 52 / 2 ^ 52 = n := Nat.mul_div_cancel n (by decide)
  have hbits : n * 2 ^ 52 % 2 ^ 64 = n * 2 ^ 52 := Nat.mod_eq_of_lt (by omega)
  rw [hmod, hbits]
  unfold FloatFormat.value
  rw [hbinade, hquotient, if_neg (by omega), Nat.mul_mod_left, Nat.add_zero]
  have hplace : f64.place n = e - 52 := by
    unfold FloatFormat.place f64
    push_cast
    omega
  rw [hplace, zpow_sub₀ (by norm_num)]
  norm_num
  ring

/-- A quotient with its bits halved away is the exact one, rounded to nearest even. -/
theorem Halved.rounded {N D : Int} {h : Halving} (hhalved : Halved N D h) (hD : 0 < D) :
    (if h.roundBit = 1 ∧ (h.sticky = true ∨ h.quotient % 2 = 1) then h.quotient + 1
      else h.quotient) = halfEven ((N : Rat) / D) := by
  simp only [hhalved.up]
  rw [hhalved.quotient]
  by_cases hrest : N % D = 0
  · have hexact : (N : Rat) / D = (N / D : Int) := by
      have hne : (D : Rat) ≠ 0 := by exact_mod_cast hD.ne'
      have hmul : N = N / D * D := (Int.ediv_mul_cancel (Int.dvd_of_emod_eq_zero hrest)).symm
      rw [div_eq_iff hne]
      exact_mod_cast hmul
    rw [hexact, halfEven_intCast, if_neg (by omega)]
  · have hlo := Int.emod_nonneg N hD.ne'
    exact (Between.halfEven_eq ⟨(Int.ediv_mul_add_emod N D).symm, by omega,
      Int.emod_lt_of_pos N hD⟩).symm

/-- A significand of 53 bits, the one it carries to included, times a power of two rounds to
itself. -/
theorem roundRat_significand {m e : Int} (hm : 0 ≤ m ∧ m < 2 ^ 53) (he : -1074 ≤ e) :
    f64.roundRat (m * 2 ^ e) = m * 2 ^ e := by
  have hplace : f64.place 1 = -1074 := rfl
  have hbinade : f64.binade = 2 ^ 52 := rfl
  apply f64.roundRat_multiple rfl
  · rw [hbinade, abs_of_nonneg hm.1]
    norm_num
    omega
  · rw [hplace]
    exact he

/-- The parts of a float: a significand that may have carried, its place, and the sign. -/
theorem assemble_eq {q e : Int} {up : Prop} [Decidable up] (hq : 2 ^ 52 ≤ q ∧ q < 2 ^ 53)
    (he : -1000 ≤ e ∧ e ≤ 900) :
    f64.roundRat (f64.roundRat ((if up ∧ q + 1 = powerOfTwo 53 then (q + 1).tdiv 2
        else if up then q + 1 else q : Int) : Rat) *
      f64.value ((((if up ∧ q + 1 = powerOfTwo 53 then e + 1 else e) + 1023) % 2 ^ 64).toNat *
        2 ^ 52 % 2 ^ 64)) = ((if up then q + 1 else q : Int) : Rat) * 2 ^ e := by
  have hlimit : powerOfTwo 53 = 2 ^ 53 := powerOfTwo_eq (by decide)
  have hinteger : ∀ m : Int, 0 ≤ m ∧ m < 2 ^ 53 → f64.roundRat (m : Rat) = m := by
    intro m hm
    have heq := roundRat_significand (e := 0) hm (by omega)
    rw [zpow_zero, mul_one] at heq
    exact heq
  by_cases hcarries : up ∧ q + 1 = powerOfTwo 53
  · obtain ⟨hup, hcarry⟩ := id hcarries
    rw [hlimit] at hcarry
    have hhalf : (q + 1).tdiv 2 = 2 ^ 52 := by rw [hcarry]; rfl
    rw [if_pos hcarries, if_pos hcarries, if_pos hup, hhalf, scale_eq (by omega),
      hinteger _ (by norm_num), roundRat_significand (by norm_num) (by omega), hcarry,
      zpow_add₀ (by norm_num), zpow_one]
    push_cast
    ring
  · rw [if_neg hcarries, if_neg hcarries, scale_eq (by omega)]
    have hm : 0 ≤ (if up then q + 1 else q) ∧ (if up then q + 1 else q) < 2 ^ 53 := by
      rw [hlimit] at hcarries
      by_cases hup : up
      · rw [if_pos hup]
        have hne : q + 1 ≠ 2 ^ 53 := fun heq => hcarries ⟨hup, heq⟩
        omega
      · rw [if_neg hup]
        omega
    rw [hinteger _ hm, roundRat_significand hm (by omega)]

end Value

section Exact

variable {magnitude denominator : Int}

theorem bitLength_range {n : Int} (hn : 0 < n) (hlt : n < 2 ^ 127) :
    1 ≤ bitLength n.toNat ∧ bitLength n.toNat ≤ 127 := by
  obtain ⟨hlow, hhigh⟩ := bitLength_int hn
  constructor
  · by_contra hzero
    rw [show bitLength n.toNat = 0 by omega] at hhigh
    omega
  · by_contra hlarge
    have hpow : (2 : Int) ^ 128 ≤ 2 ^ bitLength n.toNat :=
      pow_le_pow_right₀ (by norm_num) (by omega)
    omega

section

variable (h : Fits magnitude denominator)
include h

theorem Fits.shift_range :
    -71 ≤ quotientShift magnitude denominator ∧ quotientShift magnitude denominator ≤ 181 := by
  have hle : ∀ (n : Int) (k : Nat), 0 < n → n ≤ n * 2 ^ k := by
    intro n k hn
    exact le_mul_of_one_le_right hn.le (one_le_pow₀ (by norm_num))
  have hmagnitude := bitLength_range h.magnitude_pos
    (lt_of_le_of_lt (hle _ _ h.magnitude_pos) h.numerator_lt)
  have hdenominator := bitLength_range h.denominator_pos
    (lt_of_le_of_lt (hle _ _ h.denominator_pos) h.denominator_lt)
  unfold quotientShift
  omega

/-- The scaled quotient over the place of its last kept bit. -/
theorem Fits.scaled (j : Nat) :
    ((magnitude * 2 ^ (quotientShift magnitude denominator).toNat : Int) : Rat) /
        (denominator * 2 ^ (-quotientShift magnitude denominator).toNat * 2 ^ j : Int) =
      (magnitude : Rat) / denominator / 2 ^ (-quotientShift magnitude denominator + j) := by
  have hdenominator : (denominator : Rat) ≠ 0 := by exact_mod_cast h.denominator_pos.ne'
  generalize quotientShift magnitude denominator = s
  have hplace : (2 : Rat) ^ (-s + j) * 2 ^ s.toNat = 2 ^ (-s).toNat * 2 ^ j := by
    rw [← zpow_natCast, ← zpow_natCast, ← zpow_natCast, ← zpow_add₀ (by norm_num),
      ← zpow_add₀ (by norm_num)]
    congr 1
    omega
  have hpos : (0 : Rat) < 2 ^ (-s + j) := by positivity
  rw [div_div, div_eq_div_iff (by push_cast; positivity) (mul_ne_zero hdenominator hpos.ne')]
  push_cast
  calc (magnitude : Rat) * 2 ^ s.toNat * (denominator * 2 ^ (-s + j))
      = magnitude * denominator * (2 ^ (-s + j) * 2 ^ s.toNat) := by ring
    _ = magnitude * (denominator * 2 ^ (-s).toNat * 2 ^ j) := by
        rw [hplace]
        ring

/-- The halved quotient, given back its place, is the rounded exact quotient. -/
theorem Fits.rounded :
    let N := magnitude * 2 ^ (quotientShift magnitude denominator).toNat
    let D := denominator * 2 ^ (-quotientShift magnitude denominator).toNat
    let halved := halve ⟨N / D, -quotientShift magnitude denominator, 0, N % D ≠ 0⟩
    (2 ^ 52 ≤ halved.quotient ∧ halved.quotient < 2 ^ 53) ∧
      (-1000 ≤ halved.exponent ∧ halved.exponent ≤ 900) ∧
        ((if halved.roundBit = 1 ∧ (halved.sticky = true ∨ halved.quotient % 2 = 1) then
          halved.quotient + 1 else halved.quotient : Int) : Rat) * 2 ^ halved.exponent =
            f64.roundRat ((magnitude : Rat) / denominator) := by
  intro N D halved
  obtain ⟨hlow, hhigh⟩ := h.quotient_bounds
  have hN : 0 < N := Int.mul_pos h.magnitude_pos (by positivity)
  have hD : 0 < D := Int.mul_pos h.denominator_pos (by positivity)
  have hhalves : Halves N D ⟨N / D, -quotientShift magnitude denominator, 0, N % D ≠ 0⟩ := by
    refine ⟨rfl, ?_⟩
    dsimp only
    rw [decide_eq_true_eq]
    omega
  have hquotient : 2 ^ 54 ≤ N / D := (Int.le_ediv_iff_mul_le hD).mpr hlow
  obtain ⟨j, hexponent, hhalved, hbounds⟩ := halve_spec hhalves hD hN.le (by
    dsimp only
    omega)
  have hplace : (0 : Int) < D * 2 ^ j := Int.mul_pos hD (by positivity)
  have hj : j ≤ 3 := by
    by_contra hlarge
    have hpow : (2 : Int) ^ 4 ≤ 2 ^ j := pow_le_pow_right₀ (by norm_num) (by omega)
    have hmul : D * 2 ^ 4 ≤ D * 2 ^ j := mul_le_mul_of_nonneg_left hpow hD.le
    have hle := (Int.le_ediv_iff_mul_le hplace).mp (hhalved.quotient ▸ hbounds.1)
    omega
  have hshift := h.shift_range
  dsimp only at hexponent
  refine ⟨hbounds, by rw [hexponent]; omega, ?_⟩
  have hscaled := h.scaled j
  rw [hhalved.rounded hplace, hexponent, hscaled]
  generalize hk : -quotientShift magnitude denominator + (j : Int) = k at *
  have hpow : (0 : Rat) < 2 ^ k := by positivity
  have hx : 0 < (magnitude : Rat) / denominator := by
    have hmagnitude : (0 : Rat) < magnitude := by exact_mod_cast h.magnitude_pos
    have hdenominator : (0 : Rat) < denominator := by exact_mod_cast h.denominator_pos
    positivity
  have hplaceRat : (0 : Rat) < (D * 2 ^ j : Int) := by exact_mod_cast hplace
  have hlast : f64.lastPlace ((magnitude : Rat) / denominator) = k := by
    apply f64.lastPlace_eq
    · rw [abs_of_pos hx, ← le_div_iff₀ hpow, ← hscaled, le_div_iff₀ hplaceRat]
      have hle := (Int.le_ediv_iff_mul_le hplace).mp (hhalved.quotient ▸ hbounds.1)
      exact_mod_cast hle
    · rw [abs_of_pos hx, ← div_lt_iff₀ hpow, ← hscaled, div_lt_iff₀ hplaceRat]
      have hlt := (Int.ediv_lt_iff_lt_mul hplace).mp (hhalved.quotient ▸ hbounds.2)
      exact_mod_cast hlt
    · rw [show f64.place 1 = -1074 from rfl]
      omega
  unfold FloatFormat.roundRat
  rw [hlast]

theorem scaledNumerator_eq :
    (if quotientShift magnitude denominator ≥ 0 then
      i128 (magnitude * powerOfTwo (quotientShift magnitude denominator).toNat) else magnitude) =
        magnitude * 2 ^ (quotientShift magnitude denominator).toNat := by
  have hpos := h.magnitude_pos
  have hlt := h.numerator_lt
  generalize quotientShift magnitude denominator = s at *
  split_ifs with hs
  · have hle : (2 : Int) ^ s.toNat ≤ magnitude * 2 ^ s.toNat :=
      le_mul_of_one_le_left (by positivity) hpos
    have hexponent : s.toNat < 127 := by
      apply (pow_lt_pow_iff_right₀ (by norm_num : (1 : Int) < 2)).mp
      exact lt_of_le_of_lt hle hlt
    have hproduct : 0 < magnitude * 2 ^ s.toNat := by positivity
    rw [powerOfTwo_eq hexponent, i128_eq (by omega)]
  · rw [show s.toNat = 0 by omega, pow_zero, mul_one]

theorem scaledDenominator_eq :
    (if quotientShift magnitude denominator ≥ 0 then denominator else
      i128 (denominator * powerOfTwo (-quotientShift magnitude denominator).toNat)) =
        denominator * 2 ^ (-quotientShift magnitude denominator).toNat := by
  have hpos := h.denominator_pos
  have hlt := h.denominator_lt
  have hrange := h.shift_range
  generalize quotientShift magnitude denominator = s at *
  split_ifs with hs
  · rw [show (-s).toNat = 0 by omega, pow_zero, mul_one]
  · have hproduct : 0 < denominator * 2 ^ (-s).toNat := by positivity
    rw [powerOfTwo_eq (by omega), i128_eq (by omega)]

end

variable {numerator : Int}

/-- The exact quotient is what the code answers, rounded once. -/
theorem exactQuotientToF64_eq (h : Fits |numerator| denominator) :
    exactQuotientToF64 numerator denominator = f64.roundRat ((numerator : Rat) / denominator) := by
  have hne : numerator ≠ 0 := abs_pos.mp h.magnitude_pos
  have hlt : |numerator| < 2 ^ 127 :=
    lt_of_le_of_lt (le_mul_of_one_le_right h.magnitude_pos.le (one_le_pow₀ (by norm_num)))
      h.numerator_lt
  have hmagnitude : (if numerator < 0 then i128 (-numerator) else numerator) = |numerator| := by
    split_ifs with hneg
    · rw [abs_of_neg hneg] at hlt ⊢
      rw [i128_eq (by omega)]
    · rw [abs_of_nonneg (by omega)]
  have hN : 0 ≤ |numerator| * 2 ^ (quotientShift |numerator| denominator).toNat := by positivity
  obtain ⟨hbounds, hexponent, hrounded⟩ := h.rounded
  unfold exactQuotientToF64
  rw [if_neg hne]
  dsimp only
  rw [hmagnitude, scaledNumerator_eq h, scaledDenominator_eq h, tdiv_of_nonneg hN,
    Int.tmod_eq_emod_of_nonneg hN]
  generalize halve _ = halved at *
  rw [Int.tmod_eq_emod_of_nonneg (by omega), assemble_eq hbounds hexponent, hrounded]
  split_ifs with hneg
  · rw [← FloatFormat.roundRat_neg, abs_of_neg hneg]
    push_cast
    rw [neg_div, neg_neg]
  · rw [abs_of_nonneg (by omega)]

/-- A quotient of numbers of at most 127 bits rounds to the nearest float. -/
theorem quotient_nearest (hne : numerator ≠ 0)
    (hnumerator : |numerator| < 2 ^ 127) (hdenominator : 0 < denominator)
    (hlt : denominator < 2 ^ 127) :
    f64.NearestTo ((numerator : Rat) / denominator)
      (f64.roundRat ((numerator : Rat) / denominator)) := by
  have hd : (0 : Rat) < denominator := by exact_mod_cast hdenominator
  have hdOne : (1 : Rat) ≤ denominator := by exact_mod_cast hdenominator
  have hdLt : (denominator : Rat) < 2 ^ (127 : Int) := by exact_mod_cast hlt
  have hnOne : (1 : Rat) ≤ |(numerator : Rat)| := by exact_mod_cast Int.one_le_abs hne
  have hnLt : |(numerator : Rat)| < 2 ^ (127 : Int) := by exact_mod_cast hnumerator
  have habs : |(numerator : Rat) / denominator| = |(numerator : Rat)| / denominator := by
    rw [abs_div, abs_of_pos hd]
  have hx : (numerator : Rat) / denominator ≠ 0 :=
    div_ne_zero (by exact_mod_cast hne) hd.ne'
  have hpos : 0 < |(numerator : Rat) / denominator| := abs_pos.mpr hx
  have hlow : -127 ≤ Int.log 2 |(numerator : Rat) / denominator| := by
    apply (Int.zpow_le_iff_le_log (by norm_num) hpos).mp
    push_cast
    rw [habs, le_div_iff₀ hd, zpow_neg]
    calc (2 ^ (127 : Int))⁻¹ * (denominator : Rat) ≤ (2 ^ (127 : Int))⁻¹ * 2 ^ (127 : Int) :=
          mul_le_mul_of_nonneg_left hdLt.le (by positivity)
      _ = 1 := inv_mul_cancel₀ (by positivity)
      _ ≤ |(numerator : Rat)| := hnOne
  have hhigh : Int.log 2 |(numerator : Rat) / denominator| < 127 := by
    apply (Int.lt_zpow_iff_log_lt (by norm_num) hpos).mp
    push_cast
    rw [habs]
    exact lt_of_le_of_lt (div_le_self (abs_nonneg _) hdOne) hnLt
  apply f64.roundRat_nearest_log hx
  · rw [show f64.place 1 = -1074 from rfl, show (f64.precision : Int) = 53 from rfl]
    omega
  · have hplace : f64.place (2 * f64.bias) = 971 := by
      unfold FloatFormat.place f64
      norm_num
    rw [hplace, show (f64.precision : Int) = 53 from rfl]
    omega

theorem exactQuotientToF64_nearest (h : numerator = 0 ∨ Fits |numerator| denominator) :
    f64.NearestTo ((numerator : Rat) / denominator) (exactQuotientToF64 numerator denominator) := by
  rcases h with rfl | h
  · unfold exactQuotientToF64
    rw [if_pos rfl, Int.cast_zero, zero_div]
    exact f64.nearestTo_zero
  · have hle : ∀ (n : Int) (k : Nat), 0 < n → n ≤ n * 2 ^ k := by
      intro n k hn
      exact le_mul_of_one_le_right hn.le (one_le_pow₀ (by norm_num))
    rw [exactQuotientToF64_eq h]
    exact quotient_nearest (abs_pos.mp h.magnitude_pos)
      (lt_of_le_of_lt (hle _ _ h.magnitude_pos) h.numerator_lt) h.denominator_pos
      (lt_of_le_of_lt (hle _ _ h.denominator_pos) h.denominator_lt)

end Exact

end Wado.Temporal
