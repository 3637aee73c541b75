/-
Division of 128-bit integers is exact, and none of its assertions fails.
-/
import Wado.Int128.U128

namespace Wado.U128

open Words LongDivision

theorem toNat_low32 : low32.toNat = 2 ^ 32 - 1 := rfl

theorem low32_lt_iff (x : UInt64) : x > low32 ↔ 2 ^ 32 ≤ x.toNat := by
  rw [gt_iff_lt, UInt64.lt_iff_toNat_lt, toNat_low32]
  omega

/-! ## Half quotients -/

section Trial

variable {next dn1 dn0 : UInt64}

theorem trialLoop_eq (hnormal : 2 ^ 32 ≤ 2 * dn1.toNat) (hdn1 : dn1.toNat < 2 ^ 32)
    (hdn0 : dn0.toNat < 2 ^ 32) (hnext : next.toNat < 2 ^ 32) {num : Nat}
    (hnum : num < dn1.toNat * 2 ^ 32 + dn0.toNat) (fuel : Nat) (q rhat : UInt64)
    (hq : q.toNat * dn1.toNat + rhat.toNat = num) (hqle : q.toNat ≤ 2 ^ 32 + 1)
    (hlow : (num * 2 ^ 32 + next.toNat) / (dn1.toNat * 2 ^ 32 + dn0.toNat) ≤ q.toNat)
    (hrhat : rhat.toNat < 2 ^ 32) (hfuel : 2 ^ 32 ≤ rhat.toNat + fuel * dn1.toNat) :
    ∃ q', trialLoop next dn1 dn0 fuel q rhat = some q' ∧
      q'.toNat = (num * 2 ^ 32 + next.toNat) / (dn1.toNat * 2 ^ 32 + dn0.toNat) := by
  induction fuel generalizing q rhat with
  | zero => omega
  | succ fuel ih =>
    have hD : 0 < dn1.toNat * 2 ^ 32 + dn0.toNat := by omega
    have hproduct : q.toNat * dn0.toNat < 2 ^ 64 := by
      have hle : q.toNat * dn0.toNat ≤ (2 ^ 32 + 1) * (2 ^ 32 - 1) :=
        Nat.mul_le_mul hqle (by omega)
      omega
    have hjoin : (rhat <<< 32 ||| next).toNat = rhat.toNat * 2 ^ 32 + next.toNat :=
      toNat_or (toNat_shiftLeft_of_lt (s := 32) (by decide) (by
        show rhat.toNat * 2 ^ 32 < 2 ^ 64
        omega)) hnext
    have htest : q * dn0 > (rhat <<< 32 ||| next) ↔
        num * 2 ^ 32 + next.toNat < q.toNat * (dn1.toNat * 2 ^ 32 + dn0.toNat) := by
      rw [gt_iff_lt, UInt64.lt_iff_toNat_lt, toNat_mul_of_lt hproduct, hjoin, lt_mul_iff hq]
    have hdigit := quotient_lt hnum hnext
    by_cases htoo : q > low32 ∨ q * dn0 > (rhat <<< 32 ||| next)
    · have hhigh : (num * 2 ^ 32 + next.toNat) / (dn1.toNat * 2 ^ 32 + dn0.toNat) < q.toNat := by
        rcases htoo with hbig | hlarge
        · rw [low32_lt_iff] at hbig
          omega
        · rw [Nat.div_lt_iff_lt_mul hD]
          exact htest.mp hlarge
      have hpos : 0 < q.toNat := Nat.zero_lt_of_lt hhigh
      have hpred : (q - 1).toNat = q.toNat - 1 := Words.toNat_sub_of_le (y := 1) hpos
      have hgrown : (rhat + dn1).toNat = rhat.toNat + dn1.toNat :=
        toNat_add_of_lt (by omega)
      have hq' : (q - 1).toNat * dn1.toNat + (rhat + dn1).toNat = num := by
        obtain ⟨p, hp⟩ : ∃ p, q.toNat = p + 1 := ⟨q.toNat - 1, by omega⟩
        rw [hp, Nat.add_mul, Nat.one_mul] at hq
        rw [hpred, hgrown, hp, Nat.add_sub_cancel]
        omega
      rw [trialLoop, if_pos htoo]
      by_cases hbreak : rhat + dn1 > low32
      · refine ⟨q - 1, if_pos hbreak, ?_⟩
        rw [low32_lt_iff] at hbreak
        have hfits := @mul_le_of_le (2 ^ 32) dn1.toNat dn0.toNat num next.toNat _ _ hq'
          (by omega) (by omega) hbreak
        have hle := (Nat.le_div_iff_mul_le hD).mpr hfits
        omega
      · dsimp only
        rw [if_neg hbreak]
        rw [low32_lt_iff] at hbreak
        refine ih (q - 1) (rhat + dn1) hq' (by omega) (by omega) (by omega) ?_
        rw [Nat.add_mul, Nat.one_mul] at hfuel
        omega
    · rw [trialLoop, if_neg htoo]
      obtain ⟨-, hfits⟩ := not_or.mp htoo
      rw [htest, Nat.not_lt] at hfits
      have hle := (Nat.le_div_iff_mul_le hD).mpr hfits
      exact ⟨q, rfl, by omega⟩

theorem trialQuotient_eq {num : UInt64} (hnormal : 2 ^ 32 ≤ 2 * dn1.toNat)
    (hdn1 : dn1.toNat < 2 ^ 32) (hdn0 : dn0.toNat < 2 ^ 32) (hnext : next.toNat < 2 ^ 32)
    (hnum : num.toNat < dn1.toNat * 2 ^ 32 + dn0.toNat) :
    ∃ q, trialQuotient num next dn1 dn0 = some q ∧
      q.toNat = (num.toNat * 2 ^ 32 + next.toNat) / (dn1.toNat * 2 ^ 32 + dn0.toNat) := by
  have hpos : 0 < dn1.toNat := by omega
  have hdiv : div64 num dn1 = some (num / dn1) := if_neg (ne_zero_of_pos hpos)
  have hq : (num / dn1).toNat = num.toNat / dn1.toNat := UInt64.toNat_div num dn1
  have hmul : num.toNat / dn1.toNat * dn1.toNat ≤ num.toNat := Nat.div_mul_le_self _ _
  have hproduct : (num / dn1 * dn1).toNat = num.toNat / dn1.toNat * dn1.toNat := by
    rw [← hq]
    apply toNat_mul_of_lt
    rw [hq]
    exact Nat.lt_of_le_of_lt hmul num.toNat_lt
  have hrest : (num - num / dn1 * dn1).toNat = num.toNat % dn1.toNat := by
    rw [Words.toNat_sub_of_le (by omega), hproduct]
    exact sub_div_mul _ _
  have hlt := Nat.mod_lt num.toNat hpos
  have hestimate := first_estimate_le hnum hdn0 hnormal
  have hlow := @div_le_first_estimate (2 ^ 32) dn1.toNat dn0.toNat num.toNat next.toNat hpos hnext
  rw [trialQuotient, hdiv]
  refine trialLoop_eq hnormal hdn1 hdn0 hnext hnum (2 ^ 32) _ _ ?_ (by omega) (by omega)
    (by omega) (by omega)
  rw [hq, hrest, Nat.mul_comm]
  exact Nat.div_add_mod _ _

end Trial

/-! ## A wide dividend over one word -/

/-- The halves of a word. -/
theorem toNat_halves (x : UInt64) :
    (x >>> 32).toNat = x.toNat / 2 ^ 32 ∧ (x &&& low32).toNat = x.toNat % 2 ^ 32 :=
  ⟨toNat_shiftRight (by decide), toNat_and_mask toNat_low32⟩

/-- Both words of a pair shifted up by less than a word. -/
theorem toNat_shifted_pair {hi lo s : UInt64} (hs : s.toNat < 64)
    (hfits : hi.toNat * 2 ^ s.toNat < 2 ^ 64) :
    (if s = 0 then hi <<< s else hi <<< s ||| lo >>> (64 - s)).toNat =
        (hi.toNat * 2 ^ 64 + lo.toNat) * 2 ^ s.toNat / 2 ^ 64 ∧
      (lo <<< s).toNat = (hi.toNat * 2 ^ 64 + lo.toNat) * 2 ^ s.toNat % 2 ^ 64 := by
  have hwide : (hi.toNat * 2 ^ 64 + lo.toNat) * 2 ^ s.toNat =
      hi.toNat * 2 ^ s.toNat * 2 ^ 64 + lo.toNat * 2 ^ s.toNat := by ring
  have hshift := toNat_shiftLeft_of_lt hs hfits
  constructor
  · split_ifs with hzero
    · have hlo := lo.toNat_lt
      have hs0 : s.toNat = 0 := by rw [hzero]; rfl
      rw [hshift, hwide, hs0]
      omega
    · have hpos := pos_of_ne_zero hzero
      have hback : (64 - s).toNat = 64 - s.toNat :=
        Words.toNat_sub_of_le (x := 64) (Nat.le_of_lt hs)
      have hpow : 2 ^ 64 = 2 ^ s.toNat * 2 ^ (64 - s.toNat) := by
        rw [← Nat.pow_add]
        congr 1
        omega
      have hlow : (lo >>> (64 - s)).toNat = lo.toNat * 2 ^ s.toNat / 2 ^ 64 := by
        rw [toNat_shiftRight (by omega), hback, hpow, Nat.mul_comm lo.toNat,
          Nat.mul_div_mul_left _ _ (Nat.two_pow_pos _)]
      have hlowlt : (lo >>> (64 - s)).toNat < 2 ^ s.toNat := by
        rw [hlow]
        apply Nat.div_lt_of_lt_mul
        exact Nat.mul_lt_mul_of_pos_right lo.toNat_lt (Nat.two_pow_pos _)
      rw [toNat_or hshift hlowlt, hlow, hwide, Nat.add_comm (_ * 2 ^ 64),
        Nat.add_mul_div_right _ _ (Nat.two_pow_pos 64), Nat.add_comm]
  · rw [toNat_shiftLeft hs, hwide, Nat.mul_comm _ (2 ^ 64), Nat.mul_add_mod]

/-- A difference of a joined pair and a product is exact when it is a remainder. -/
theorem toNat_remainder {num next q D : UInt64} (hD : 0 < D.toNat)
    (hq : q.toNat = (num.toNat * 2 ^ 32 + next.toNat) / D.toNat) :
    ((num <<< 32) + next - q * D).toNat = (num.toNat * 2 ^ 32 + next.toNat) % D.toNat := by
  have hjoin := toNat_add_mod (toNat_shiftLeft (x := num) (s := 32) (by decide))
    (toNat_mod next)
  have hproduct := toNat_mul_mod (toNat_mod q) (toNat_mod D)
  have hlt := Nat.mod_lt (num.toNat * 2 ^ 32 + next.toNat) hD
  have hrest := sub_div_mul (num.toNat * 2 ^ 32 + next.toNat) D.toNat
  have hle := Nat.div_mul_le_self (num.toNat * 2 ^ 32 + next.toNat) D.toNat
  rw [← hq] at hrest hle
  rw [← hrest] at hlt ⊢
  exact toNat_sub_exact hjoin hproduct hle (Nat.lt_trans hlt D.toNat_lt)

theorem divRemWide_eq {hi lo d : UInt64} (h : hi.toNat < d.toNat) :
    ∃ q r, divRemWide hi lo d = some (q, r) ∧ q.toNat = (hi.toNat * 2 ^ 64 + lo.toNat) / d.toNat ∧
      r.toNat = (hi.toNat * 2 ^ 64 + lo.toNat) % d.toNat := by
  have hd : d ≠ 0 := ne_zero_of_pos (by omega)
  have hcontract : hi < d := UInt64.lt_iff_toNat_lt.mpr h
  by_cases hzero : hi = 0
  · refine ⟨lo / d, lo % d, ?_, ?_, ?_⟩
    · rw [divRemWide, guard, if_pos hcontract, if_pos hzero, div64, rem64, if_neg hd, if_neg hd]
      rfl
    · rw [hzero]
      simp
    · rw [hzero]
      simp
  · obtain ⟨hs, hnormal, hfits⟩ := clz_spec hd
    have hdn := toNat_shiftLeft_of_lt hs hfits
    obtain ⟨hdn1, hdn0⟩ := toNat_halves (d <<< clz d)
    obtain ⟨hun32, hun10⟩ := @toNat_shifted_pair hi lo (clz d) hs
      (Nat.lt_of_le_of_lt (Nat.mul_le_mul_right _ (Nat.le_of_lt h)) hfits)
    obtain ⟨hun1, hun0⟩ := toNat_halves (lo <<< clz d)
    have hwide : (hi.toNat * 2 ^ 64 + lo.toNat) * 2 ^ (clz d).toNat <
        d.toNat * 2 ^ (clz d).toNat * 2 ^ 64 := by
      have hlo := lo.toNat_lt
      rw [Nat.mul_right_comm]
      exact Nat.mul_lt_mul_of_pos_right (by omega) (Nat.two_pow_pos _)
    have hquotient : (hi.toNat * 2 ^ 64 + lo.toNat) * 2 ^ (clz d).toNat /
        (d.toNat * 2 ^ (clz d).toNat) = (hi.toNat * 2 ^ 64 + lo.toNat) / d.toNat :=
      Nat.mul_div_mul_right _ _ (Nat.two_pow_pos _)
    have hremainder : (hi.toNat * 2 ^ 64 + lo.toNat) * 2 ^ (clz d).toNat %
        (d.toNat * 2 ^ (clz d).toNat) =
          (hi.toNat * 2 ^ 64 + lo.toNat) % d.toNat * 2 ^ (clz d).toNat :=
      Nat.mul_mod_mul_right _ _ _
    rw [← hdn] at hnormal hwide hquotient hremainder
    obtain ⟨dn, hdnEq⟩ : ∃ dn, d <<< clz d = dn := ⟨_, rfl⟩
    obtain ⟨un32, hun32Eq⟩ : ∃ un32, (if clz d = 0 then hi <<< clz d
      else hi <<< clz d ||| lo >>> (64 - clz d)) = un32 := ⟨_, rfl⟩
    rw [hdnEq] at hnormal hwide hquotient hremainder hdn1 hdn0
    rw [hun32Eq] at hun32
    rw [hun10] at hun1 hun0
    obtain ⟨U, hU⟩ : ∃ U, (hi.toNat * 2 ^ 64 + lo.toNat) * 2 ^ (clz d).toNat = U := ⟨_, rfl⟩
    rw [hU] at hwide hquotient hremainder hun32 hun1 hun0
    have hsplit : (dn >>> 32).toNat * 2 ^ 32 + (dn &&& low32).toNat = dn.toNat := by
      rw [hdn1, hdn0]
      omega
    have hnormal1 : 2 ^ 32 ≤ 2 * (dn >>> 32).toNat := by omega
    have hdn1lt : (dn >>> 32).toNat < 2 ^ 32 := by
      have hlt := dn.toNat_lt
      omega
    have hdn0lt : (dn &&& low32).toNat < 2 ^ 32 := by omega
    have hpos : 0 < dn.toNat := by omega
    have hun32lt : un32.toNat < dn.toNat := by
      rw [hun32]
      exact Nat.div_lt_of_lt_mul (by rw [Nat.mul_comm]; exact hwide)
    obtain ⟨q1, hq1, hq1Eq⟩ := @trialQuotient_eq ((lo <<< clz d) >>> 32) _ _ un32 hnormal1 hdn1lt
      hdn0lt (by omega) (by rw [hsplit]; exact hun32lt)
    rw [hsplit] at hq1Eq
    have hun21 := toNat_remainder hpos hq1Eq
    obtain ⟨un21, hun21Eq⟩ : ∃ un21,
      (un32 <<< 32) + (lo <<< clz d) >>> 32 - q1 * dn = un21 := ⟨_, rfl⟩
    rw [hun21Eq] at hun21
    have hun21lt : un21.toNat < dn.toNat := by
      rw [hun21]
      exact Nat.mod_lt _ hpos
    obtain ⟨q0, hq0, hq0Eq⟩ := @trialQuotient_eq ((lo <<< clz d) &&& low32) _ _ un21 hnormal1
      hdn1lt hdn0lt (by omega) (by rw [hsplit]; exact hun21lt)
    rw [hsplit] at hq0Eq
    have hrest := toNat_remainder hpos hq0Eq
    have hdigits : U = (un32.toNat * 2 ^ 32 + ((lo <<< clz d) >>> 32).toNat) * 2 ^ 32 +
        ((lo <<< clz d) &&& low32).toNat := by omega
    refine ⟨q1 <<< 32 ||| q0,
      ((un21 <<< 32) + ((lo <<< clz d) &&& low32) - q0 * dn) >>> clz d, ?_, ?_, ?_⟩
    · have hassert : un21 < dn := UInt64.lt_iff_toNat_lt.mpr hun21lt
      simp only [divRemWide, guard, hcontract, hzero, hdnEq, hun32Eq, hq1, hun21Eq, hassert, hq0,
        if_true, if_false, Option.pure_def, Option.bind_eq_bind, Option.bind_some]
    · have hq1lt : q1.toNat < 2 ^ 32 := by
        rw [hq1Eq]
        exact quotient_lt hun32lt (by omega)
      have hq0lt : q0.toNat < 2 ^ 32 := by
        rw [hq0Eq]
        exact quotient_lt hun21lt (by omega)
      have hshift : (q1 <<< 32).toNat = q1.toNat * 2 ^ 32 :=
        toNat_shiftLeft_of_lt (s := 32) (by decide) (by
          show q1.toNat * 2 ^ 32 < 2 ^ 64
          omega)
      rw [toNat_or hshift hq0lt, hq1Eq, hq0Eq, hun21, ← div_two_digits _ _ _ _ hpos, ← hdigits]
      exact hquotient
    · rw [toNat_shiftRight hs, hrest, hun21, ← mod_two_digits, ← hdigits, hremainder]
      exact Nat.mul_div_cancel _ (Nat.two_pow_pos _)

/-! ## The whole division -/

/-- The top word of a divisor past 64 bits, shifted up by its leading zeros. -/
theorem toNat_top {x : U128} (hhigh : x.high ≠ 0) : (if clz x.high = 0 then x.high <<< clz x.high
        else x.high <<< clz x.high ||| x.low >>> (64 - clz x.high)).toNat =
      x.toNat / 2 ^ (64 - (clz x.high).toNat) := by
  obtain ⟨hs, hnormal, hfits⟩ := clz_spec hhigh
  have hpow : 2 ^ 64 = 2 ^ (64 - (clz x.high).toNat) * 2 ^ (clz x.high).toNat := by
    rw [← Nat.pow_add]
    congr 1
    omega
  have htop := (@toNat_shifted_pair x.high x.low _ hs hfits).1
  rw [htop, ← toNat]
  conv_lhs => rw [hpow]
  exact Nat.mul_div_mul_right _ _ (Nat.two_pow_pos _)

theorem top_ge {x : U128} (hhigh : x.high ≠ 0) :
    2 ^ 63 ≤ x.toNat / 2 ^ (64 - (clz x.high).toNat) := by
  obtain ⟨hs, hnormal, hfits⟩ := clz_spec hhigh
  rw [Nat.le_div_iff_mul_le (Nat.two_pow_pos _)]
  apply Nat.le_of_mul_le_mul_right _ (Nat.two_pow_pos (clz x.high).toNat)
  calc 2 ^ 63 * 2 ^ (64 - (clz x.high).toNat) * 2 ^ (clz x.high).toNat
      = 2 ^ 63 * 2 ^ 64 := by
        rw [Nat.mul_assoc, ← Nat.pow_add, Nat.sub_add_cancel (Nat.le_of_lt hs)]
    _ ≤ x.high.toNat * 2 ^ (clz x.high).toNat * 2 ^ 64 := Nat.mul_le_mul_right _ hnormal
    _ = x.high.toNat * 2 ^ 64 * 2 ^ (clz x.high).toNat := Nat.mul_right_comm _ _ _
    _ ≤ x.toNat * 2 ^ (clz x.high).toNat := Nat.mul_le_mul_right _ (Nat.le_add_right _ _)

/-- The dividend halved, as two words. -/
theorem toNat_half (x : U128) :
    (x.high >>> 1).toNat * 2 ^ 64 + (x.low >>> 1 ||| x.high <<< 63).toNat = x.toNat / 2 ∧
      (x.high >>> 1).toNat < 2 ^ 63 := by
  have hhigh := x.high.toNat_lt
  have hlow := x.low.toNat_lt
  have hshift : (x.high >>> 1).toNat = x.high.toNat / 2 := toNat_shiftRight (by decide)
  have hlowHalf : (x.low >>> 1).toNat = x.low.toNat / 2 := toNat_shiftRight (by decide)
  have htop : (x.high <<< 63).toNat = x.high.toNat % 2 * 2 ^ 63 := by
    rw [toNat_shiftLeft (by decide)]
    show x.high.toNat * 2 ^ 63 % 2 ^ 64 = _
    omega
  have hjoin : (x.low >>> 1 ||| x.high <<< 63).toNat =
      x.high.toNat % 2 * 2 ^ 63 + x.low.toNat / 2 := by
    rw [UInt64.or_comm, toNat_or htop (by omega), hlowHalf]
  rw [hshift, hjoin, toNat]
  omega

/-- The division by a divisor past 64 bits, from the estimate on. -/
theorem divRem_long {x d : U128} (hhigh : d.high ≠ 0) (hle : d.toNat ≤ x.toNat) :
    ∃ q r, divRem x d = some (q, r) ∧ q.toNat = x.toNat / d.toNat ∧
      r.toNat = x.toNat % d.toNat := by
  obtain ⟨hs, -, -⟩ := clz_spec hhigh
  obtain ⟨dn, hdnEq⟩ : ∃ dn, (if clz d.high = 0 then d.high <<< clz d.high
    else d.high <<< clz d.high ||| d.low >>> (64 - clz d.high)) = dn := ⟨_, rfl⟩
  have hdn := toNat_top hhigh
  have hge := top_ge hhigh
  rw [hdnEq] at hdn
  rw [← hdn] at hge
  obtain ⟨hhalf, hhalfHigh⟩ := toNat_half x
  obtain ⟨estimate, rest, hwide, hestimate, -⟩ :=
    @divRemWide_eq (x.high >>> 1) (x.low >>> 1 ||| x.high <<< 63) dn (by omega)
  rw [hhalf] at hestimate
  -- What the estimate divides by, and what it leaves out of the divisor.
  obtain ⟨t, ht⟩ : ∃ t, 2 ^ (64 - (clz d.high).toNat) = t := ⟨_, rfl⟩
  have htpos : 1 ≤ t := by
    rw [← ht]
    exact Nat.two_pow_pos _
  rw [ht] at hdn
  have hV : d.toNat = dn.toNat * t + d.toNat % t := by
    rw [hdn, Nat.mul_comm]
    exact (Nat.div_add_mod _ _).symm
  have hWpos : 0 < dn.toNat * t := Nat.mul_pos (by omega) htpos
  have hcut : d.toNat % t * 2 ^ 128 ≤ dn.toNat * t * (dn.toNat * t) :=
    cut_small (Nat.mod_lt _ htpos) (Nat.mul_le_mul_right t hge) (by norm_num) htpos
  have hlow := estimate_pred_mul_le hV hWpos x.toNat_lt hcut
  have hhighBound := div_le_estimate (N := x.toNat) hV hWpos
  obtain ⟨q, hqEq⟩ : ∃ q, estimate >>> (63 - clz d.high) = q := ⟨_, rfl⟩
  have hq : q.toNat = x.toNat / (dn.toNat * t) := by
    have hback : (63 - clz d.high).toNat = 63 - (clz d.high).toNat :=
      Words.toNat_sub_of_le (x := 63) (Nat.le_of_lt_succ hs)
    have htwice : 2 * (dn.toNat * 2 ^ (63 - (clz d.high).toNat)) = dn.toNat * t := by
      rw [← ht, Nat.mul_left_comm, ← Nat.pow_succ']
      congr 2
      omega
    rw [← hqEq, toNat_shiftRight (by omega), hback, hestimate, Nat.div_div_eq_div_mul,
      Nat.div_div_eq_div_mul, htwice]
  rw [← hq] at hlow hhighBound
  have hqpos : 1 ≤ q.toNat := by
    rw [hq, Nat.le_div_iff_mul_le hWpos]
    omega
  have hpred : (q - 1).toNat = q.toNat - 1 := Words.toNat_sub_of_le (y := 1) hqpos
  have hproduct : ((fromU64 (q - 1)).mul d).toNat = (q.toNat - 1) * d.toNat := by
    rw [toNat_mul, toNat_fromU64, hpred]
    exact Nat.mod_eq_of_lt (Nat.lt_of_le_of_lt hlow x.toNat_lt)
  have hrem : (x.sub ((fromU64 (q - 1)).mul d)).toNat = x.toNat - (q.toNat - 1) * d.toNat := by
    rw [toNat_sub_of_le (by omega), hproduct]
  have hassert : q ≠ 0 := ne_zero_of_pos hqpos
  have hnotzero : ¬ (d.low = 0 ∧ d.high = 0) := fun h => hhigh h.2
  have hnotlt : ¬ x.lt d = true := by
    rw [lt_iff]
    omega
  have hrun : divRem x d = if (x.sub ((fromU64 (q - 1)).mul d)).ge d then
      some (fromU64 (q - 1 + 1), (x.sub ((fromU64 (q - 1)).mul d)).sub d)
      else some (fromU64 (q - 1), x.sub ((fromU64 (q - 1)).mul d)) := by
    have hguard : @guard Option _ (q ≠ 0) _ = some () := if_pos hassert
    rw [divRem, if_neg hnotzero, if_neg hhigh, if_neg hnotlt]
    dsimp only
    rw [hdnEq, hwide]
    simp only [hqEq, Option.pure_def, Option.bind_eq_bind, Option.bind_some]
    rw [hguard, Option.bind_some]
  rw [hrun]
  obtain ⟨p, hp⟩ : ∃ p, q.toNat = p + 1 := ⟨q.toNat - 1, by omega⟩
  rw [hp, Nat.add_sub_cancel] at hpred hrem hlow
  rw [hp] at hhighBound
  by_cases hcorrect : (x.sub ((fromU64 (q - 1)).mul d)).ge d = true
  · rw [if_pos hcorrect]
    rw [ge_iff] at hcorrect
    have hdone : p + 1 = x.toNat / d.toNat := by
      apply eq_div_of_bounds _ hhighBound
      rw [Nat.add_mul, Nat.one_mul]
      omega
    refine ⟨_, _, rfl, ?_, ?_⟩
    · have hback : (q - 1 + 1).toNat = p + 1 := by
        have hfits := q.toNat_lt
        have hone : (1 : UInt64).toNat = 1 := rfl
        rw [toNat_add_of_lt (by omega), hpred, hone]
      rw [toNat_fromU64, hback, hdone]
    · rw [toNat_sub_of_le hcorrect, hrem, ← sub_div_mul, ← hdone, Nat.add_mul, Nat.one_mul]
      omega
  · rw [if_neg hcorrect]
    rw [ge_iff, hrem] at hcorrect
    have hdone : p = x.toNat / d.toNat := by
      apply eq_div_of_bounds hlow
      rw [Nat.add_mul, Nat.one_mul]
      omega
    refine ⟨_, _, rfl, ?_, ?_⟩
    · rw [toNat_fromU64, hpred, hdone]
    · rw [hrem, hdone]
      exact sub_div_mul _ _

/-- A dividend past 64 bits over one word. -/
theorem divRem_wide {x d : U128} (hlow : d.low ≠ 0) (hhigh : d.high = 0) (hx : x.high ≠ 0) :
    ∃ q r, divRem x d = some (q, r) ∧ q.toNat = x.toNat / d.toNat ∧
      r.toNat = x.toNat % d.toNat := by
  have hpos := pos_of_ne_zero hlow
  have hd : d.toNat = d.low.toNat := by
    rw [toNat, hhigh]
    simp
  have hmod : (x.high % d.low).toNat = x.high.toNat % d.low.toNat := UInt64.toNat_mod _ _
  have hlt : (x.high % d.low).toNat < d.low.toNat := by
    rw [hmod]
    exact Nat.mod_lt _ hpos
  obtain ⟨qLow, r, hwide, hq, hr⟩ := @divRemWide_eq _ x.low _ hlt
  rw [hmod] at hq hr
  refine ⟨fromPair qLow (x.high / d.low), fromU64 r, ?_, ?_, ?_⟩
  · have hnotzero : ¬ (d.low = 0 ∧ d.high = 0) := fun h => hlow h.1
    simp only [divRem, if_neg hnotzero, if_pos hhigh, if_neg hx, rem64, if_neg hlow, hwide, div64,
      Option.pure_def, Option.bind_eq_bind, Option.bind_some]
  · rw [toNat_fromPair, hq, UInt64.toNat_div, hd, toNat]
    exact (div_two_digits _ _ _ _ hpos).symm
  · rw [toNat_fromU64, hr, hd, toNat]
    exact (mod_two_digits _ _ _ _).symm

/-- For every divisor but zero the division returns, with no assertion failed,
the quotient and the remainder of the numbers. -/
theorem divRem_exact (x d : U128) (hd : d ≠ zero) :
    ∃ q r, divRem x d = some (q, r) ∧ q.toNat = x.toNat / d.toNat ∧
      r.toNat = x.toNat % d.toNat := by
  by_cases hhigh : d.high = 0
  · have hlow : d.low ≠ 0 := by
      intro hlow
      apply hd
      rw [← toNat_inj, toNat, hhigh, hlow]
      rfl
    by_cases hx : x.high = 0
    · have hxNat : x.toNat = x.low.toNat := by
        rw [toNat, hx]
        simp
      have hdNat : d.toNat = d.low.toNat := by
        rw [toNat, hhigh]
        simp
      refine ⟨fromU64 (x.low / d.low), fromU64 (x.low % d.low), ?_, ?_, ?_⟩
      · have hnotzero : ¬ (d.low = 0 ∧ d.high = 0) := fun h => hlow h.1
        simp only [divRem, if_neg hnotzero, if_pos hhigh, if_pos hx, div64, rem64, if_neg hlow,
          Option.pure_def, Option.bind_eq_bind, Option.bind_some]
      · rw [toNat_fromU64, UInt64.toNat_div, hxNat, hdNat]
      · rw [toNat_fromU64, UInt64.toNat_mod, hxNat, hdNat]
    · exact divRem_wide hlow hhigh hx
  · by_cases hlt : x.toNat < d.toNat
    · refine ⟨zero, x, ?_, ?_, ?_⟩
      · have hnotzero : ¬ (d.low = 0 ∧ d.high = 0) := fun h => hhigh h.2
        have hless : x.lt d = true := (lt_iff x d).mpr hlt
        simp only [divRem, if_neg hnotzero, if_neg hhigh, if_pos hless, Option.pure_def]
      · rw [toNat_zero, Nat.div_eq_of_lt hlt]
      · rw [Nat.mod_eq_of_lt hlt]
    · exact divRem_long hhigh (Nat.le_of_not_lt hlt)

/-- Division of 128-bit integers is correct and does not trap. -/
theorem divRem_correct (x d : U128) (hd : d ≠ zero) :
    ∃ q r, divRem x d = some (q, r) ∧ q.toNat * d.toNat + r.toNat = x.toNat ∧
      r.toNat < d.toNat := by
  have hpos : 0 < d.toNat := by
    apply Nat.pos_of_ne_zero
    intro hzero
    exact hd (toNat_inj.mp hzero)
  obtain ⟨q, r, hrun, hq, hr⟩ := divRem_exact x d hd
  refine ⟨q, r, hrun, ?_, ?_⟩
  · rw [hq, hr, Nat.mul_comm]
    exact Nat.div_add_mod _ _
  · rw [hr]
    exact Nat.mod_lt _ hpos

/-- The greatest dividend over a divisor just past 64 bits. -/
theorem divRem_correct_greatest :
    ∃ q r, divRem ⟨0xffffffffffffffff, 0xffffffffffffffff⟩ ⟨1, 1⟩ = some (q, r) ∧
      q.toNat * toNat ⟨1, 1⟩ + r.toNat = toNat ⟨0xffffffffffffffff, 0xffffffffffffffff⟩ ∧
      r.toNat < toNat ⟨1, 1⟩ :=
  divRem_correct ⟨0xffffffffffffffff, 0xffffffffffffffff⟩ ⟨1, 1⟩ (by decide)

end Wado.U128
