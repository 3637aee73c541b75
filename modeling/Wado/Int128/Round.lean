/-
The conversions of 128-bit integers to floats round to nearest, ties to even.
-/
import Wado.Int128.U128
import Wado.FloatFormat

namespace Wado

open Words FloatFormat

def f64 : FloatFormat := ⟨53, 1023, by decide, by decide⟩

def f32 : FloatFormat := ⟨24, 127, by decide, by decide⟩

/-- The native conversions of a word, which round to nearest, ties to even. -/
def u64AsF64 (value : UInt64) : UInt64 := UInt64.ofNat (f64.roundNat value.toNat)

def u64AsF32 (value : UInt64) : UInt32 := UInt32.ofNat (f32.roundNat value.toNat)

/-- The position of the highest bit set, counted from one. -/
def u64BitLen (x : UInt64) : Int := 64 - ((clz x).toNat : Int)

namespace U128

/-- A value past 64 bits as a mantissa and the exponent of its leading bit. -/
def roundToMantissa (x : U128) (mantBits : Int) : Option (UInt64 × Int) := do
  guard (x.high ≠ 0)
  let hbits := u64BitLen x.high
  let shift := hbits + (62 - mantBits)
  let (a, sticky) : UInt64 × UInt64 :=
    if shift ≥ 64 then
      let t := UInt64.ofInt (shift - 64)
      (x.high >>> t, if x.low ≠ 0 ∨ x.high &&& (1 <<< t - 1) ≠ 0 then 1 else 0)
    else
      let sh := UInt64.ofInt shift
      (x.low >>> sh ||| x.high <<< (64 - sh), if x.low &&& (1 <<< sh - 1) ≠ 0 then 1 else 0)
  -- Bit 1 is the guard bit and bit 0 the rest; the mantissa's last bit is copied
  -- into bit 0, so that one more carries into the mantissa when it should round up.
  let a := a ||| sticky
  let a := if a &&& 4 ≠ 0 then a ||| 1 else a
  let a := (a + 1) >>> 2
  let exp := 64 + hbits - 1
  let (a, exp) := if a >>> UInt64.ofInt mantBits ≠ 0 then (a >>> 1, exp + 1) else (a, exp)
  guard (a >>> UInt64.ofInt (mantBits - 1) = 1)
  return (a, exp)

/-- The bits of the nearest `f64`. -/
def asF64 (x : U128) : Option UInt64 := do
  if x.high = 0 then return u64AsF64 x.low
  let (m, exp) ← x.roundToMantissa 53
  let biased := UInt64.ofInt (exp + 1023)
  let mantissa := m &&& ((1 : UInt64) <<< 52 - 1)
  return biased <<< 52 ||| mantissa

/-- The bits of the nearest `f32`. -/
def asF32 (x : U128) : Option UInt32 := do
  if x.high = 0 then return u64AsF32 x.low
  let (m, exp) ← x.roundToMantissa 24
  let biased := UInt32.ofInt (exp + 127)
  let mantissa := m.toUInt32 &&& ((1 : UInt32) <<< 23 - 1)
  return biased <<< 23 ||| mantissa

/-! ## The bits kept -/

variable {x : U128}

theorem log2_toNat (hhigh : x.high ≠ 0) : x.toNat.log2 = x.high.toNat.log2 + 64 := by
  have hpos := pos_of_ne_zero hhigh
  have hlow := x.low.toNat_lt
  have hge := Nat.log2_self_le (Nat.ne_of_gt hpos)
  have hlt := @Nat.lt_log2_self x.high.toNat
  have hne : x.toNat ≠ 0 := by
    unfold toNat
    omega
  rw [Nat.log2_eq_iff hne, toNat]
  constructor
  · rw [Nat.pow_add]
    omega
  · rw [Nat.add_right_comm, Nat.pow_add]
    omega

theorem u64BitLen_eq {x : UInt64} (hx : x ≠ 0) : u64BitLen x = x.toNat.log2 + 1 := by
  have hlog := log2_lt hx
  rw [u64BitLen, toNat_clz hx]
  omega

/-- The kept bits and the sticky bit, shifted by at least a word. -/
theorem kept_above {x : U128} {t : UInt64} (ht : t.toNat < 64) :
    (x.high >>> t).toNat = x.toNat / 2 ^ (64 + t.toNat) ∧
      ((x.low ≠ 0 ∨ x.high &&& (1 <<< t - 1) ≠ 0) ↔ x.toNat % 2 ^ (64 + t.toNat) ≠ 0) := by
  have hlow := x.low.toNat_lt
  have hdiv : x.toNat / 2 ^ 64 = x.high.toNat := by
    unfold toNat
    omega
  have hmod : x.toNat % 2 ^ 64 = x.low.toNat := by
    unfold toNat
    omega
  have hmask : (x.high &&& (1 <<< t - 1)).toNat = x.high.toNat % 2 ^ t.toNat :=
    toNat_and_mask (toNat_mask ht)
  constructor
  · rw [toNat_shiftRight ht, Nat.pow_add, ← Nat.div_div_eq_div_mul, hdiv]
  · have hsplit : x.toNat % 2 ^ (64 + t.toNat) =
        x.low.toNat + 2 ^ 64 * (x.high.toNat % 2 ^ t.toNat) := by
      rw [Nat.pow_add, Nat.mod_mul, hdiv, hmod]
    have hlowZero : x.low = 0 ↔ x.low.toNat = 0 := by
      rw [← UInt64.toNat_inj]
      rfl
    have hmaskZero : x.high &&& (1 <<< t - 1) = 0 ↔ x.high.toNat % 2 ^ t.toNat = 0 := by
      rw [← hmask, ← UInt64.toNat_inj]
      rfl
    rw [hsplit, ne_eq, ne_eq, ne_eq, hlowZero, hmaskZero]
    omega

/-- The same, shifted by less than a word. -/
theorem kept_below {x : U128} {s : UInt64} (hs : s.toNat < 64) (hpos : 0 < s.toNat)
    (hfits : x.high.toNat < 2 ^ s.toNat) :
    (x.low >>> s ||| x.high <<< (64 - s)).toNat = x.toNat / 2 ^ s.toNat ∧
      (x.low &&& (1 <<< s - 1) ≠ 0 ↔ x.toNat % 2 ^ s.toNat ≠ 0) := by
  have hpow : 2 ^ 64 = 2 ^ (64 - s.toNat) * 2 ^ s.toNat := by
    rw [← Nat.pow_add]
    congr 1
    omega
  have hback : (64 - s).toNat = 64 - s.toNat :=
    Words.toNat_sub_of_le (x := 64) (Nat.le_of_lt hs)
  have hhigh : (x.high <<< (64 - s)).toNat = x.high.toNat * 2 ^ (64 - s.toNat) := by
    rw [toNat_shiftLeft_of_lt (by omega), hback]
    rw [hback, hpow, Nat.mul_comm]
    exact Nat.mul_lt_mul_of_pos_left hfits (Nat.two_pow_pos _)
  have hlow : (x.low >>> s).toNat < 2 ^ (64 - s.toNat) := by
    rw [toNat_shiftRight hs]
    apply Nat.div_lt_of_lt_mul
    rw [Nat.mul_comm, ← hpow]
    exact x.low.toNat_lt
  have hwide : x.toNat = x.low.toNat + 2 ^ s.toNat * (x.high.toNat * 2 ^ (64 - s.toNat)) := by
    rw [toNat, hpow]
    ring
  have hmask : (x.low &&& (1 <<< s - 1)).toNat = x.low.toNat % 2 ^ s.toNat :=
    toNat_and_mask (toNat_mask hs)
  constructor
  · rw [UInt64.or_comm, toNat_or hhigh hlow, toNat_shiftRight hs, hwide,
      Nat.add_mul_div_left _ _ (Nat.two_pow_pos _), Nat.add_comm]
  · have hmaskZero : x.low &&& (1 <<< s - 1) = 0 ↔ x.low.toNat % 2 ^ s.toNat = 0 := by
      rw [← hmask, ← UInt64.toNat_inj]
      rfl
    rw [ne_eq, ne_eq, hmaskZero, hwide, Nat.add_mul_mod_self_left]

/-- The kept bits and the sticky bit at either side of a word. -/
theorem kept_eq (hhigh : x.high ≠ 0) {p : Nat} (hp : p ≤ 61) {shift : Int}
    (hshift : shift = (x.high.toNat.log2 + 1 : Nat) + (62 - (p : Int))) :
    ∃ a sticky : UInt64, (if shift ≥ 64 then
        (x.high >>> UInt64.ofInt (shift - 64),
          if x.low ≠ 0 ∨ x.high &&& (1 <<< UInt64.ofInt (shift - 64) - 1) ≠ 0 then (1 : UInt64)
          else 0)
      else
        (x.low >>> UInt64.ofInt shift ||| x.high <<< (64 - UInt64.ofInt shift),
          if x.low &&& (1 <<< UInt64.ofInt shift - 1) ≠ 0 then 1 else 0)) = (a, sticky) ∧
      a.toNat = x.toNat / 2 ^ (x.high.toNat.log2 + 63 - p) ∧
      sticky = if x.toNat % 2 ^ (x.high.toNat.log2 + 63 - p) ≠ 0 then 1 else 0 := by
  have hlog := log2_lt hhigh
  by_cases habove : shift ≥ 64
  · obtain ⟨n, hn⟩ : ∃ n, x.high.toNat.log2 + 63 - p = 64 + n :=
      ⟨x.high.toNat.log2 + 63 - p - 64, by omega⟩
    have ht : (UInt64.ofInt (shift - 64)).toNat = n := toNat_ofInt (by omega) (by omega)
    obtain ⟨hkept, hsticky⟩ := @kept_above x (UInt64.ofInt (shift - 64)) (by omega)
    rw [ht] at hkept hsticky
    refine ⟨_, _, if_pos habove, ?_, ?_⟩
    · rw [hkept, hn]
    · rw [hn]
      simp only [hsticky]
  · have hs : (UInt64.ofInt shift).toNat = x.high.toNat.log2 + 63 - p :=
      toNat_ofInt (by omega) (by omega)
    have hfits : x.high.toNat < 2 ^ (UInt64.ofInt shift).toNat :=
      Nat.lt_of_lt_of_le Nat.lt_log2_self (Nat.pow_le_pow_right (by decide) (by omega))
    obtain ⟨hkept, hsticky⟩ := @kept_below x (UInt64.ofInt shift) (by omega) (by omega) hfits
    rw [hs] at hkept hsticky
    refine ⟨_, _, if_neg habove, hkept, ?_⟩
    simp only [hsticky]

/-- The rounding of the kept bits, on words. -/
theorem toNat_rounded {a sticky : UInt64} {c : Prop} [Decidable c] (ha : a.toNat < 2 ^ 63)
    (hsticky : sticky = if c then 1 else 0) :
    (((if (a ||| sticky) &&& 4 ≠ 0 then a ||| sticky ||| 1 else a ||| sticky) + 1) >>> 2).toNat =
      (a.toNat / 2 * 2 + (if c ∨ a.toNat % 2 = 1 ∨ a.toNat / 4 % 2 = 1 then 1 else 0) + 1) / 4 := by
  have hone : (1 : UInt64).toNat = 1 := rfl
  have hset : (a ||| sticky).toNat = if c then a.toNat / 2 * 2 + 1 else a.toNat := by
    rw [hsticky]
    split_ifs
    · exact toNat_or_one a
    · rw [UInt64.or_zero]
  have hodd : (a ||| sticky) &&& 4 ≠ 0 ↔ a.toNat / 4 % 2 = 1 := by
    rw [and_bit_ne_zero (a ||| sticky) 4 (i := 2) rfl, hset]
    split_ifs
    · omega
    · exact Iff.rfl
  have hbits : (if (a ||| sticky) &&& 4 ≠ 0 then a ||| sticky ||| 1 else a ||| sticky).toNat =
      a.toNat / 2 * 2 + (if c ∨ a.toNat % 2 = 1 ∨ a.toNat / 4 % 2 = 1 then 1 else 0) := by
    by_cases hkeep : a.toNat / 4 % 2 = 1
    · have hany : c ∨ a.toNat % 2 = 1 ∨ a.toNat / 4 % 2 = 1 := Or.inr (Or.inr hkeep)
      rw [if_pos (hodd.mpr hkeep), toNat_or_one, hset, if_pos hany]
      split_ifs
      · omega
      · rfl
    · rw [if_neg (fun h => hkeep (hodd.mp h)), hset]
      by_cases hc : c
      · rw [if_pos hc, if_pos (.inl hc)]
      · rw [if_neg hc]
        split_ifs with h
        · rcases h with h | h | h
          · exact absurd h hc
          · omega
          · exact absurd h hkeep
        · omega
  have hle : (if c ∨ a.toNat % 2 = 1 ∨ a.toNat / 4 % 2 = 1 then 1 else 0) ≤ 1 := by
    split_ifs <;> omega
  rw [toNat_shiftRight (by decide), toNat_add_of_lt (by rw [hbits, hone]; omega), hbits, hone]
  rfl

/-! ## The mantissa -/

/-- The mantissa and the exponent make the pattern that the number rounds to,
and the assertion does not fail. -/
theorem roundToMantissa_eq (fmt : FloatFormat) (hp : fmt.precision ≤ 61) (hhigh : x.high ≠ 0) :
    ∃ (m : UInt64) (exp : Nat), x.roundToMantissa fmt.precision = some (m, (exp : Int)) ∧
      fmt.binade ≤ m.toNat ∧ m.toNat < 2 * fmt.binade ∧
      fmt.pattern exp m.toNat = fmt.pattern x.toNat.log2 (fmt.significand x.toNat) := by
  have h2 := fmt.two_le_precision
  have hlog := log2_toNat hhigh
  have hlen := u64BitLen_eq hhigh
  have hx : x.toNat ≠ 0 := by
    have hpos := pos_of_ne_zero hhigh
    unfold toNat
    omega
  have hshift : u64BitLen x.high + (62 - (fmt.precision : Int)) =
      (x.high.toNat.log2 + 1 : Nat) + (62 - (fmt.precision : Int)) := by
    rw [hlen]
    push_cast
    rfl
  obtain ⟨a, sticky, hkept, ha, hsticky⟩ := kept_eq hhigh hp hshift
  obtain ⟨hqlow, hqhigh⟩ := fmt.significand_bounds hx
  have hsignificand : fmt.significand x.toNat =
      roundShift x.toNat (x.high.toNat.log2 + 63 - fmt.precision + 2) := by
    rw [significand, if_neg (by omega)]
    congr 1
    omega
  have halt : a.toNat < 2 ^ 63 := by
    rw [ha]
    apply Nat.div_lt_of_lt_mul
    have hlt := @Nat.lt_log2_self x.toNat
    have hle : 2 ^ (x.toNat.log2 + 1) ≤
        2 ^ (x.high.toNat.log2 + 63 - fmt.precision + (fmt.precision + 2)) :=
      Nat.pow_le_pow_right (by decide) (by omega)
    have hroom : 2 ^ (fmt.precision + 2) ≤ 2 ^ 63 := Nat.pow_le_pow_right (by decide) (by omega)
    rw [Nat.pow_add 2 (x.high.toNat.log2 + 63 - fmt.precision)] at hle
    exact Nat.lt_of_lt_of_le hlt (Nat.le_trans hle (Nat.mul_le_mul_left _ hroom))
  have hrounded := toNat_rounded halt hsticky
  rw [ha, roundShift_eq_guard _ _ _ rfl, ← hsignificand] at hrounded
  obtain ⟨r, hr⟩ : ∃ r, ((if (a ||| sticky) &&& 4 ≠ 0 then a ||| sticky ||| 1
    else a ||| sticky) + 1) >>> 2 = r := ⟨_, rfl⟩
  rw [hr] at hrounded
  have hrun : x.roundToMantissa fmt.precision = (do
      let (a, exp) := if r >>> UInt64.ofInt fmt.precision ≠ 0 then
        (r >>> 1, 64 + u64BitLen x.high - 1 + 1) else (r, 64 + u64BitLen x.high - 1)
      guard (a >>> UInt64.ofInt (fmt.precision - 1) = 1)
      return (a, exp)) := by
    have hcontract : @guard Option _ (x.high ≠ 0) _ = some () := if_pos hhigh
    rw [roundToMantissa, hcontract, Option.bind_eq_bind, Option.bind_some]
    dsimp only
    rw [hkept]
    dsimp only
    rw [hr]
  have hexp : (64 + u64BitLen x.high - 1 : Int) = (x.toNat.log2 : Int) := by
    rw [hlen, hlog]
    push_cast
    omega
  have htop : (UInt64.ofInt (fmt.precision : Int)).toNat = fmt.precision :=
    toNat_ofInt rfl (by omega)
  have hbelow : (UInt64.ofInt ((fmt.precision : Int) - 1)).toNat = fmt.precision - 1 :=
    toNat_ofInt (by omega) (by omega)
  have hbinade : 2 ^ (fmt.precision - 1) = fmt.binade := rfl
  have hleading : ∀ m : UInt64, fmt.binade ≤ m.toNat → m.toNat < 2 * fmt.binade →
      m >>> UInt64.ofInt ((fmt.precision : Int) - 1) = 1 := by
    intro m hlow hhigh
    have hone : (1 : UInt64).toNat = 1 := rfl
    rw [← UInt64.toNat_inj, toNat_shiftRight (by omega), hbelow, hbinade, hone]
    exact Nat.div_eq_of_lt_le (by omega) (by omega)
  rw [hrun, hexp]
  by_cases hcarry : r >>> UInt64.ofInt (fmt.precision : Int) ≠ 0
  · have hq : fmt.significand x.toNat = 2 * fmt.binade := by
      have hpos := pos_of_ne_zero hcarry
      rw [toNat_shiftRight (by omega), htop, ← two_mul_binade, hrounded] at hpos
      have hge := (Nat.div_pos_iff).mp hpos
      omega
    have hm : (r >>> 1).toNat = fmt.binade := by
      rw [toNat_shiftRight (by decide), hrounded, hq]
      exact Nat.mul_div_cancel_left _ (by decide)
    have hpos := fmt.binade_pos
    refine ⟨r >>> 1, x.toNat.log2 + 1, ?_, by omega, by omega, ?_⟩
    · have hassert := hleading (r >>> 1) (by omega) (by omega)
      rw [if_pos hcarry]
      dsimp only
      rw [hassert]
      rfl
    · rw [hm, hq]
      unfold pattern
      have hadd : (x.toNat.log2 + 1 + fmt.bias) * fmt.binade =
          (x.toNat.log2 + fmt.bias) * fmt.binade + fmt.binade := by ring
      rw [hadd]
      omega
  · have hq : fmt.significand x.toNat < 2 * fmt.binade := by
      have hzero : (r >>> UInt64.ofInt (fmt.precision : Int)).toNat = 0 := by
        rw [Classical.not_not.mp hcarry]
        rfl
      rw [toNat_shiftRight (by omega), htop, ← two_mul_binade, hrounded] at hzero
      have hpos := fmt.binade_pos
      exact (Nat.div_eq_zero_iff_lt (by omega)).mp hzero
    refine ⟨r, x.toNat.log2, ?_, by omega, by omega, by rw [hrounded]⟩
    have hassert := hleading r (by omega) (by omega)
    rw [if_neg hcarry]
    dsimp only
    rw [hassert]
    rfl

/-! ## The conversions -/

theorem f64_binade : f64.binade = 2 ^ 52 := rfl

theorem f32_binade : f32.binade = 2 ^ 23 := rfl

theorem log2_le (hhigh : x.high ≠ 0) : x.toNat.log2 ≤ 127 := by
  have hlog := log2_lt hhigh
  rw [log2_toNat hhigh]
  omega

theorem toNat_ne_zero (hhigh : x.high ≠ 0) : x.toNat ≠ 0 := by
  have hpos := pos_of_ne_zero hhigh
  unfold toNat
  omega

theorem asF64_eq (x : U128) : x.asF64 = some (UInt64.ofNat (f64.roundNat x.toNat)) := by
  by_cases hhigh : x.high = 0
  · have hx : x.toNat = x.low.toNat := by
      rw [toNat, hhigh]
      simp
    rw [asF64, if_pos hhigh, hx]
    rfl
  · obtain ⟨m, exp, hrun, hlow, hlt, hpattern⟩ := roundToMantissa_eq f64 (by decide) hhigh
    have hlog := log2_le hhigh
    have hx := toNat_ne_zero hhigh
    have hexp := f64.exponent_le (f64.significand_bounds hx).2 hpattern
    have hround := f64.roundNat_eq_pattern hx (Nat.le_trans hlog (by decide))
    have hbias : f64.bias = 1023 := rfl
    have hprecision : (f64.precision : Int) = 53 := rfl
    rw [← hpattern, pattern, f64_binade, hbias] at hround
    rw [hprecision] at hrun
    rw [f64_binade] at hlow hlt
    have hbiased : (UInt64.ofInt ((exp : Int) + 1023)).toNat = exp + 1023 :=
      toNat_ofInt (by omega) (by omega)
    have hshift : (UInt64.ofInt ((exp : Int) + 1023) <<< 52).toNat = (exp + 1023) * 2 ^ 52 := by
      rw [← hbiased]
      exact toNat_shiftLeft_of_lt (by decide) (by
        rw [hbiased]
        show (exp + 1023) * 2 ^ 52 < 2 ^ 64
        omega)
    have hmask : (m &&& ((1 : UInt64) <<< 52 - 1)).toNat = m.toNat - 2 ^ 52 := by
      rw [toNat_and_mask (i := 52) rfl]
      omega
    have hbits : (UInt64.ofInt ((exp : Int) + 1023) <<< 52 |||
        (m &&& ((1 : UInt64) <<< 52 - 1))).toNat = (exp + 1023) * 2 ^ 52 + (m.toNat - 2 ^ 52) := by
      rw [toNat_or hshift (by omega), hmask]
    have hrun' : x.asF64 = some (UInt64.ofInt ((exp : Int) + 1023) <<< 52 |||
        (m &&& ((1 : UInt64) <<< 52 - 1))) := by
      rw [asF64, if_neg hhigh, hrun]
      rfl
    rw [hrun', hround, UInt64.toNat_inj.mp (hbits.trans (toNat_ofNat_of_lt (by omega)).symm)]

theorem asF32_eq (x : U128) : x.asF32 = some (UInt32.ofNat (f32.roundNat x.toNat)) := by
  by_cases hhigh : x.high = 0
  · have hx : x.toNat = x.low.toNat := by
      rw [toNat, hhigh]
      simp
    rw [asF32, if_pos hhigh, hx]
    rfl
  · obtain ⟨m, exp, hrun, hlow, hlt, hpattern⟩ := roundToMantissa_eq f32 (by decide) hhigh
    have hlog := log2_le hhigh
    have hx := toNat_ne_zero hhigh
    have hexp := f32.exponent_le (f32.significand_bounds hx).2 hpattern
    have hround := f32.roundNat_eq_pattern hx hlog
    have hbias : f32.bias = 127 := rfl
    have hprecision : (f32.precision : Int) = 24 := rfl
    rw [← hpattern, pattern, f32_binade, hbias] at hround
    rw [hprecision] at hrun
    rw [f32_binade] at hlow hlt
    have hbiased : (UInt32.ofInt ((exp : Int) + 127)).toNat = exp + 127 := by
      have hmod : (((exp : Int) + 127) % 2 ^ 32).toNat = exp + 127 := by omega
      rw [UInt32.ofInt, hmod, UInt32.toNat_ofNat', Nat.mod_eq_of_lt (by omega)]
    have hshift : (UInt32.ofInt ((exp : Int) + 127) <<< 23).toNat = (exp + 127) * 2 ^ 23 := by
      rw [UInt32.toNat_shiftLeft, hbiased, Nat.shiftLeft_eq]
      show (exp + 127) * 2 ^ 23 % 2 ^ 32 = _
      omega
    have hnarrow : m.toUInt32.toNat = m.toNat := by
      rw [UInt64.toNat_toUInt32]
      omega
    have hmaskEq : ((1 : UInt32) <<< 23 - 1).toNat = 2 ^ 23 - 1 := rfl
    have hmask : (m.toUInt32 &&& ((1 : UInt32) <<< 23 - 1)).toNat = m.toNat - 2 ^ 23 := by
      rw [UInt32.toNat_and, hmaskEq, Nat.and_two_pow_sub_one_eq_mod, hnarrow]
      omega
    have hbits : (UInt32.ofInt ((exp : Int) + 127) <<< 23 |||
        (m.toUInt32 &&& ((1 : UInt32) <<< 23 - 1))).toNat =
          (exp + 127) * 2 ^ 23 + (m.toNat - 2 ^ 23) := by
      have hjoin := @BitFields.shiftLeft_or (exp + 127) (m.toNat - 2 ^ 23) 23 (by omega)
      rw [UInt32.toNat_or, hshift, hmask, ← Nat.shiftLeft_eq, hjoin, Nat.shiftLeft_eq]
    have hrun' : x.asF32 = some (UInt32.ofInt ((exp : Int) + 127) <<< 23 |||
        (m.toUInt32 &&& ((1 : UInt32) <<< 23 - 1))) := by
      rw [asF32, if_neg hhigh, hrun]
      rfl
    have hnumber : (UInt32.ofNat ((exp + 127) * 2 ^ 23 + (m.toNat - 2 ^ 23))).toNat =
        (exp + 127) * 2 ^ 23 + (m.toNat - 2 ^ 23) := by
      rw [UInt32.toNat_ofNat', Nat.mod_eq_of_lt (by omega)]
    rw [hrun', hround, UInt32.toNat_inj.mp (hbits.trans hnumber.symm)]

/-- The conversions to floats return, with no assertion failed, the bits of the
nearest number, ties to even, and of infinity past the greatest. -/
theorem asFloat_rounds (x : U128) : (∃ bits, x.asF64 = some bits ∧ f64.Rounds x.toNat bits.toNat) ∧
    ∃ bits, x.asF32 = some bits ∧ f32.Rounds x.toNat bits.toNat := by
  constructor
  · refine ⟨_, asF64_eq x, ?_⟩
    have hle := f64.roundNat_le x.toNat
    have hinfinity : f64.infinity < 2 ^ 64 := by decide
    rw [toNat_ofNat_of_lt (by omega)]
    exact f64.roundNat_rounds x.toNat
  · refine ⟨_, asF32_eq x, ?_⟩
    have hle := f32.roundNat_le x.toNat
    have hinfinity : f32.infinity < 2 ^ 32 := by decide
    rw [UInt32.toNat_ofNat', Nat.mod_eq_of_lt (by omega)]
    exact f32.roundNat_rounds x.toNat

end U128

end Wado
