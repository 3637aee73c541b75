/-
The digits that are written in a base of two, eight or sixteen.
-/
import Wado.Int128.FormatReads

namespace Wado

open Words Numerals BitFields List Option

namespace U128

theorem digitValue_baseChar : ∀ upper, ∀ d < 16, digitValue (baseChar upper d) = d := by decide

variable {base : Nat}

theorem digitOf_baseChar (hbase : base ≤ 16) (upper : Bool) {d : Nat}
    (hd : d < base) : digitOf base (baseChar upper d) = some d :=
  digitOf_eq_some.mpr ⟨digitValue_baseChar upper d (by omega), hd⟩

/-- The two words shifted as one. -/
theorem toNat_shiftRight_pair {lo hi s : UInt64} (hpos : 0 < s.toNat) (hs : s.toNat < 64) :
    (fromPair (lo >>> s ||| hi <<< (64 - s)) (hi >>> s)).toNat =
      (fromPair lo hi).toNat / 2 ^ s.toNat := by
  have hback : (64 - s).toNat = 64 - s.toNat :=
    Words.toNat_sub_of_le (x := 64) (Nat.le_of_lt hs)
  have hpow : 2 ^ 64 = 2 ^ s.toNat * 2 ^ (64 - s.toNat) := by
    rw [← Nat.pow_add]
    congr 1
    omega
  have hhigh : (hi <<< (64 - s)).toNat = hi.toNat % 2 ^ s.toNat * 2 ^ (64 - s.toNat) := by
    rw [toNat_shiftLeft (by omega), hback, hpow, Nat.mul_mod_mul_right]
  have hlow : (lo >>> s).toNat < 2 ^ (64 - s.toNat) := by
    rw [toNat_shiftRight hs]
    apply Nat.div_lt_of_lt_mul
    rw [← hpow]
    exact lo.toNat_lt
  have hsplit := Nat.div_add_mod hi.toNat (2 ^ s.toNat)
  have hwide : (fromPair lo hi).toNat =
      lo.toNat + 2 ^ s.toNat * (hi.toNat * 2 ^ (64 - s.toNat)) := by
    rw [fromPair, toNat, hpow]
    ring
  rw [hwide, Nat.add_mul_div_left _ _ (Nat.two_pow_pos _), fromPair, toNat, UInt64.or_comm,
    toNat_or hhigh hlow, toNat_shiftRight hs, toNat_shiftRight hs, hpow]
  calc hi.toNat / 2 ^ s.toNat * (2 ^ s.toNat * 2 ^ (64 - s.toNat)) +
        (hi.toNat % 2 ^ s.toNat * 2 ^ (64 - s.toNat) + lo.toNat / 2 ^ s.toNat)
      = (2 ^ s.toNat * (hi.toNat / 2 ^ s.toNat) + hi.toNat % 2 ^ s.toNat) * 2 ^ (64 - s.toNat) +
        lo.toNat / 2 ^ s.toNat := by ring
    _ = lo.toNat / 2 ^ s.toNat + hi.toNat * 2 ^ (64 - s.toNat) := by
        rw [hsplit, Nat.add_comm]

theorem toNat_mod_pow {lo hi : UInt64} {bits : Nat} (hbits : bits ≤ 64) :
    (fromPair lo hi).toNat % 2 ^ bits = lo.toNat % 2 ^ bits := by
  have hpow : 2 ^ 64 = 2 ^ bits * 2 ^ (64 - bits) := by
    rw [← Nat.pow_add]
    congr 1
    omega
  rw [fromPair, toNat, hpow, Nat.mul_left_comm, Nat.mul_add_mod]

theorem words_eq_zero_iff {lo hi : UInt64} : lo = 0 ∧ hi = 0 ↔ (fromPair lo hi).toNat = 0 := by
  have hzero : (0 : UInt64).toNat = 0 := rfl
  have hvalue : (fromPair lo hi).toNat = hi.toNat * 2 ^ 64 + lo.toNat := rfl
  rw [← UInt64.toNat_inj, ← UInt64.toNat_inj, hzero, hvalue]
  omega

/-- The loop writes as many digits as the value has and ends where the first stands. -/
theorem baseLoop_eq {mask shift : UInt64} (hpos : 0 < shift.toNat) (hshift : shift.toNat < 64)
    (hmask : mask.toNat = 2 ^ shift.toNat - 1) (upper : Bool) (before : List UInt8)
    {n fuel : Nat} {place after : List UInt8} {lo hi : UInt64} (hplace : place.length = n)
    (hfuel : n < fuel) (hfits : (fromPair lo hi).toNat < (2 ^ shift.toNat) ^ n)
    (hleast : n ≠ 0 → (2 ^ shift.toNat) ^ (n - 1) ≤ (fromPair lo hi).toNat) :
    baseLoop mask shift upper fuel (before ++ (place ++ after)) lo hi ((before.length : Int) + n) =
      some (before ++ (fixed (baseChar upper) (2 ^ shift.toNat) n (fromPair lo hi).toNat ++
        after), (before.length : Int)) := by
  have hbase : 0 < 2 ^ shift.toNat := Nat.two_pow_pos _
  induction n generalizing fuel place after lo hi with
  | zero =>
    obtain ⟨fuel, rfl⟩ := Nat.exists_eq_succ_of_ne_zero (Nat.ne_of_gt hfuel)
    have hzero : lo = 0 ∧ hi = 0 := words_eq_zero_iff.mpr (by simpa using hfits)
    rw [baseLoop, if_neg (by simp [hzero]), length_eq_zero_iff.mp hplace]
    simp [fixed]
  | succ n ih =>
    obtain ⟨fuel, rfl⟩ := Nat.exists_eq_succ_of_ne_zero (Nat.ne_of_gt (Nat.zero_lt_of_lt hfuel))
    obtain ⟨rest, b, rfl⟩ : ∃ rest b, place = rest ++ [b] := by
      rcases eq_nil_or_concat place with rfl | ⟨rest, b, rfl⟩
      · cases hplace
      · exact ⟨rest, b, concat_eq_append⟩
    have hrest : rest.length = n := by simpa using hplace
    have hge : (2 ^ shift.toNat) ^ n ≤ (fromPair lo hi).toNat := hleast (Nat.succ_ne_zero n)
    have hnonzero : lo ≠ 0 ∨ hi ≠ 0 := by
      by_contra hnone
      have hzero := words_eq_zero_iff.mp ((not_or.mp hnone).imp not_not.mp not_not.mp)
      have hpow := Nat.pow_pos hbase (n := n)
      omega
    have hdigit : (lo &&& mask).toNat = (fromPair lo hi).toNat % 2 ^ shift.toNat := by
      rw [toNat_and_mask hmask, toNat_mod_pow (Nat.le_of_lt hshift)]
    have hnext : (fromPair (lo >>> shift ||| hi <<< (64 - shift)) (hi >>> shift)).toNat =
        (fromPair lo hi).toNat / 2 ^ shift.toNat := toNat_shiftRight_pair hpos hshift
    have hwrite := setByte_eq (before ++ rest) after b
      (baseChar upper ((fromPair lo hi).toNat % 2 ^ shift.toNat))
    have hsplit : before ++ (rest ++ [b] ++ after) = before ++ rest ++ b :: after := by simp
    have hlast : (before.length : Int) + (n + 1 : Nat) - 1 = (before ++ rest).length := by
      rw [length_append, hrest]
      omega
    rw [baseLoop, if_pos hnonzero]
    dsimp only
    rw [hdigit, hlast, hsplit, hwrite, bind_eq_bind, bind_some,
      append_assoc before, length_append, hrest, Nat.cast_add]
    refine (ih hrest (by omega) ?_ ?_).trans ?_
    · rw [hnext]
      apply Nat.div_lt_of_lt_mul
      rwa [← Nat.pow_succ']
    · intro hn
      obtain ⟨m, rfl⟩ := Nat.exists_eq_succ_of_ne_zero hn
      rw [hnext, Nat.le_div_iff_mul_le hbase, ← Nat.pow_succ]
      exact hge
    · rw [hnext, fixed, append_assoc]
      rfl

/-- The count of digits is exact. -/
theorem baseDigitCount_eq {x : U128} (hx : x.toNat ≠ 0) :
    x.baseDigitCount base = x.toNat.log2 / bitsPerDigit base + 1 := by
  have hzero : ¬ (x.low = 0 ∧ x.high = 0) := fun h => hx (words_eq_zero_iff.mp h)
  have hbit : (if x.high ≠ 0 then 63 + u64BitLen x.high else u64BitLen x.low - 1) =
      (x.toNat.log2 : Int) := by
    by_cases hhigh : x.high = 0
    · have hlow : x.low ≠ 0 := fun h => hzero ⟨h, hhigh⟩
      have hvalue : x.toNat = x.low.toNat := by
        rw [toNat, hhigh]
        exact Nat.zero_add _
      rw [if_neg (not_not.mpr hhigh), u64BitLen_eq hlow, hvalue]
      omega
    · rw [if_pos hhigh, u64BitLen_eq hhigh, log2_toNat hhigh]
      omega
  rw [baseDigitCount, if_neg hzero]
  dsimp only
  rw [hbit, ← Int.natCast_ediv]
  exact Int.toNat_natCast (x.toNat.log2 / bitsPerDigit base + 1)

theorem pow_log2_le {n : Nat} (hn : n ≠ 0) (bits : Nat) : (2 ^ bits) ^ (n.log2 / bits) ≤ n := by
  rw [← Nat.pow_mul]
  exact Nat.le_trans (Nat.pow_le_pow_right (by decide) (Nat.mul_div_le _ _))
    (Nat.log2_self_le hn)

theorem lt_pow_log2 (n : Nat) {bits : Nat} (hbits : 0 < bits) :
    n < (2 ^ bits) ^ (n.log2 / bits + 1) := by
  rw [← Nat.pow_mul]
  exact Nat.lt_of_lt_of_le Nat.lt_log2_self
    (Nat.pow_le_pow_right (by decide) (Nat.lt_mul_div_succ _ hbits))

/-- The bases that integers are written in: the digits' bits make the base. -/
theorem bitsPerDigit_eq (hbase : base = 2 ∨ base = 8 ∨ base = 16) :
    0 < bitsPerDigit base ∧ bitsPerDigit base ≤ 4 ∧ 2 ^ bitsPerDigit base = base := by
  rcases hbase with rfl | rfl | rfl <;> decide

/-- The digits of a base that are written stand for the value, and the position
the loop ends at is where they begin. -/
theorem fmtBase_eq (x : U128) (f : Formatter)
    (hbase : base = 2 ∨ base = 8 ∨ base = 16) (upper : Bool) (altPrefix : List UInt8) :
    ∃ digits g, x.fmtBase f base upper altPrefix = some g ∧
      f.DigitsWritten false altPrefix digits g ∧ digits ≠ [] ∧
      digitsValue base digits = some x.toNat := by
  obtain ⟨hpos, hfour, hpow⟩ := bitsPerDigit_eq hbase
  have hsixteen : 2 ≤ base ∧ base ≤ 16 := by omega
  obtain ⟨before, after, hplace, hoffset⟩ :=
    f.prepareIntWrite_reserved false altPrefix (x.baseDigitCount base)
  have hprepare : f.prepareIntWrite false altPrefix (x.baseDigitCount base) =
      ({ f with buf := before ++ (zeros (x.baseDigitCount base) ++ after) }, before.length) :=
    Prod.ext hplace hoffset
  rw [fmtBase]
  dsimp only
  rw [hprepare]
  dsimp only
  by_cases hzero : x.low = 0 ∧ x.high = 0
  · have hcount : x.baseDigitCount base = 1 := if_pos hzero
    have hvalue : x.toNat = 0 := words_eq_zero_iff.mp hzero
    rw [hcount] at hprepare ⊢
    refine ⟨[48], _, ?_, ⟨before, after, hprepare, rfl⟩, by simp, ?_⟩
    · have hwrite := setByte_eq before after 0 48
      rw [if_pos hzero]
      exact congrArg (fun o : Option (List UInt8) => o.bind fun arr => some { f with buf := arr })
        hwrite
    · have hdigit := digitOf_baseChar hsixteen.2 false (d := 0) (by omega)
      have hchar : baseChar false 0 = 48 := rfl
      rw [hchar] at hdigit
      simp [digitsValue, numeral, hdigit, hvalue]
  · have hnonzero : x.toNat ≠ 0 := fun h => hzero (words_eq_zero_iff.mpr h)
    have hcount : x.baseDigitCount base = x.toNat.log2 / bitsPerDigit base + 1 :=
      baseDigitCount_eq hnonzero
    have hshift : (UInt64.ofNat (bitsPerDigit base)).toNat = bitsPerDigit base :=
      toNat_ofNat_of_lt (by omega)
    have hmask : (UInt64.ofNat (base - 1)).toNat =
        2 ^ (UInt64.ofNat (bitsPerDigit base)).toNat - 1 := by
      rw [hshift, hpow]
      exact toNat_ofNat_of_lt (by omega)
    have hfits : x.toNat < base ^ x.baseDigitCount base := by
      have h := lt_pow_log2 x.toNat hpos
      rwa [hpow, ← hcount] at h
    have hleast : base ^ (x.baseDigitCount base - 1) ≤ x.toNat := by
      have h := pow_log2_le hnonzero (bitsPerDigit base)
      rwa [hpow, ← Nat.add_sub_cancel (m := 1) (n := x.toNat.log2 / bitsPerDigit base),
        ← hcount] at h
    have hfuel : x.baseDigitCount base < 129 := by
      have hlog : x.toNat.log2 < 128 := (Nat.log2_lt hnonzero).mpr x.toNat_lt
      have hdiv := Nat.div_le_self x.toNat.log2 (bitsPerDigit base)
      omega
    have hloop := @baseLoop_eq _ _ (by omega) (by omega) hmask upper before
      (x.baseDigitCount base) 129 (zeros _) after x.low x.high (length_zeros _) hfuel
      (by rw [hshift, hpow]; exact hfits) (by rw [hshift, hpow]; exact fun _ => hleast)
    have hvalue : (fromPair x.low x.high).toNat = x.toNat := rfl
    rw [hshift, hpow, hvalue] at hloop
    have hwritten := @length_fixed _ (baseChar upper) base (x.baseDigitCount base) x.toNat
    refine ⟨fixed (baseChar upper) base (x.baseDigitCount base) x.toNat, _, ?_,
      ⟨before, after, ?_, rfl⟩, ?_, ?_⟩
    · have hends : @guard Option _ ((before.length : Int) = before.length) _ = some () :=
        if_pos rfl
      rw [if_neg hzero, hloop, bind_eq_bind, bind_some]
      dsimp only
      rw [hends]
      rfl
    · rw [hwritten]
      exact hprepare
    · intro h
      rw [h, hcount] at hwritten
      exact absurd hwritten.symm (Nat.succ_ne_zero _)
    · have h := numeral_fixed (by omega) (fun d hd => digitOf_baseChar hsixteen.2 upper hd) 0
        (x.baseDigitCount base) x.toNat
      rwa [Nat.zero_mul, Nat.zero_add, Nat.mod_eq_of_lt hfits] at h

end U128

variable {radix : Nat}

section

variable (hradix : 2 ≤ radix ∧ radix ≤ 36)
include hradix

/-- Digits of a value are parsed to it. -/
theorem parseU128Digits_of_value {digits : List UInt8} {x : U128} (hnonempty : digits ≠ [])
    (hvalue : digitsValue radix digits = some x.toNat) :
    parseU128Digits digits radix = some (.ok x) :=
  ((parseU128Digits_cases hradix hnonempty).1 x).mpr hvalue

theorem parseU128Digits_nil :
    parseU128Digits [] radix = some (.error .empty) := by
  have hcontract : @guard Option _ (2 ≤ radix ∧ radix ≤ 36) _ = some () := if_pos hradix
  rw [parseU128Digits, hcontract, bind_eq_bind, bind_some]
  rfl

theorem parseU128Digits_results {s : List UInt8}
    (hs : s ≠ []) : (∃ v, parseU128Digits s radix = some (.ok v)) ∨
      parseU128Digits s radix = some (.error .posOverflow) ∨
      parseU128Digits s radix = some (.error .invalidDigit) := by
  rw [parseU128Digits_eq hradix hs]
  cases readBelow (digitOf radix) radix (2 ^ 128) 0 s with
  | ok n => exact .inl ⟨_, rfl⟩
  | error failure =>
    cases failure with
    | invalid => exact .inr (.inr rfl)
    | overflow => exact .inr (.inl rfl)

end

/-- The texts that are written are parsed to the value, and a text is parsed to
what its digits stand for or refused for what stands first in it: a byte that
is no digit, or a prefix past 128 bits. -/
theorem text_round_trips : (∀ (x : U128) (f : Formatter) (isNeg : Bool), ∃ digits g,
      x.fmtDecimalMagnitude f isNeg = some g ∧ f.DigitsWritten isNeg [] digits g ∧
        parseU128Digits digits 10 = some (.ok x)) ∧
    (∀ (x : U128) (f : Formatter) (base : Nat) (upper : Bool) (altPrefix : List UInt8),
      base = 2 ∨ base = 8 ∨ base = 16 → ∃ digits g,
        x.fmtBase f base upper altPrefix = some g ∧ f.DigitsWritten false altPrefix digits g ∧
          parseU128Digits digits base = some (.ok x)) ∧
    ∀ radix, 2 ≤ radix ∧ radix ≤ 36 → parseU128Digits [] radix = some (.error .empty) ∧
      ∀ s, s ≠ [] → ((∃ v, parseU128Digits s radix = some (.ok v)) ∨
          parseU128Digits s radix = some (.error .posOverflow) ∨
          parseU128Digits s radix = some (.error .invalidDigit)) ∧
        (∀ v, parseU128Digits s radix = some (.ok v) ↔ digitsValue radix s = some v.toNat) ∧
        (parseU128Digits s radix = some (.error .invalidDigit) ↔
          ∃ before b after v, s = before ++ b :: after ∧ digitsValue radix before = some v ∧
            v < 2 ^ 128 ∧ digitOf radix b = none) ∧
        (parseU128Digits s radix = some (.error .posOverflow) ↔
          ∃ before after v, s = before ++ after ∧ digitsValue radix before = some v ∧
            2 ^ 128 ≤ v) := by
  refine ⟨?_, ?_, ?_⟩
  · intro x f isNeg
    obtain ⟨digits, g, hrun, hwritten, hnonempty, hvalue⟩ := x.fmtDecimalMagnitude_eq f isNeg
    exact ⟨digits, g, hrun, hwritten, parseU128Digits_of_value (by omega) hnonempty hvalue⟩
  · intro x f base upper altPrefix hbase
    obtain ⟨digits, g, hrun, hwritten, hnonempty, hvalue⟩ := x.fmtBase_eq f hbase upper altPrefix
    exact ⟨digits, g, hrun, hwritten, parseU128Digits_of_value (by omega) hnonempty hvalue⟩
  · intro radix hradix
    exact ⟨parseU128Digits_nil hradix, fun s hs =>
      ⟨parseU128Digits_results hradix hs, parseU128Digits_cases hradix hs⟩⟩

/-- The greatest value, written in both ways, and read. -/
theorem text_round_trips_greatest : ∃ digits g,
    (U128.fromPair u64Max u64Max).fmtBase ⟨' ', .right, false, true, false, 140, []⟩ 8 false
        [48, 111] = some g ∧
      Formatter.DigitsWritten ⟨' ', .right, false, true, false, 140, []⟩ false [48, 111] digits g ∧
      parseU128Digits digits 8 = some (.ok (U128.fromPair u64Max u64Max)) :=
  text_round_trips.2.1 _ _ 8 false _ (.inr (.inl rfl))

/-- The empty text is refused for neither of the two reasons. -/
theorem text_round_trips_empty : ¬ ∀ (radix : Nat) (s : List UInt8), 2 ≤ radix ∧ radix ≤ 36 →
    (∃ v, parseU128Digits s radix = some (.ok v)) ∨
      parseU128Digits s radix = some (.error .posOverflow) ∨
      parseU128Digits s radix = some (.error .invalidDigit) := by
  intro h
  have hempty : parseU128Digits [] 10 = some (.error .empty) := rfl
  rcases h 10 [] (by decide) with ⟨v, hv⟩ | hoverflow | hinvalid
  · rw [hempty] at hv
    cases hv
  · rw [hempty] at hoverflow
    cases hoverflow
  · rw [hempty] at hinvalid
    cases hinvalid

end Wado
