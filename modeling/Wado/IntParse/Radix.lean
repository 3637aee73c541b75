/-
Reading a sign and digits as an integer of one of the ten types.
-/
import Wado.Int128.BaseReads

namespace Wado

open Words Numerals Option

/-- The low bits of an integer as a signed one. -/
def castSigned (bits : Nat) (v : Int) : Int := v.bmod (2 ^ bits)

/-- The low bits of an integer as an unsigned one. -/
def castUnsigned (bits : Nat) (v : Int) : Int := v % 2 ^ bits

structure I128 where
  low : UInt64
  high : Int
deriving DecidableEq, Repr

namespace I128

def toInt (x : I128) : Int := x.high * 2 ^ 64 + x.low.toNat

def ofInt (i : Int) : I128 := ⟨UInt64.ofInt i, castSigned 64 (i / 2 ^ 64)⟩

def fromU128 (val : U128) : I128 := ⟨val.low, castSigned 64 val.high.toNat⟩

/-- The negation modulo `2 ^ 128`. -/
def neg (x : I128) : I128 := ofInt (0 - x.toInt)

end I128

/-- A leading sign taken off: whether it was a minus, and the digits. -/
def splitSign : List UInt8 → Except IntErrorKind (Bool × List UInt8)
  | [] => .error .empty
  | first :: rest =>
    let isNegative := first == 45
    let hasSign := isNegative || first == 43
    if hasSign && rest.isEmpty then .error .invalidDigit
    else .ok (isNegative, if hasSign then rest else first :: rest)

/-- A leading plus taken off. -/
def splitPlus : List UInt8 → Except IntErrorKind (List UInt8)
  | [] => .error .empty
  | first :: rest =>
    if first = 43 then if rest.isEmpty then .error .invalidDigit else .ok rest
    else .ok (first :: rest)

/-- The word of the digits with its sign, from `-minAbs` to `max`. -/
def boundI64 (isNegative : Bool) (max : Int) (minAbs : UInt64) :
    Except IntErrorKind UInt64 → Except IntErrorKind Int
  | .ok v =>
    if isNegative then
      if v > minAbs then .error .negOverflow else .ok (castSigned 64 (0 - v).toNat)
    else if v > UInt64.ofInt max then .error .posOverflow
    else .ok (castSigned 64 v.toNat)
  | .error k => .error (if isNegative && k == .posOverflow then .negOverflow else k)

/-- A signed integer from `-minAbs` to `max`; a radix out of range traps. -/
def parseI64Radix (s : List UInt8) (radix : Nat) (max : Int) (minAbs : UInt64) :
    Option (Except IntErrorKind Int) := do
  guard (2 ≤ radix ∧ radix ≤ 36)
  match splitSign s with
  | .error k => some (.error k)
  | .ok (isNegative, digits) =>
    (parseU64Digits digits radix).map (boundI64 isNegative max minAbs)

def boundU64 (max : UInt64) : Except IntErrorKind UInt64 → Except IntErrorKind UInt64
  | .ok v => if v > max then .error .posOverflow else .ok v
  | .error k => .error k

/-- An unsigned integer up to `max`. -/
def parseU64Radix (s : List UInt8) (radix : Nat) (max : UInt64) :
    Option (Except IntErrorKind UInt64) := do
  guard (2 ≤ radix ∧ radix ≤ 36)
  match splitPlus s with
  | .error k => some (.error k)
  | .ok digits => (parseU64Digits digits radix).map (boundU64 max)

def U128.fromStrRadixSlice (s : List UInt8) (radix : Nat) : Option (Except IntErrorKind U128) := do
  guard (2 ≤ radix ∧ radix ≤ 36)
  match splitPlus s with
  | .error k => some (.error k)
  | .ok digits => parseU128Digits digits radix

/-- The greatest positive value. -/
def I128.maxPos : U128 := U128.fromPair u64Max 0x7fffffffffffffff

/-- The absolute value of the least one. -/
def I128.maxNegAbs : U128 := I128.maxPos.add (U128.fromU64 1)

def boundI128 (isNegative : Bool) : Except IntErrorKind U128 → Except IntErrorKind I128
  | .ok v =>
    if isNegative then
      if I128.maxNegAbs.lt v then .error .negOverflow else .ok (I128.fromU128 v).neg
    else if I128.maxPos.lt v then .error .posOverflow
    else .ok (I128.fromU128 v)
  | .error k => .error (if isNegative && k == .posOverflow then .negOverflow else k)

def I128.fromStrRadixSlice (s : List UInt8) (radix : Nat) : Option (Except IntErrorKind I128) := do
  guard (2 ≤ radix ∧ radix ≤ 36)
  match splitSign s with
  | .error k => some (.error k)
  | .ok (isNegative, digits) => (parseU128Digits digits radix).map (boundI128 isNegative)

/-! ## The integer types -/

inductive IntType where
  | i8
  | u8
  | i16
  | u16
  | i32
  | u32
  | i64
  | u64
  | i128
  | u128
deriving DecidableEq, Repr

namespace IntType

def bits : IntType → Nat
  | i8 | u8 => 8
  | i16 | u16 => 16
  | i32 | u32 => 32
  | i64 | u64 => 64
  | i128 | u128 => 128

def signed : IntType → Bool
  | i8 | i16 | i32 | i64 | i128 => true
  | u8 | u16 | u32 | u64 | u128 => false

def min (t : IntType) : Int := if t.signed then -2 ^ (t.bits - 1) else 0

def max (t : IntType) : Int := if t.signed then 2 ^ (t.bits - 1) - 1 else 2 ^ t.bits - 1

/-- The values of the type. -/
def Holds (t : IntType) (v : Int) : Prop := t.min ≤ v ∧ v ≤ t.max

instance (t : IntType) (v : Int) : Decidable (t.Holds v) := inferInstanceAs (Decidable (_ ∧ _))

/-- The value that a text in a radix is read as. -/
def fromStrRadix (t : IntType) (s : List UInt8) (radix : Nat) : Option (Except IntErrorKind Int) :=
  match t with
  | i8 => (parseI64Radix s radix 127 (127 + 1)).map (·.map (castSigned 8))
  | u8 => (parseU64Radix s radix 255).map (·.map fun v => castUnsigned 8 v.toNat)
  | i16 => (parseI64Radix s radix 32767 (32767 + 1)).map (·.map (castSigned 16))
  | u16 => (parseU64Radix s radix 65535).map (·.map fun v => castUnsigned 16 v.toNat)
  | i32 => (parseI64Radix s radix 2147483647 (2147483647 + 1)).map (·.map (castSigned 32))
  | u32 => (parseU64Radix s radix 4294967295).map (·.map fun v => castUnsigned 32 v.toNat)
  | i64 => parseI64Radix s radix 9223372036854775807 (9223372036854775807 + 1)
  | u64 => (parseU64Radix s radix u64Max).map (·.map fun v => (v.toNat : Int))
  | i128 => (I128.fromStrRadixSlice s radix).map (·.map I128.toInt)
  | u128 => (U128.fromStrRadixSlice s radix).map (·.map fun v => (v.toNat : Int))

end IntType

/-! ## What is read -/

/-- What a text of at most one sign and digits stands for. -/
def StandsFor (signed : Bool) (radix : Nat) (s : List UInt8) (v : Int) : Prop :=
  ∃ digits n, digits ≠ [] ∧ digitsValue radix digits = some n ∧
    (s = digits ∧ v = n ∨ s = 43 :: digits ∧ v = n ∨ s = 45 :: digits ∧ v = -n ∧ signed = true)

theorem digitOf_sign (radix : Nat) : digitOf radix 43 = none ∧ digitOf radix 45 = none :=
  ⟨digitOf_eq_none.mpr (.inl (by decide)), digitOf_eq_none.mpr (.inl (by decide))⟩

variable {s : List UInt8}

theorem digitsValue_of_sign {radix n : Nat} {b : UInt8} (hb : b = 43 ∨ b = 45) :
    digitsValue radix (b :: s) ≠ some n := by
  have hnone : digitOf radix b = none := by
    rcases hb with rfl | rfl
    · exact (digitOf_sign radix).1
    · exact (digitOf_sign radix).2
  simp [digitsValue, numeral, hnone]

/-- The value with its sign. -/
def withSign (isNegative : Bool) (n : Nat) : Int := if isNegative then -n else n

variable {radix : Nat} {v : Int}

theorem standsFor_signed_iff :
    StandsFor true radix s v ↔ ∃ isNegative digits n, splitSign s = .ok (isNegative, digits) ∧
      digits ≠ [] ∧ digitsValue radix digits = some n ∧
      v = withSign isNegative n := by
  constructor
  · rintro ⟨digits, n, hdigits, hvalue, ⟨rfl, hv⟩ | ⟨rfl, hv⟩ | ⟨rfl, hv, -⟩⟩
    · refine ⟨false, s, n, ?_, hdigits, hvalue, hv⟩
      cases s with
      | nil => exact absurd rfl hdigits
      | cons b rest =>
        have hplus : b ≠ 43 := fun h => digitsValue_of_sign (.inl h) hvalue
        have hminus : b ≠ 45 := fun h => digitsValue_of_sign (.inr h) hvalue
        simp [splitSign, hplus, hminus]
    · exact ⟨false, digits, n, by simp [splitSign, hdigits], hdigits, hvalue, hv⟩
    · exact ⟨true, digits, n, by simp [splitSign, hdigits], hdigits, hvalue, hv⟩
  · rintro ⟨isNegative, digits, n, hsplit, hdigits, hvalue, hv⟩
    refine ⟨digits, n, hdigits, hvalue, ?_⟩
    cases s with
    | nil => cases hsplit
    | cons b rest =>
      simp only [splitSign] at hsplit
      split_ifs at hsplit with hlone hsign
      · cases hsplit
        by_cases hminus : b = 45
        · subst hminus
          exact .inr (.inr ⟨rfl, hv, rfl⟩)
        · have hplus : b = 43 := by simpa [hminus] using hsign
          subst hplus
          exact .inr (.inl ⟨rfl, hv⟩)
      · cases hsplit
        have hminus : (b == 45) = false := by simp_all
        rw [hminus] at hv
        exact .inl ⟨rfl, hv⟩

theorem standsFor_unsigned_iff :
    StandsFor false radix s v ↔ ∃ digits n, splitPlus s = .ok digits ∧
      digits ≠ [] ∧ digitsValue radix digits = some n ∧ v = n := by
  constructor
  · rintro ⟨digits, n, hdigits, hvalue, ⟨rfl, hv⟩ | ⟨rfl, hv⟩ | ⟨-, -, hsigned⟩⟩
    · refine ⟨s, n, ?_, hdigits, hvalue, hv⟩
      cases s with
      | nil => exact absurd rfl hdigits
      | cons b rest =>
        have hplus : b ≠ 43 := fun h => digitsValue_of_sign (.inl h) hvalue
        simp [splitPlus, hplus]
    · exact ⟨digits, n, by simp [splitPlus, hdigits], hdigits, hvalue, hv⟩
    · cases hsigned
  · rintro ⟨digits, n, hsplit, hdigits, hvalue, hv⟩
    refine ⟨digits, n, hdigits, hvalue, ?_⟩
    cases s with
    | nil => cases hsplit
    | cons b rest =>
      simp only [splitPlus] at hsplit
      split_ifs at hsplit with hplus hlone
      · cases hsplit
        subst hplus
        exact .inr (.inl ⟨rfl, hv⟩)
      · cases hsplit
        exact .inl ⟨rfl, hv⟩

/-! ## The words that are read -/

theorem parseU64Digits_run (hradix : 2 ≤ radix ∧ radix ≤ 36) (s : List UInt8) :
    ∃ r, parseU64Digits s radix = some r ∧
      ∀ v, r = .ok v ↔ s ≠ [] ∧ digitsValue radix s = some v.toNat := by
  by_cases hs : s = []
  · subst hs
    have hcontract : @guard Option _ (2 ≤ radix ∧ radix ≤ 36) _ = some () := if_pos hradix
    refine ⟨.error .empty, ?_, by simp⟩
    rw [parseU64Digits, hcontract, bind_eq_bind, bind_some]
    rfl
  · refine ⟨_, parseU64Digits_eq hradix hs, ?_⟩
    intro v
    have hok := @readBelow_eq_ok _ (digitOf radix) radix (2 ^ 64) (by omega) 0 v.toNat
      (by decide) s
    rw [digitsValue]
    constructor
    · intro h
      cases hread : readBelow (digitOf radix) radix (2 ^ 64) 0 s with
      | error failure =>
        rw [hread] at h
        cases h
      | ok n =>
        obtain ⟨hnumeral, hn⟩ := (readBelow_eq_ok (by omega) (by decide) s).mp hread
        rw [hread] at h
        cases h
        exact ⟨hs, by rw [hnumeral, toNat_ofNat_of_lt hn]⟩
    · rintro ⟨-, hvalue⟩
      rw [hok.mpr ⟨hvalue, v.toNat_lt⟩]
      simp [Except.map, Except.mapError]

theorem parseU128Digits_run (hradix : 2 ≤ radix ∧ radix ≤ 36) (s : List UInt8) :
    ∃ r, parseU128Digits s radix = some r ∧
      ∀ v, r = .ok v ↔ s ≠ [] ∧ digitsValue radix s = some v.toNat := by
  by_cases hs : s = []
  · subst hs
    exact ⟨.error .empty, parseU128Digits_nil hradix, by simp⟩
  · refine ⟨_, parseU128Digits_eq hradix hs, ?_⟩
    intro v
    have hcases := (parseU128Digits_cases hradix hs).1 v
    rw [parseU128Digits_eq hradix hs, Option.some.injEq] at hcases
    rw [hcases]
    exact ⟨fun h => ⟨hs, h⟩, fun h => h.2⟩

theorem castSigned_eq {bits : Nat} (hlow : -(2 ^ bits) ≤ v * 2)
    (hhigh : v * 2 < 2 ^ bits) : castSigned bits v = v :=
  Int.bmod_eq_of_le_mul_two (by exact_mod_cast hlow) (by exact_mod_cast hhigh)

/-- A word as a signed one, taken from zero. -/
theorem castSigned_sub {v : UInt64} (hv : v.toNat ≤ 2 ^ 63) :
    castSigned 64 ((0 - v).toNat : Nat) = -(v.toNat : Int) := by
  have hzero : (0 : UInt64).toNat = 0 := rfl
  have hsub : (0 - v).toNat = (2 ^ 64 - v.toNat) % 2 ^ 64 := by
    rw [UInt64.toNat_sub, hzero, Nat.add_zero]
  rw [hsub, castSigned, Int.bmod_def]
  omega

theorem boundI64_eq_ok {isNegative : Bool} {max : Int} {minAbs : UInt64}
    (hmax : 0 ≤ max ∧ max < 2 ^ 63) (hmin : minAbs.toNat ≤ 2 ^ 63)
    {r : Except IntErrorKind UInt64} : boundI64 isNegative max minAbs r = .ok v ↔
      ∃ w, r = .ok w ∧ v = withSign isNegative w.toNat ∧ -(minAbs.toNat : Int) ≤ v ∧ v ≤ max := by
  have hword : (UInt64.ofInt max).toNat = max.toNat := toNat_ofInt (by omega) (by omega)
  cases r with
  | error k => simp [boundI64]
  | ok w =>
    simp only [boundI64, Except.ok.injEq, exists_eq_left', gt_iff_lt, UInt64.lt_iff_toNat_lt, hword]
    cases isNegative with
    | true =>
      simp only [if_true, withSign]
      by_cases hlarge : minAbs.toNat < w.toNat
      · rw [if_pos hlarge]
        simp only [reduceCtorEq, false_iff]
        omega
      · rw [if_neg hlarge, castSigned_sub (by omega), Except.ok.injEq]
        omega
    | false =>
      simp only [Bool.false_eq_true, if_false, withSign]
      by_cases hlarge : max.toNat < w.toNat
      · rw [if_pos hlarge]
        simp only [reduceCtorEq, false_iff]
        omega
      · rw [if_neg hlarge, castSigned_eq (by omega) (by omega), Except.ok.injEq]
        omega

theorem parseI64Radix_eq_ok {radix : Nat} (hradix : 2 ≤ radix ∧ radix ≤ 36) {max : Int}
    {minAbs : UInt64} (hmax : 0 ≤ max ∧ max < 2 ^ 63) (hmin : minAbs.toNat ≤ 2 ^ 63)
    (s : List UInt8) (v : Int) : parseI64Radix s radix max minAbs = some (.ok v) ↔
      StandsFor true radix s v ∧ -(minAbs.toNat : Int) ≤ v ∧ v ≤ max := by
  have hcontract : @guard Option _ (2 ≤ radix ∧ radix ≤ 36) _ = some () := if_pos hradix
  rw [parseI64Radix, hcontract, bind_eq_bind, bind_some, standsFor_signed_iff]
  cases splitSign s with
  | error k => simp
  | ok split =>
    obtain ⟨isNegative, digits⟩ := split
    obtain ⟨r, hrun, hr⟩ := parseU64Digits_run hradix digits
    dsimp only
    rw [hrun, map_some, Option.some.injEq, boundI64_eq_ok hmax hmin]
    constructor
    · rintro ⟨w, hw, hv, hrange⟩
      obtain ⟨hdigits, hvalue⟩ := (hr w).mp hw
      exact ⟨⟨isNegative, digits, w.toNat, rfl, hdigits, hvalue, hv⟩, hrange⟩
    · rintro ⟨⟨_, _, n, hsplit, hdigits, hvalue, hv⟩, hrange⟩
      cases hsplit
      have hn : n < 2 ^ 64 := by
        unfold withSign at hv
        split_ifs at hv <;> omega
      have hnat : (UInt64.ofNat n).toNat = n := toNat_ofNat_of_lt hn
      refine ⟨UInt64.ofNat n, (hr _).mpr ⟨hdigits, ?_⟩, ?_, hrange⟩
      · rw [hvalue, hnat]
      · rw [hnat]
        exact hv

theorem parseU64Radix_eq_ok (hradix : 2 ≤ radix ∧ radix ≤ 36) (max : UInt64)
    (s : List UInt8) (v : UInt64) : parseU64Radix s radix max = some (.ok v) ↔
      StandsFor false radix s v.toNat ∧ v.toNat ≤ max.toNat := by
  have hcontract : @guard Option _ (2 ≤ radix ∧ radix ≤ 36) _ = some () := if_pos hradix
  rw [parseU64Radix, hcontract, bind_eq_bind, bind_some, standsFor_unsigned_iff]
  cases splitPlus s with
  | error k => simp
  | ok digits =>
    obtain ⟨r, hrun, hr⟩ := parseU64Digits_run hradix digits
    have hbound : boundU64 max r = .ok v ↔ r = .ok v ∧ v.toNat ≤ max.toNat := by
      cases r with
      | error k => simp [boundU64]
      | ok w =>
        simp only [boundU64, gt_iff_lt, UInt64.lt_iff_toNat_lt]
        split_ifs with hlarge
        · simp only [Except.ok.injEq, false_iff]
          rintro ⟨rfl, hle⟩
          omega
        · simp only [Except.ok.injEq]
          constructor
          · rintro rfl
            exact ⟨rfl, by omega⟩
          · exact fun h => h.1
    dsimp only
    rw [hrun, map_some, Option.some.injEq, hbound, hr]
    constructor
    · rintro ⟨⟨hdigits, hvalue⟩, hle⟩
      exact ⟨⟨digits, v.toNat, rfl, hdigits, hvalue, rfl⟩, hle⟩
    · rintro ⟨⟨_, n, hsplit, hdigits, hvalue, hv⟩, hle⟩
      cases hsplit
      rw [Int.natCast_inj.mp hv]
      exact ⟨⟨hdigits, hvalue⟩, by omega⟩

/-! ## The 128-bit integers that are read -/

theorem U128.fromStrRadixSlice_eq_ok (hradix : 2 ≤ radix ∧ radix ≤ 36)
    (s : List UInt8) (v : U128) : U128.fromStrRadixSlice s radix = some (.ok v) ↔
      StandsFor false radix s v.toNat := by
  have hcontract : @guard Option _ (2 ≤ radix ∧ radix ≤ 36) _ = some () := if_pos hradix
  rw [U128.fromStrRadixSlice, hcontract, bind_eq_bind, bind_some,
    standsFor_unsigned_iff]
  cases splitPlus s with
  | error k => simp
  | ok digits =>
    obtain ⟨r, hrun, hr⟩ := parseU128Digits_run hradix digits
    dsimp only
    rw [hrun, Option.some.injEq, hr]
    constructor
    · rintro ⟨hdigits, hvalue⟩
      exact ⟨digits, v.toNat, rfl, hdigits, hvalue, rfl⟩
    · rintro ⟨_, n, hsplit, hdigits, hvalue, hv⟩
      cases hsplit
      rw [Int.natCast_inj.mp hv]
      exact ⟨hdigits, hvalue⟩

theorem I128.toInt_ofInt (i : Int) : (I128.ofInt i).toInt = castSigned 128 i := by
  have hword : (UInt64.ofInt i).toNat = (i % 2 ^ 64).toNat := by
    rw [UInt64.ofInt, toNat_ofNat_of_lt (by omega)]
  rw [I128.ofInt, I128.toInt]
  dsimp only
  rw [hword, castSigned, castSigned, Int.bmod_def, Int.bmod_def]
  push_cast
  omega

theorem I128.toInt_inj {x y : I128} : x.toInt = y.toInt ↔ x = y := by
  constructor
  · intro h
    obtain ⟨xlow, xhigh⟩ := x
    obtain ⟨ylow, yhigh⟩ := y
    have hx := xlow.toNat_lt
    have hy := ylow.toNat_lt
    simp only [I128.toInt] at h
    have hlow : xlow.toNat = ylow.toNat := by omega
    have hhigh : xhigh = yhigh := by omega
    rw [UInt64.toNat_inj.mp hlow, hhigh]
  · rintro rfl
    rfl

theorem I128.toInt_fromU128 (val : U128) :
    (I128.fromU128 val).toInt = castSigned 128 val.toNat := by
  have hlow := val.low.toNat_lt
  have hvalue : val.toNat = val.high.toNat * 2 ^ 64 + val.low.toNat := rfl
  rw [I128.fromU128, I128.toInt, hvalue]
  dsimp only
  rw [castSigned, castSigned, Int.bmod_def, Int.bmod_def]
  push_cast
  omega

/-- The negation of the word of the digits, which reaches the least value. -/
theorem I128.toInt_neg_fromU128 {val : U128} (h : val.toNat ≤ 2 ^ 127) :
    (I128.fromU128 val).neg.toInt = -(val.toNat : Int) := by
  rw [I128.neg, I128.toInt_ofInt, I128.toInt_fromU128, castSigned, castSigned, Int.bmod_def,
    Int.bmod_def]
  push_cast
  omega

theorem boundI128_eq_ok {isNegative : Bool} {r : Except IntErrorKind U128} {v : I128} :
    boundI128 isNegative r = .ok v ↔ ∃ w, r = .ok w ∧ v.toInt = withSign isNegative w.toNat ∧
      -(2 ^ 127) ≤ v.toInt ∧ v.toInt < 2 ^ 127 := by
  have hmax : I128.maxPos.toNat = 2 ^ 127 - 1 := rfl
  have hmin : I128.maxNegAbs.toNat = 2 ^ 127 := rfl
  cases r with
  | error k => simp [boundI128]
  | ok w =>
    simp only [boundI128, Except.ok.injEq, exists_eq_left', U128.lt_iff, hmax, hmin]
    cases isNegative with
    | true =>
      simp only [if_true, withSign]
      by_cases hlarge : 2 ^ 127 < w.toNat
      · rw [if_pos hlarge]
        simp only [reduceCtorEq, false_iff]
        omega
      · rw [if_neg hlarge, Except.ok.injEq, ← I128.toInt_inj, I128.toInt_neg_fromU128 (by omega)]
        omega
    | false =>
      simp only [Bool.false_eq_true, if_false, withSign]
      by_cases hlarge : 2 ^ 127 - 1 < w.toNat
      · rw [if_pos hlarge]
        simp only [reduceCtorEq, false_iff]
        omega
      · rw [if_neg hlarge, Except.ok.injEq, ← I128.toInt_inj, I128.toInt_fromU128,
          castSigned_eq (by omega) (by omega)]
        omega

theorem I128.fromStrRadixSlice_eq_ok (hradix : 2 ≤ radix ∧ radix ≤ 36)
    (s : List UInt8) (v : I128) : I128.fromStrRadixSlice s radix = some (.ok v) ↔
      StandsFor true radix s v.toInt ∧ -(2 ^ 127) ≤ v.toInt ∧ v.toInt < 2 ^ 127 := by
  have hcontract : @guard Option _ (2 ≤ radix ∧ radix ≤ 36) _ = some () := if_pos hradix
  rw [I128.fromStrRadixSlice, hcontract, bind_eq_bind, bind_some,
    standsFor_signed_iff]
  cases splitSign s with
  | error k => simp
  | ok split =>
    obtain ⟨isNegative, digits⟩ := split
    obtain ⟨r, hrun, hr⟩ := parseU128Digits_run hradix digits
    dsimp only
    rw [hrun, map_some, Option.some.injEq, boundI128_eq_ok]
    constructor
    · rintro ⟨w, hw, hv, hrange⟩
      obtain ⟨hdigits, hvalue⟩ := (hr w).mp hw
      exact ⟨⟨isNegative, digits, w.toNat, rfl, hdigits, hvalue, hv⟩, hrange⟩
    · rintro ⟨⟨_, _, n, hsplit, hdigits, hvalue, hv⟩, hrange⟩
      cases hsplit
      have hn : n < 2 ^ 128 := by
        unfold withSign at hv
        split_ifs at hv <;> omega
      have hnat : (U128.ofNat n).toNat = n := by
        rw [U128.toNat_ofNat, Nat.mod_eq_of_lt hn]
      refine ⟨U128.ofNat n, (hr _).mpr ⟨hdigits, ?_⟩, ?_, hrange⟩
      · rw [hvalue, hnat]
      · rw [hnat]
        exact hv

/-! ## The types' values -/

theorem map_map_eq_ok {α β ε : Type} {o : Option (Except ε α)} {f : α → β} {v : β} :
    o.map (·.map f) = some (.ok v) ↔ ∃ a, o = some (.ok a) ∧ f a = v := by
  rcases o with _ | (e | a)
  · simp
  · simp [Except.map]
  · simp [Except.map]

section Casts

variable {radix : Nat} (hradix : 2 ≤ radix ∧ radix ≤ 36) (s : List UInt8) (v : Int)

include hradix

theorem castSigned_parseI64Radix_eq_ok {bits : Nat} {max : Int} {minAbs : UInt64}
    (hmax : 0 ≤ max ∧ max < 2 ^ 63) (hmin : minAbs.toNat ≤ 2 ^ 63)
    (hlow : minAbs.toNat * 2 ≤ 2 ^ bits) (hhigh : max * 2 < 2 ^ bits) :
    (parseI64Radix s radix max minAbs).map (·.map (castSigned bits)) = some (.ok v) ↔
      StandsFor true radix s v ∧ -(minAbs.toNat : Int) ≤ v ∧ v ≤ max := by
  have hcast : ∀ a : Int, -(minAbs.toNat : Int) ≤ a ∧ a ≤ max → castSigned bits a = a := by
    intro a ha
    have hlowInt : (minAbs.toNat : Int) * 2 ≤ 2 ^ bits := by exact_mod_cast hlow
    exact castSigned_eq (by omega) (by omega)
  rw [map_map_eq_ok]
  constructor
  · rintro ⟨a, ha, hv⟩
    have hread := (parseI64Radix_eq_ok hradix hmax hmin s a).mp ha
    rw [hcast a hread.2] at hv
    exact hv ▸ hread
  · intro hread
    exact ⟨v, (parseI64Radix_eq_ok hradix hmax hmin s v).mpr hread, hcast v hread.2⟩

theorem castUnsigned_parseU64Radix_eq_ok {bits : Nat} {max : UInt64}
    (hmax : max.toNat < 2 ^ bits) :
    (parseU64Radix s radix max).map (·.map fun w => castUnsigned bits w.toNat) =
      some (.ok v) ↔ StandsFor false radix s v ∧ 0 ≤ v ∧ v ≤ max.toNat := by
  have hcast : ∀ w : UInt64, w.toNat ≤ max.toNat → castUnsigned bits w.toNat = w.toNat := by
    intro w hw
    have hpow : (w.toNat : Int) < 2 ^ bits := by
      exact_mod_cast Nat.lt_of_le_of_lt hw hmax
    exact Int.emod_eq_of_lt (Int.natCast_nonneg _) hpow
  rw [map_map_eq_ok]
  constructor
  · rintro ⟨w, hw, hv⟩
    obtain ⟨hstands, hle⟩ := (parseU64Radix_eq_ok hradix max s w).mp hw
    rw [hcast w hle] at hv
    subst hv
    exact ⟨hstands, by omega, by omega⟩
  · rintro ⟨hstands, hzero, hle⟩
    have hword : (UInt64.ofInt v).toNat = v.toNat := toNat_ofInt (by omega) (by
      have := max.toNat_lt
      omega)
    have hv : ((UInt64.ofInt v).toNat : Int) = v := by omega
    refine ⟨UInt64.ofInt v, (parseU64Radix_eq_ok hradix max s _).mpr ⟨?_, by omega⟩, ?_⟩
    · rw [hv]
      exact hstands
    · rw [hcast _ (by omega), hv]

end Casts

/-- A text is read as the value of its sign and digits, when the type has it. -/
theorem IntType.fromStrRadix_eq_ok (t : IntType) (hradix : 2 ≤ radix ∧ radix ≤ 36)
    (s : List UInt8) (v : Int) : t.fromStrRadix s radix = some (.ok v) ↔
      StandsFor t.signed radix s v ∧ t.Holds v := by
  cases t with
  | i8 =>
    exact @castSigned_parseI64Radix_eq_ok radix hradix s v 8 127 (127 + 1)
      (by decide) (by decide) (by decide) (by decide)
  | u8 => exact @castUnsigned_parseU64Radix_eq_ok radix hradix s v 8 255 (by decide)
  | i16 =>
    exact @castSigned_parseI64Radix_eq_ok radix hradix s v 16 32767 (32767 + 1)
      (by decide) (by decide) (by decide) (by decide)
  | u16 => exact @castUnsigned_parseU64Radix_eq_ok radix hradix s v 16 65535 (by decide)
  | i32 =>
    exact @castSigned_parseI64Radix_eq_ok radix hradix s v 32 2147483647 (2147483647 + 1)
      (by decide) (by decide) (by decide) (by decide)
  | u32 => exact @castUnsigned_parseU64Radix_eq_ok radix hradix s v 32 4294967295 (by decide)
  | i64 =>
    exact @parseI64Radix_eq_ok radix hradix 9223372036854775807 (9223372036854775807 + 1)
      (by decide) (by decide) s v
  | u64 =>
    have hcast : (fun w : UInt64 => castUnsigned 64 w.toNat) = fun w => (w.toNat : Int) := by
      funext w
      exact Int.emod_eq_of_lt (Int.natCast_nonneg _) (by exact_mod_cast w.toNat_lt)
    have hread := @castUnsigned_parseU64Radix_eq_ok radix hradix s v 64 u64Max (by decide)
    rw [hcast] at hread
    exact hread
  | i128 =>
    have hholds : IntType.i128.Holds v ↔ -(2 ^ 127) ≤ v ∧ v < 2 ^ 127 :=
      and_congr Iff.rfl Int.le_sub_one_iff
    rw [IntType.fromStrRadix, map_map_eq_ok, hholds]
    constructor
    · rintro ⟨w, hw, rfl⟩
      exact (I128.fromStrRadixSlice_eq_ok hradix s w).mp hw
    · intro hread
      have hv : (I128.ofInt v).toInt = v := by
        rw [I128.toInt_ofInt, castSigned_eq (by omega) (by omega)]
      refine ⟨I128.ofInt v, (I128.fromStrRadixSlice_eq_ok hradix s _).mpr ?_, hv⟩
      rw [hv]
      exact hread
  | u128 =>
    have hholds : IntType.u128.Holds v ↔ 0 ≤ v ∧ v < 2 ^ 128 :=
      and_congr Iff.rfl Int.le_sub_one_iff
    rw [IntType.fromStrRadix, map_map_eq_ok, hholds]
    constructor
    · rintro ⟨w, hw, rfl⟩
      have hlt := w.toNat_lt
      exact ⟨(U128.fromStrRadixSlice_eq_ok hradix s w).mp hw, by omega, by omega⟩
    · rintro ⟨hstands, hzero, hlt⟩
      have hv : ((U128.ofNat v.toNat).toNat : Int) = v := by
        rw [U128.toNat_ofNat]
        omega
      refine ⟨U128.ofNat v.toNat, (U128.fromStrRadixSlice_eq_ok hradix s _).mpr ?_, hv⟩
      rw [hv]
      exact hstands

end Wado
