/-
Reading digits as integers of 64 and of 128 bits.
-/
import Wado.Int128.DivRem
import Wado.Int128.Round
import Wado.Numerals

namespace Wado

open Words Numerals Option

/-- The kinds of failure of integer parsing. -/
inductive IntErrorKind where
  | empty
  | invalidDigit
  | posOverflow
  | negOverflow
deriving DecidableEq, Repr

/-- The value of an ASCII digit or letter, or -1. -/
def digitValue (b : UInt8) : Int :=
  let c : Int := b.toNat
  if c ≥ 48 ∧ c ≤ 57 then c - 48
  else if c ≥ 97 ∧ c ≤ 122 then c - 97 + 10
  else if c ≥ 65 ∧ c ≤ 90 then c - 65 + 10
  else -1

def u64Max : UInt64 := 0xffffffffffffffff

def parseU64Loop (radix : Nat) (maxBeforeMul maxDigitForOverflow : UInt64) :
    UInt64 → List UInt8 → Except IntErrorKind UInt64
  | acc, [] => .ok acc
  | acc, b :: s =>
    let d := digitValue b
    if d < 0 ∨ d ≥ radix then .error .invalidDigit
    else
      let d64 := UInt64.ofInt d
      if acc > maxBeforeMul ∨ acc = maxBeforeMul ∧ d64 > maxDigitForOverflow then
        .error .posOverflow
      else
        parseU64Loop radix maxBeforeMul maxDigitForOverflow (acc * UInt64.ofNat radix + d64) s

/-- The digits of a text as a word; a radix out of range traps. -/
def parseU64Digits (s : List UInt8) (radix : Nat) : Option (Except IntErrorKind UInt64) := do
  guard (2 ≤ radix ∧ radix ≤ 36)
  if s.length = 0 then return .error .empty
  let r := UInt64.ofNat radix
  let maxBeforeMul ← U128.div64 u64Max r
  let maxDigitForOverflow := u64Max - maxBeforeMul * r
  return parseU64Loop radix maxBeforeMul maxDigitForOverflow 0 s

def parseU128Loop (radix : Nat) (maxBeforeMul maxDigitForOverflow : U128) :
    U128 → List UInt8 → Except IntErrorKind U128
  | acc, [] => .ok acc
  | acc, b :: s =>
    let d := digitValue b
    if d < 0 ∨ d ≥ radix then .error .invalidDigit
    else
      let d128 := U128.fromI64 d
      if maxBeforeMul.lt acc ∨ acc = maxBeforeMul ∧ maxDigitForOverflow.lt d128 then
        .error .posOverflow
      else
        parseU128Loop radix maxBeforeMul maxDigitForOverflow
          ((acc.mul (U128.fromU64 (UInt64.ofNat radix))).add d128) s

/-- The digits of a text as a 128-bit integer; a radix out of range traps. -/
def parseU128Digits (s : List UInt8) (radix : Nat) : Option (Except IntErrorKind U128) := do
  guard (2 ≤ radix ∧ radix ≤ 36)
  if s.length = 0 then return .error .empty
  let r := U128.fromU64 (UInt64.ofNat radix)
  let max128 := U128.fromPair u64Max u64Max
  let (maxBeforeMul, maxDigitForOverflow) ← max128.divRem r
  return parseU128Loop radix maxBeforeMul maxDigitForOverflow U128.zero s

/-! ## The digits of a radix -/

/-- The value of a byte as a digit of a radix. -/
def digitOf (radix : Nat) (b : UInt8) : Option Nat :=
  if digitValue b < 0 ∨ digitValue b ≥ radix then none else some (digitValue b).toNat

/-- What the text of digits stands for. -/
def digitsValue (radix : Nat) (s : List UInt8) : Option Nat :=
  numeral (digitOf radix) radix 0 s

/-- The kind that a failed reading is reported as. -/
def kindOf : Failure → IntErrorKind
  | .invalid => .invalidDigit
  | .overflow => .posOverflow

theorem digitOf_eq_some {radix d : Nat} {b : UInt8} :
    digitOf radix b = some d ↔ digitValue b = d ∧ d < radix := by
  unfold digitOf
  split_ifs with h
  · simp only [reduceCtorEq, false_iff]
    rintro ⟨hd, hlt⟩
    omega
  · rw [Option.some.injEq]
    omega

variable {radix : Nat}

theorem digitOf_eq_none {b : UInt8} :
    digitOf radix b = none ↔ digitValue b < 0 ∨ digitValue b ≥ radix := by
  unfold digitOf
  split_ifs with h <;> simp [h]

theorem parseU64Loop_eq (hradix : 2 ≤ radix ∧ radix ≤ 36)
    {maxBeforeMul maxDigit : UInt64} (hbefore : maxBeforeMul.toNat = (2 ^ 64 - 1) / radix)
    (hdigit : maxDigit.toNat = (2 ^ 64 - 1) % radix) (acc : UInt64) (s : List UInt8) :
    parseU64Loop radix maxBeforeMul maxDigit acc s =
      ((readBelow (digitOf radix) radix (2 ^ 64) acc.toNat s).map UInt64.ofNat).mapError
        kindOf := by
  induction s generalizing acc with
  | nil =>
    simp only [parseU64Loop, readBelow, Except.map, Except.mapError, UInt64.ofNat_toNat]
  | cons b s ih =>
    rw [parseU64Loop, readBelow]
    cases hd : digitOf radix b with
    | none =>
      dsimp only
      rw [if_pos (digitOf_eq_none.mp hd)]
      rfl
    | some d =>
      obtain ⟨hvalue, hlt⟩ := digitOf_eq_some.mp hd
      have hd64 : (UInt64.ofInt (digitValue b)).toNat = d := toNat_ofInt hvalue (by omega)
      have hr : (UInt64.ofNat radix).toNat = radix := toNat_ofNat_of_lt (by omega)
      have htest : (acc > maxBeforeMul ∨
          acc = maxBeforeMul ∧ UInt64.ofInt (digitValue b) > maxDigit) ↔
          2 ^ 64 - 1 < acc.toNat * radix + d := by
        rw [← overflow_iff hlt, gt_iff_lt, gt_iff_lt, UInt64.lt_iff_toNat_lt,
          UInt64.lt_iff_toNat_lt, ← UInt64.toNat_inj, hbefore, hdigit, hd64]
      dsimp only
      rw [if_neg (by omega)]
      by_cases hfits : acc.toNat * radix + d < 2 ^ 64
      · have hnext : (acc * UInt64.ofNat radix + UInt64.ofInt (digitValue b)).toNat =
            acc.toNat * radix + d := by
          rw [UInt64.toNat_add, UInt64.toNat_mul, hr, hd64]
          omega
        rw [if_neg (fun h => by have := htest.mp h; omega), if_pos hfits, ih, hnext]
      · rw [if_pos (htest.mpr (by omega)), if_neg hfits]
        rfl

variable {s : List UInt8}

theorem parseU64Digits_eq (hradix : 2 ≤ radix ∧ radix ≤ 36) (hs : s ≠ []) :
    parseU64Digits s radix = some
      (((readBelow (digitOf radix) radix (2 ^ 64) 0 s).map UInt64.ofNat).mapError kindOf) := by
  have hr : (UInt64.ofNat radix).toNat = radix := toNat_ofNat_of_lt (by omega)
  have hmax : u64Max.toNat = 2 ^ 64 - 1 := rfl
  have hdiv : U128.div64 u64Max (UInt64.ofNat radix) = some (u64Max / UInt64.ofNat radix) :=
    if_neg (ne_zero_of_pos (by omega))
  have hbefore : (u64Max / UInt64.ofNat radix).toNat = (2 ^ 64 - 1) / radix := by
    rw [UInt64.toNat_div, hr, hmax]
  have hle := Nat.div_mul_le_self (2 ^ 64 - 1) radix
  have hproduct : (u64Max / UInt64.ofNat radix * UInt64.ofNat radix).toNat =
      (2 ^ 64 - 1) / radix * radix := by
    rw [toNat_mul_of_lt (by rw [hbefore, hr]; omega), hbefore, hr]
  have hdigit : (u64Max - u64Max / UInt64.ofNat radix * UInt64.ofNat radix).toNat =
      (2 ^ 64 - 1) % radix := by
    rw [Words.toNat_sub_of_le (by rw [hproduct, hmax]; exact hle), hproduct, hmax]
    exact LongDivision.sub_div_mul _ _
  have hcontract : @guard Option _ (2 ≤ radix ∧ radix ≤ 36) _ = some () := if_pos hradix
  have hlength : ¬ s.length = 0 := fun h => hs (List.length_eq_zero_iff.mp h)
  rw [parseU64Digits, hcontract, bind_eq_bind, bind_some, if_neg hlength]
  dsimp only
  rw [hdiv, bind_eq_bind, bind_some, parseU64Loop_eq hradix hbefore hdigit]
  rfl

/-- The sum and product of 128 bits, where they do not pass them. -/
theorem U128.toNat_mul_add {acc d128 : U128} {radix d : Nat} (hd : d128.toNat = d)
    (hr : radix < 2 ^ 64) (hfits : acc.toNat * radix + d < 2 ^ 128) :
    ((acc.mul (U128.fromU64 (UInt64.ofNat radix))).add d128).toNat = acc.toNat * radix + d := by
  rw [U128.toNat_add, U128.toNat_mul, U128.toNat_fromU64, toNat_ofNat_of_lt hr, hd]
  omega

theorem U128.toNat_fromI64 {i : Int} {d : Nat} (hi : i = d) (hd : d < 2 ^ 64) :
    (U128.fromI64 i).toNat = d := by
  have hsign : ¬ i < 0 := by omega
  rw [U128.fromI64, if_neg hsign, U128.toNat, toNat_ofInt hi hd]
  simp

theorem parseU128Loop_eq (hradix : 2 ≤ radix ∧ radix ≤ 36)
    {maxBeforeMul maxDigit : U128} (hbefore : maxBeforeMul.toNat = (2 ^ 128 - 1) / radix)
    (hdigit : maxDigit.toNat = (2 ^ 128 - 1) % radix) (acc : U128) (s : List UInt8) :
    parseU128Loop radix maxBeforeMul maxDigit acc s =
      ((readBelow (digitOf radix) radix (2 ^ 128) acc.toNat s).map U128.ofNat).mapError
        kindOf := by
  induction s generalizing acc with
  | nil =>
    have hacc : U128.ofNat acc.toNat = acc := by
      rw [← U128.toNat_inj, U128.toNat_ofNat, Nat.mod_eq_of_lt acc.toNat_lt]
    simp only [parseU128Loop, readBelow, Except.map, Except.mapError, hacc]
  | cons b s ih =>
    rw [parseU128Loop, readBelow]
    cases hd : digitOf radix b with
    | none =>
      dsimp only
      rw [if_pos (digitOf_eq_none.mp hd)]
      rfl
    | some d =>
      obtain ⟨hvalue, hlt⟩ := digitOf_eq_some.mp hd
      have hd128 : (U128.fromI64 (digitValue b)).toNat = d :=
        U128.toNat_fromI64 hvalue (by omega)
      have htest : (maxBeforeMul.lt acc = true ∨
          acc = maxBeforeMul ∧ maxDigit.lt (U128.fromI64 (digitValue b)) = true) ↔
          2 ^ 128 - 1 < acc.toNat * radix + d := by
        rw [← overflow_iff hlt, U128.lt_iff, U128.lt_iff, ← U128.toNat_inj, hbefore, hdigit, hd128]
      dsimp only
      rw [if_neg (by omega)]
      by_cases hfits : acc.toNat * radix + d < 2 ^ 128
      · rw [if_neg (fun h => by have := htest.mp h; omega), if_pos hfits, ih,
          U128.toNat_mul_add hd128 (by omega) hfits]
      · rw [if_pos (htest.mpr (by omega)), if_neg hfits]
        rfl

theorem parseU128Digits_eq (hradix : 2 ≤ radix ∧ radix ≤ 36) (hs : s ≠ []) :
    parseU128Digits s radix = some
      (((readBelow (digitOf radix) radix (2 ^ 128) 0 s).map U128.ofNat).mapError kindOf) := by
  have hr : (U128.fromU64 (UInt64.ofNat radix)).toNat = radix := by
    rw [U128.toNat_fromU64, toNat_ofNat_of_lt (by omega)]
  have hmax : (U128.fromPair u64Max u64Max).toNat = 2 ^ 128 - 1 := rfl
  have hrne : U128.fromU64 (UInt64.ofNat radix) ≠ U128.zero := by
    intro h
    rw [← U128.toNat_inj, hr] at h
    exact absurd (h ▸ hradix.1) (by decide)
  obtain ⟨q, d, hrun, hbefore, hdigit⟩ :=
    U128.divRem_exact (U128.fromPair u64Max u64Max) _ hrne
  rw [hr, hmax] at hbefore hdigit
  have hcontract : @guard Option _ (2 ≤ radix ∧ radix ≤ 36) _ = some () := if_pos hradix
  have hlength : ¬ s.length = 0 := fun h => hs (List.length_eq_zero_iff.mp h)
  rw [parseU128Digits, hcontract, bind_eq_bind, bind_some, if_neg hlength]
  dsimp only
  rw [hrun, bind_eq_bind, bind_some]
  dsimp only
  rw [parseU128Loop_eq hradix hbefore hdigit]
  rfl

/-- What a text of digits and other bytes is parsed to. -/
theorem parseU128Digits_cases (hradix : 2 ≤ radix ∧ radix ≤ 36) (hs : s ≠ []) :
    (∀ v, parseU128Digits s radix = some (.ok v) ↔ digitsValue radix s = some v.toNat) ∧
    (parseU128Digits s radix = some (.error .invalidDigit) ↔
      ∃ before b after v, s = before ++ b :: after ∧ digitsValue radix before = some v ∧
        v < 2 ^ 128 ∧ digitOf radix b = none) ∧
    (parseU128Digits s radix = some (.error .posOverflow) ↔
      ∃ before after v, s = before ++ after ∧ digitsValue radix before = some v ∧ 2 ^ 128 ≤ v) := by
  have hone : 1 ≤ radix := by omega
  have hpos : 0 < 2 ^ 128 := by decide
  rw [parseU128Digits_eq hradix hs]
  unfold digitsValue
  rw [← readBelow_eq_invalid hone hpos s, ← readBelow_eq_overflow hpos s]
  have hok : ∀ v, readBelow (digitOf radix) radix (2 ^ 128) 0 s = .ok v ↔
      numeral (digitOf radix) radix 0 s = some v ∧ v < 2 ^ 128 :=
    fun v => readBelow_eq_ok hone hpos s
  cases hread : readBelow (digitOf radix) radix (2 ^ 128) 0 s with
  | ok n =>
    obtain ⟨hnumeral, hn⟩ := (hok n).mp hread
    refine ⟨?_, ?_, ?_⟩
    · intro v
      rw [hnumeral]
      constructor
      · intro h
        cases h
        rw [U128.toNat_ofNat, Nat.mod_eq_of_lt hn]
      · intro h
        cases h
        simp only [Except.map, Except.mapError, Option.some.injEq, Except.ok.injEq]
        rw [← U128.toNat_inj, U128.toNat_ofNat, Nat.mod_eq_of_lt hn]
    · simp [Except.map, Except.mapError]
    · simp [Except.map, Except.mapError]
  | error failure =>
    refine ⟨?_, ?_, ?_⟩
    · intro v
      constructor
      · intro h
        cases h
      · intro h
        have hv := (hok v.toNat).mpr ⟨h, v.toNat_lt⟩
        rw [hread] at hv
        cases hv
    · cases failure <;> simp [Except.map, Except.mapError, kindOf]
    · cases failure <;> simp [Except.map, Except.mapError, kindOf]

end Wado

/-
Writing 128-bit integers as digits, and that the digits are read back.
-/

namespace Wado

open Words Numerals

inductive Alignment where
  | left
  | center
  | right
deriving DecidableEq, Repr

/-- The fields of a formatter that an integer's text depends on, and its buffer. -/
structure Formatter where
  fill : Char
  align : Alignment
  signPlus : Bool
  alternate : Bool
  zeroPad : Bool
  width : Int
  buf : List UInt8

namespace Formatter

def push (f : Formatter) (text : List UInt8) : Formatter := { f with buf := f.buf ++ text }

def writeCharN (f : Formatter) (c : Char) (n : Int) : Formatter :=
  f.push (List.replicate n.toNat (String.utf8EncodeChar c)).flatten

def writeSign (f : Formatter) (isNegative : Bool) : Formatter :=
  if isNegative then f.push (String.utf8EncodeChar '-')
  else if f.signPlus then f.push (String.utf8EncodeChar '+')
  else f

/-- Bytes at the end that the caller fills, and where they begin. -/
def reserveUninit (f : Formatter) (n : Nat) : Formatter × Nat :=
  (f.push (List.replicate n 0), f.buf.length)

/-- The sign, the marker of the radix and the padding written around a place
for the digits. -/
def prepareIntWrite (f : Formatter) (isNegative : Bool) (altPrefix : List UInt8)
    (digitCount : Nat) : Formatter × Nat :=
  let signLen : Int := if isNegative || f.signPlus then 1 else 0
  let prefixLen : Int := if f.alternate then altPrefix.length else 0
  let contentLen := signLen + prefixLen + digitCount
  let writePrefix (f : Formatter) : Formatter := if prefixLen > 0 then f.push altPrefix else f
  if f.width ≤ 0 ∨ contentLen ≥ f.width then
    (writePrefix (f.writeSign isNegative)).reserveUninit digitCount
  else
    let padding := f.width - contentLen
    if f.zeroPad then
      ((writePrefix (f.writeSign isNegative)).writeCharN '0' padding).reserveUninit digitCount
    else
      match f.align with
      | .left =>
        let (g, offset) := (writePrefix (f.writeSign isNegative)).reserveUninit digitCount
        (g.writeCharN f.fill padding, offset)
      | .center =>
        let leftPad := padding / 2
        let rightPad := padding - leftPad
        let (g, offset) :=
          (writePrefix ((f.writeCharN f.fill leftPad).writeSign isNegative)).reserveUninit
            digitCount
        (g.writeCharN f.fill rightPad, offset)
      | .right =>
        (writePrefix ((f.writeCharN f.fill padding).writeSign isNegative)).reserveUninit
          digitCount

end Formatter

/-- A write of one byte, which traps outside the array. -/
def setByte (arr : List UInt8) (pos : Int) (value : UInt8) : Option (List UInt8) :=
  if 0 ≤ pos ∧ pos < arr.length then some (arr.set pos.toNat value) else none

/-- The digits down to the offset, two at a turn, so many still to write. -/
def writeDecimalFrom (arr : List UInt8) (offset : Int) (t : UInt64) : Nat → Option (List UInt8)
  | 0 => some arr
  | 1 => setByte arr offset (UInt8.ofNat (48 + (t % 10).toNat))
  | remaining + 2 => do
    let q := t / 100
    let pair := (t - q * 100).toNat
    let tens := pair / 10
    let arr ← setByte arr (offset + remaining + 1) (UInt8.ofNat (48 + pair - tens * 10))
    let arr ← setByte arr (offset + remaining) (UInt8.ofNat (48 + tens))
    writeDecimalFrom arr offset q remaining

def writeDecimalDigits (arr : List UInt8) (offset : Int) (val : UInt64) (digitCount : Nat) :
    Option (List UInt8) :=
  writeDecimalFrom arr offset val digitCount

def countDigitsU64 (val : UInt64) : Nat :=
  if val < 100000 then
    if val < 100 then
      if val < 10 then 1 else 2
    else if val < 1000 then 3
    else if val < 10000 then 4
    else 5
  else if val < 10000000000 then
    if val < 10000000 then
      if val < 1000000 then 6 else 7
    else if val < 100000000 then 8
    else if val < 1000000000 then 9
    else 10
  else if val < 1000000000000000 then
    if val < 1000000000000 then
      if val < 100000000000 then 11 else 12
    else if val < 10000000000000 then 13
    else if val < 100000000000000 then 14
    else 15
  else if val < 100000000000000000 then
    if val < 10000000000000000 then 16 else 17
  else if val < 1000000000000000000 then 18
  else if val < 10000000000000000000 then 19
  else 20

namespace U128

/-- The greatest power of ten inside a word. -/
def chunk : U128 := fromU64 10000000000000000000

/-- The groups of nineteen digits, the top one first, and how many there are. -/
def decimalChunks (x : U128) : Option (UInt64 × UInt64 × UInt64 × Nat) :=
  if x.high ≠ 0 then do
    let (q, r) ← x.divRem chunk
    if q.ge chunk then do
      let (q2, r2) ← q.divRem chunk
      return (q2.low, r2.low, r.low, 3)
    else return (q.low, 0, r.low, 2)
  else return (x.low, 0, 0, 1)

def fmtDecimalMagnitude (x : U128) (f : Formatter) (isNeg : Bool) : Option Formatter := do
  let (top, mid, bottom, chunks) ← x.decimalChunks
  let topDigits := countDigitsU64 top
  let digitCount := topDigits + (chunks - 1) * 19
  let (f, offset) := f.prepareIntWrite isNeg [] digitCount
  let stop : Int := offset + digitCount
  let arr ← if chunks = 3 then writeDecimalDigits f.buf (stop - 38) mid 19 else some f.buf
  let arr ← if chunks > 1 then writeDecimalDigits arr (stop - 19) bottom 19 else some arr
  let arr ← writeDecimalDigits arr offset top topDigits
  return { f with buf := arr }

/-- The character of a digit of a base. -/
def baseChar (upper : Bool) (digit : Nat) : UInt8 :=
  if digit < 10 then UInt8.ofNat (48 + digit)
  else if upper then UInt8.ofNat (65 + digit - 10)
  else UInt8.ofNat (97 + digit - 10)

/-- The digits from the last on, while bits are left; a turn drops at least one
of the bits, which the fuel counts. -/
def baseLoop (mask shift : UInt64) (upper : Bool) :
    Nat → List UInt8 → UInt64 → UInt64 → Int → Option (List UInt8 × Int)
  | 0, _, _, _, _ => none
  | fuel + 1, arr, lo, hi, pos =>
    if lo ≠ 0 ∨ hi ≠ 0 then do
      let pos := pos - 1
      let digit := (lo &&& mask).toNat
      let arr ← setByte arr pos (baseChar upper digit)
      let hiBits := hi <<< (64 - shift)
      let lo := lo >>> shift ||| hiBits
      let hi := hi >>> shift
      baseLoop mask shift upper fuel arr lo hi pos
    else some (arr, pos)

def bitsPerDigit (base : Nat) : Nat :=
  if base = 2 then 1 else if base = 8 then 3 else 4

def baseDigitCount (x : U128) (base : Nat) : Nat :=
  if x.low = 0 ∧ x.high = 0 then 1
  else
    let highestBit := if x.high ≠ 0 then 63 + u64BitLen x.high else u64BitLen x.low - 1
    (highestBit / bitsPerDigit base + 1).toNat

def fmtBase (x : U128) (f : Formatter) (base : Nat) (upper : Bool) (altPrefix : List UInt8) :
    Option Formatter := do
  let mask := UInt64.ofNat (base - 1)
  let digitCount := x.baseDigitCount base
  let (f, offset) := f.prepareIntWrite false altPrefix digitCount
  if x.low = 0 ∧ x.high = 0 then do
    let arr ← setByte f.buf offset 48
    return { f with buf := arr }
  else do
    let (arr, pos) ← baseLoop mask (UInt64.ofNat (bitsPerDigit base)) upper 129 f.buf x.low x.high
      (offset + digitCount)
    guard (pos = offset)
    return { f with buf := arr }

end U128

end Wado
