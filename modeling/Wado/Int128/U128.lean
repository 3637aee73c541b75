/-
The unsigned 128-bit integer as two words, its operators, and division by
long division over half words.
-/
import Wado.Words
import Wado.LongDivision
import Mathlib.Tactic.SplitIfs

namespace Wado

open Words

structure U128 where
  low : UInt64
  high : UInt64
deriving DecidableEq, Repr

namespace U128

def toNat (x : U128) : Nat := x.high.toNat * 2 ^ 64 + x.low.toNat

/-- The low 128 bits of a number. -/
def ofNat (n : Nat) : U128 := ⟨UInt64.ofNat n, UInt64.ofNat (n / 2 ^ 64)⟩

def fromU64 (value : UInt64) : U128 := ⟨value, 0⟩

/-- A signed word, its sign extended. -/
def fromI64 (value : Int) : U128 :=
  ⟨UInt64.ofInt value, if value < 0 then 0xffffffffffffffff else 0⟩

def fromPair (low high : UInt64) : U128 := ⟨low, high⟩

def zero : U128 := ⟨0, 0⟩

/-- The wide addition of the machine. -/
def add (x y : U128) : U128 := ofNat (x.toNat + y.toNat)

/-- The wide subtraction of the machine. -/
def sub (x y : U128) : U128 := ofNat (2 ^ 128 - y.toNat + x.toNat)

/-- The full product of two words, by the machine. -/
def mulWide (x y : UInt64) : UInt64 × UInt64 :=
  (UInt64.ofNat (x.toNat * y.toNat), UInt64.ofNat (x.toNat * y.toNat / 2 ^ 64))

def mul (x y : U128) : U128 :=
  let (p0Low, p0High) := mulWide x.low y.low
  let p1Low := x.low * y.high
  let p2Low := x.high * y.low
  ⟨p0Low, p0High + p1Low + p2Low⟩

def cmp (x y : U128) : Ordering :=
  if x.high < y.high then .lt
  else if x.high > y.high then .gt
  else if x.low < y.low then .lt
  else if x.low > y.low then .gt
  else .eq

def lt (x y : U128) : Bool := x.cmp y == .lt

def ge (x y : U128) : Bool := x.cmp y != .lt

/-- The mask of a half word. -/
def low32 : UInt64 := 0xffffffff

/-- Division of words, which traps on a zero divisor. -/
def div64 (x y : UInt64) : Option UInt64 :=
  if y = 0 then none else some (x / y)

def rem64 (x y : UInt64) : Option UInt64 :=
  if y = 0 then none else some (x % y)

/-- The corrections of an estimate, as many turns at most as the fuel. -/
def trialLoop (next dn1 dn0 : UInt64) : Nat → UInt64 → UInt64 → Option UInt64
  | 0, _, _ => none
  | fuel + 1, q, rhat =>
    if q > low32 ∨ q * dn0 > (rhat <<< 32 ||| next) then
      let q := q - 1
      let rhat := rhat + dn1
      if rhat > low32 then some q else trialLoop next dn1 dn0 fuel q rhat
    else some q

/-- One half of a quotient over a normalized divisor. -/
def trialQuotient (num next dn1 dn0 : UInt64) : Option UInt64 := do
  let q ← div64 num dn1
  let rhat := num - q * dn1
  trialLoop next dn1 dn0 (2 ^ 32) q rhat

/-- A failed assertion or contract, or a zero divisor, traps. -/
def divRemWide (hi lo d : UInt64) : Option (UInt64 × UInt64) := do
  guard (hi < d)
  if hi = 0 then
    return (← div64 lo d, ← rem64 lo d)
  else
    let s := clz d
    let dn := d <<< s
    let dn1 := dn >>> 32
    let dn0 := dn &&& low32
    let un32 := if s = 0 then hi <<< s else hi <<< s ||| lo >>> (64 - s)
    let un10 := lo <<< s
    let un1 := un10 >>> 32
    let un0 := un10 &&& low32
    let q1 ← trialQuotient un32 un1 dn1 dn0
    let un21 := (un32 <<< 32) + un1 - q1 * dn
    guard (un21 < dn)
    let q0 ← trialQuotient un21 un0 dn1 dn0
    let r := ((un21 <<< 32) + un0 - q0 * dn) >>> s
    return (q1 <<< 32 ||| q0, r)

/-- The quotient and the remainder. -/
def divRem (x divisor : U128) : Option (U128 × U128) := do
  if divisor.low = 0 ∧ divisor.high = 0 then none
  else if divisor.high = 0 then
    if x.high = 0 then
      return (fromU64 (← div64 x.low divisor.low), fromU64 (← rem64 x.low divisor.low))
    else
      let d := divisor.low
      let (qLow, r) ← divRemWide (← rem64 x.high d) x.low d
      return (fromPair qLow (← div64 x.high d), fromU64 r)
  else if x.lt divisor then
    return (zero, x)
  else
    let n := clz divisor.high
    let dn :=
      if n = 0 then divisor.high <<< n else divisor.high <<< n ||| divisor.low >>> (64 - n)
    let halfHigh := x.high >>> 1
    let halfLow := x.low >>> 1 ||| x.high <<< 63
    let (estimate, _) ← divRemWide halfHigh halfLow dn
    let q := estimate >>> (63 - n)
    guard (q ≠ 0)
    let q := q - 1
    let rem := x.sub ((fromU64 q).mul divisor)
    if rem.ge divisor then
      return (fromU64 (q + 1), rem.sub divisor)
    else
      return (fromU64 q, rem)

/-! ## The numbers of the operators -/

theorem toNat_lt (x : U128) : x.toNat < 2 ^ 128 := by
  have hhigh := x.high.toNat_lt
  have hlow := x.low.toNat_lt
  unfold toNat
  omega

theorem toNat_ofNat (n : Nat) : (ofNat n).toNat = n % 2 ^ 128 := by
  simp only [ofNat, toNat, UInt64.toNat_ofNat']
  omega

theorem toNat_inj {x y : U128} : x.toNat = y.toNat ↔ x = y := by
  constructor
  · intro h
    have hlow := x.low.toNat_lt
    have hlow' := y.low.toNat_lt
    simp only [toNat] at h
    have hhigh : x.high = y.high := UInt64.toNat_inj.mp (by omega)
    have hlow : x.low = y.low := UInt64.toNat_inj.mp (by omega)
    cases x
    cases y
    rw [U128.mk.injEq]
    exact ⟨hlow, hhigh⟩
  · intro h
    rw [h]

@[simp] theorem toNat_fromU64 (value : UInt64) : (fromU64 value).toNat = value.toNat := by
  simp [fromU64, toNat]

@[simp] theorem toNat_fromPair (low high : UInt64) :
    (fromPair low high).toNat = high.toNat * 2 ^ 64 + low.toNat := rfl

@[simp] theorem toNat_zero : zero.toNat = 0 := rfl

variable (x y : U128)

theorem toNat_add : (x.add y).toNat = (x.toNat + y.toNat) % 2 ^ 128 :=
  toNat_ofNat _

theorem toNat_sub_of_le {x y : U128} (h : y.toNat ≤ x.toNat) :
    (x.sub y).toNat = x.toNat - y.toNat := by
  have hx := x.toNat_lt
  rw [sub, toNat_ofNat]
  omega

theorem toNat_mul : (x.mul y).toNat = x.toNat * y.toNat % 2 ^ 128 := by
  have hproduct : x.toNat * y.toNat =
      2 ^ 128 * (x.high.toNat * y.high.toNat) + ((x.low.toNat * y.high.toNat +
        x.high.toNat * y.low.toNat) * 2 ^ 64 + x.low.toNat * y.low.toNat) := by
    simp only [toNat]
    ring
  have hcross : (x.mul y).high.toNat =
      (x.low.toNat * y.low.toNat / 2 ^ 64 + x.low.toNat * y.high.toNat +
        x.high.toNat * y.low.toNat) % 2 ^ 64 := by
    simp only [mul, mulWide, UInt64.toNat_add, UInt64.toNat_mul, UInt64.toNat_ofNat']
    omega
  have hlow : (x.mul y).low.toNat = x.low.toNat * y.low.toNat % 2 ^ 64 := by
    simp only [mul, mulWide, UInt64.toNat_ofNat']
  rw [hproduct, Nat.mul_add_mod, toNat, hcross, hlow]
  omega

theorem cmp_eq : x.cmp y = compare x.toNat y.toNat := by
  have hx := x.low.toNat_lt
  have hy := y.low.toNat_lt
  simp only [cmp, toNat, gt_iff_lt, UInt64.lt_iff_toNat_lt]
  split_ifs with h1 h2 h3 h4
  · exact (Nat.compare_eq_lt.mpr (by omega)).symm
  · exact (Nat.compare_eq_gt.mpr (by omega)).symm
  · exact (Nat.compare_eq_lt.mpr (by omega)).symm
  · exact (Nat.compare_eq_gt.mpr (by omega)).symm
  · exact (Nat.compare_eq_eq.mpr (by omega)).symm

theorem lt_iff : x.lt y = true ↔ x.toNat < y.toNat := by
  rw [lt, cmp_eq, beq_iff_eq, Nat.compare_eq_lt]

theorem ge_iff : x.ge y = true ↔ y.toNat ≤ x.toNat := by
  rw [ge, cmp_eq, bne_iff_ne, Nat.compare_ne_lt]

end U128

end Wado
