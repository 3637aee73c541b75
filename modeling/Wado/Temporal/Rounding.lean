/-
The rounding modes of `core:temporal`, the units they round to, and what each mode picks
for an exact quotient.
-/
import Wado.FloatRounding
import Wado.Temporal.Calendar

namespace Wado.Temporal

open StepRounding Option

/-- `Unit` of the source. -/
inductive TemporalUnit
  | year
  | month
  | week
  | day
  | hour
  | minute
  | second
  | millisecond
  | microsecond
  | nanosecond
deriving DecidableEq, Repr

inductive RoundingMode
  | ceil
  | floor
  | expand
  | trunc
  | halfCeil
  | halfFloor
  | halfExpand
  | halfTrunc
  | halfEven
deriving DecidableEq, Repr

inductive UnsignedRoundingMode
  | zero
  | infinity
  | halfZero
  | halfInfinity
  | halfEven
deriving DecidableEq, Repr

def unsignedRoundingMode : RoundingMode → Bool → UnsignedRoundingMode
  | .ceil, negative => if negative then .zero else .infinity
  | .floor, negative => if negative then .infinity else .zero
  | .expand, _ => .infinity
  | .trunc, _ => .zero
  | .halfCeil, negative => if negative then .halfZero else .halfInfinity
  | .halfFloor, negative => if negative then .halfInfinity else .halfZero
  | .halfExpand, _ => .halfInfinity
  | .halfTrunc, _ => .halfZero
  | .halfEven, _ => .halfEven

def roundsAway (mode : UnsignedRoundingMode) (halfComparison : Int) (lowerIsOdd : Bool) : Bool :=
  match mode with
  | .zero => false
  | .infinity => true
  | .halfZero => halfComparison > 0
  | .halfInfinity => halfComparison ≥ 0
  | .halfEven => halfComparison > 0 || halfComparison == 0 && lowerIsOdd

def compareI64 (a b : Int) : Int :=
  if a < b then -1 else if a > b then 1 else 0

namespace TemporalUnit

def rank : TemporalUnit → Int
  | year => 0
  | month => 1
  | week => 2
  | day => 3
  | hour => 4
  | minute => 5
  | second => 6
  | millisecond => 7
  | microsecond => 8
  | nanosecond => 9

def isDate (unit : TemporalUnit) : Bool := unit.rank ≤ 3

def isCalendar (unit : TemporalUnit) : Bool := unit.rank ≤ 2

/-- A calendar unit has no length: asking for it traps. -/
def nanoseconds : TemporalUnit → Option Int
  | day => some nanosecondsPerDay
  | hour => some 3600000000000
  | minute => some 60000000000
  | second => some nanosecondsPerSecond
  | millisecond => some 1000000
  | microsecond => some 1000
  | nanosecond => some 1
  | _ => none

/-- Zero where there is no maximum. -/
def maximumRoundingIncrement : TemporalUnit → Int
  | hour => 24
  | minute => 60
  | second => 60
  | millisecond => 1000
  | microsecond => 1000
  | nanosecond => 1000
  | _ => 0

end TemporalUnit

section Checks

def maxRoundingIncrement : Int := 1000000000

def requireIncrementRange (increment : Int) : Option Unit :=
  if increment < 1 ∨ increment > maxRoundingIncrement then none else some ()

def validateRoundingIncrement (increment dividend : Int) (inclusive : Bool) : Option Unit := do
  requireIncrementRange increment
  let maximum := if inclusive then dividend else dividend - 1
  if increment > maximum ∨ dividend.tmod increment ≠ 0 then none else some ()

def validateTimeOrDayRounding (unit : TemporalUnit) (increment : Int) : Option Unit :=
  if unit = .day then validateRoundingIncrement increment 1 true
  else if unit.isDate then none
  else validateRoundingIncrement increment unit.maximumRoundingIncrement false

/-- What the rounding of a duration checks of its units and its increment. -/
def validateDurationRounding (smallestUnit largestUnit : TemporalUnit) (increment : Int) :
    Option Unit :=
  if largestUnit.rank > smallestUnit.rank then none
  else if largestUnit.isCalendar then none
  else
    let maximum := smallestUnit.maximumRoundingIncrement
    if maximum = 0 then requireIncrementRange increment
    else validateRoundingIncrement increment maximum false

theorem requireIncrementRange_iff {increment : Int} :
    requireIncrementRange increment = some () ↔ 1 ≤ increment ∧ increment ≤ 1000000000 := by
  unfold requireIncrementRange maxRoundingIncrement
  split_ifs with hout
  · simp only [false_iff]
    omega
  · simp only [true_iff]
    omega

theorem validateRoundingIncrement_iff {increment dividend : Int} {inclusive : Bool} :
    validateRoundingIncrement increment dividend inclusive = some () ↔
      (1 ≤ increment ∧ increment ≤ 1000000000) ∧
        increment ≤ (if inclusive then dividend else dividend - 1) ∧ increment ∣ dividend := by
  unfold validateRoundingIncrement
  rw [bind_eq_bind, bind_eq_some_iff, Int.dvd_iff_tmod_eq_zero]
  dsimp only
  constructor
  · rintro ⟨⟨⟩, hincrement, h⟩
    obtain ⟨hmaximum, -⟩ := ite_none_left_eq_some.mp h
    exact ⟨requireIncrementRange_iff.mp hincrement, by omega⟩
  · rintro ⟨hincrement, hmaximum, hdvd⟩
    refine ⟨(), requireIncrementRange_iff.mpr hincrement, ?_⟩
    rw [if_neg (by omega)]

end Checks

variable (mode : RoundingMode)

namespace RoundingMode

/-- The integer a mode picks for an exact quotient. -/
def round : RoundingMode → ℚ → ℤ
  | ceil, x => ⌈x⌉
  | floor, x => ⌊x⌋
  | expand, x => if 0 ≤ x then ⌈x⌉ else ⌊x⌋
  | trunc, x => if 0 ≤ x then ⌊x⌋ else ⌈x⌉
  | halfCeil, x => halfUp x
  | halfFloor, x => halfDown x
  | halfExpand, x => if 0 ≤ x then halfUp x else halfDown x
  | halfTrunc, x => if 0 ≤ x then halfDown x else halfUp x
  | halfEven, x => StepRounding.halfEven x

/-- The mode that rounds as this one does a positive quotient. -/
def asIfPositive : RoundingMode → RoundingMode
  | expand => ceil
  | trunc => floor
  | halfExpand => halfCeil
  | halfTrunc => halfFloor
  | mode => mode

/-- The mode that does to a quotient what this one does to its negation. -/
def mirrored : RoundingMode → RoundingMode
  | ceil => floor
  | floor => ceil
  | halfCeil => halfFloor
  | halfFloor => halfCeil
  | mode => mode

theorem round_intCast (q : ℤ) : mode.round q = q := by
  cases mode <;> simp [round, halfUp_intCast, halfDown_intCast, halfEven_intCast]

theorem round_of_nonneg {x : ℚ} (hx : 0 ≤ x) :
    mode.round x = mode.asIfPositive.round x := by
  cases mode <;> simp [round, asIfPositive, hx]

theorem round_neg {x : ℚ} (hx : 0 < x) :
    mode.round (-x) = -mode.mirrored.round x := by
  have hneg : ¬ 0 ≤ -x := by linarith
  cases mode <;>
    simp [round, mirrored, hx.le, hneg, halfUp_neg, halfDown_neg, halfEven_neg, Int.ceil_neg,
      Int.floor_neg]

theorem unsigned_mirrored :
    unsignedRoundingMode mode.mirrored false = unsignedRoundingMode mode true := by
  cases mode <;> rfl

end RoundingMode

section Pick

variable {n q r step : ℤ}

theorem compareI64_pos {a b : Int} : 0 < compareI64 a b ↔ b < a := by
  unfold compareI64
  constructor
  · intro h
    split_ifs at h <;> omega
  · intro h
    split_ifs <;> omega

theorem compareI64_eq_zero {a b : Int} : compareI64 a b = 0 ↔ b = a := by
  unfold compareI64
  constructor
  · intro h
    split_ifs at h <;> omega
  · intro h
    split_ifs <;> omega

/-- Between two multiples the code picks as the mode does a positive quotient. -/
theorem roundsAway_eq (h : Between n q r step) {half : Int}
    (hpos : 0 < half ↔ step - r < r) (hzero : half = 0 ↔ step - r = r) {odd : Bool}
    (hodd : odd = true ↔ q % 2 = 1) :
    (if roundsAway (unsignedRoundingMode mode false) half odd then q + 1 else q) =
      mode.asIfPositive.round ((n : ℚ) / step) := by
  have hnonneg : 0 ≤ half ↔ step - r ≤ r := by omega
  cases mode <;>
    simp [unsignedRoundingMode, roundsAway, RoundingMode.asIfPositive, RoundingMode.round,
      h.floor_eq, h.ceil_eq, h.halfUp_eq, h.halfDown_eq, h.halfEven_eq, hpos, hzero, hnonneg,
      hodd]

/-- The code's choice for a magnitude, given its sign back, is the mode's for the number. -/
theorem roundsAway_signed (h : Between n q r step) (hq : 0 ≤ q)
    (negative : Bool) {half : Int} (hpos : 0 < half ↔ step - r < r)
    (hzero : half = 0 ↔ step - r = r) {odd : Bool} (hodd : odd = true ↔ q % 2 = 1) {m : ℤ}
    (hm : m = if roundsAway (unsignedRoundingMode mode negative) half odd then q + 1 else q) :
    (if negative then -m else m) = mode.round (((if negative then -n else n : ℤ) : ℚ) / step) := by
  have hx : 0 < (n : ℚ) / step := by
    rw [h.quotient_eq]
    have hq : (0 : ℚ) ≤ q := by exact_mod_cast hq
    have hfraction := h.fraction_pos
    linarith
  cases negative with
  | false =>
    rw [if_neg Bool.false_ne_true, if_neg Bool.false_ne_true, hm,
      roundsAway_eq mode h hpos hzero hodd, RoundingMode.round_of_nonneg mode hx.le]
  | true =>
    rw [if_pos rfl, if_pos rfl, hm, ← RoundingMode.unsigned_mirrored,
      roundsAway_eq mode.mirrored h hpos hzero hodd,
      ← RoundingMode.round_of_nonneg mode.mirrored hx.le, Int.cast_neg, neg_div,
      RoundingMode.round_neg mode hx]

end Pick

end Wado.Temporal
