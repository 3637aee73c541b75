/-
Time durations of `core:temporal`: a signed count of nanoseconds as whole seconds and a
sub-second part of one sign, and its rounding to a multiple of a unit.
-/
import Wado.Temporal.Rounding
import Wado.Temporal.Values

namespace Wado.Temporal

open Option

/-- An `i64` sum, difference or product, as the machine wraps it. -/
@[irreducible] def i64 (x : Int) : Int :=
  (x + 9223372036854775808) % 18446744073709551616 - 9223372036854775808

theorem i64_eq {x : Int} (h : -9223372036854775808 ≤ x ∧ x < 9223372036854775808) : i64 x = x := by
  unfold i64
  omega

structure TimeDuration where
  seconds : Int
  nanoseconds : Int
deriving DecidableEq, Repr

def timeDuration (seconds nanoseconds : Int) : TimeDuration :=
  let whole := i64 (seconds + nanoseconds.tdiv nanosecondsPerSecond)
  let sub := nanoseconds.tmod nanosecondsPerSecond
  if whole > 0 ∧ sub < 0 then ⟨i64 (whole - 1), i64 (sub + nanosecondsPerSecond)⟩
  else if whole < 0 ∧ sub > 0 then ⟨i64 (whole + 1), i64 (sub - nanosecondsPerSecond)⟩
  else ⟨whole, sub⟩

namespace TimeDuration

def sign (t : TimeDuration) : Int :=
  if t.seconds > 0 ∨ t.nanoseconds > 0 then 1
  else if t.seconds < 0 ∨ t.nanoseconds < 0 then -1
  else 0

def negated (t : TimeDuration) : TimeDuration := ⟨i64 (-t.seconds), i64 (-t.nanoseconds)⟩

def abs (t : TimeDuration) : TimeDuration := if t.sign < 0 then t.negated else t

def isInRange (t : TimeDuration) : Bool :=
  -timeDurationSecondsLimit < t.seconds ∧ t.seconds < timeDurationSecondsLimit

def checked (t : TimeDuration) : Option TimeDuration :=
  if ¬ t.isInRange then none else some t

end TimeDuration

/-- The step is positive, as every caller makes it. -/
def roundTimeDurationSeconds (t : TimeDuration) (step : Int) (mode : RoundingMode) :
    Option TimeDuration := do
  let negative := decide (t.sign < 0)
  let magnitude := t.abs
  let quotient := magnitude.seconds.tdiv step
  let rest := magnitude.seconds.tmod step
  if rest = 0 ∧ magnitude.nanoseconds = 0 then return t
  -- the distance up to the next multiple, to compare with the remainder
  let upSeconds :=
    if magnitude.nanoseconds > 0 then i64 (i64 (step - rest) - 1) else i64 (step - rest)
  let upNanoseconds :=
    if magnitude.nanoseconds > 0 then i64 (nanosecondsPerSecond - magnitude.nanoseconds) else 0
  let half := compareI64 rest upSeconds
  let half := if half = 0 then compareI64 magnitude.nanoseconds upNanoseconds else half
  let up := roundsAway (unsignedRoundingMode mode negative) half (quotient.tmod 2 = 1)
  let multiple := if up then i64 (quotient + 1) else quotient
  let rounded ← TimeDuration.checked ⟨i64 (multiple * step), 0⟩
  return if negative then rounded.negated else rounded

/-- The step divides the second. -/
def roundTimeDurationSubsecond (t : TimeDuration) (step : Int) (mode : RoundingMode) :
    Option TimeDuration := do
  let negative := decide (t.sign < 0)
  let magnitude := t.abs
  let quotient := magnitude.nanoseconds.tdiv step
  let rest := magnitude.nanoseconds.tmod step
  if rest = 0 then return t
  -- the steps of every whole second count towards the parity
  let lowerIsOdd :=
    (i64 (i64 (magnitude.seconds.tmod 2 * (nanosecondsPerSecond.tdiv step).tmod 2) +
      quotient)).tmod 2 = 1
  let up := roundsAway (unsignedRoundingMode mode negative)
    (compareI64 rest (i64 (step - rest))) lowerIsOdd
  let multiple := if up then i64 (quotient + 1) else quotient
  let rounded ← (timeDuration magnitude.seconds (i64 (multiple * step))).checked
  return if negative then rounded.negated else rounded

def roundTimeDuration (t : TimeDuration) (increment : Int) (unit : TemporalUnit)
    (mode : RoundingMode) : Option TimeDuration := do
  if unit.rank ≤ TemporalUnit.second.rank then
    let length ← unit.nanoseconds
    roundTimeDurationSeconds t (i64 (increment * length.tdiv nanosecondsPerSecond)) mode
  else
    let length ← unit.nanoseconds
    let step := i64 (increment * length)
    if nanosecondsPerSecond.tmod step ≠ 0 then none
    else roundTimeDurationSubsecond t step mode

/-- The days a rounded time of day carries, and the rounded time of day. -/
def roundTime (timeOfDay increment : Int) (unit : TemporalUnit) (mode : RoundingMode) :
    Option (Int × Int) := do
  let length ← unit.nanoseconds
  let parent :=
    if unit = .day then nanosecondsPerDay else i64 (length * unit.maximumRoundingIncrement)
  let quantity := timeOfDay.tmod parent
  let step := i64 (increment * length)
  let quotient := quantity.tdiv step
  let rest := quantity.tmod step
  let up := roundsAway (unsignedRoundingMode mode false)
    (compareI64 rest (i64 (step - rest))) (quotient.tmod 2 = 1)
  let rounded :=
    if rest ≠ 0 then if up then i64 (i64 (quotient + 1) * step) else i64 (quotient * step)
    else quantity
  let total := i64 (i64 (timeOfDay - quantity) + rounded)
  return (total / nanosecondsPerDay, floorMod total nanosecondsPerDay)

/-- The days a time of day carries once a duration is added, and the time of day. -/
def addTime (timeOfDay : Int) (time : TimeDuration) : Int × Int :=
  let nanoseconds := i64 (timeOfDay.tmod nanosecondsPerSecond + time.nanoseconds)
  let seconds := i64 (i64 (timeOfDay.tdiv nanosecondsPerSecond + time.seconds) +
    nanoseconds / nanosecondsPerSecond)
  (seconds / secondsPerDay, i64 (i64 (floorMod seconds secondsPerDay * nanosecondsPerSecond) +
      floorMod nanoseconds nanosecondsPerSecond))

/-- The step divides the day, so that each UTC midnight is a multiple of it. -/
def roundInstant (instant : Instant) (step : Int) (mode : RoundingMode) : Option Instant :=
  let days := (dayParts instant.seconds instant.nanoseconds).1
  let timeOfDay := (dayParts instant.seconds instant.nanoseconds).2
  let quotient := timeOfDay.tdiv step
  let rest := timeOfDay.tmod step
  if rest = 0 then some instant
  else
    -- the steps of every whole day count towards the parity
    let lowerIsOdd :=
      (i64 (i64 (floorMod days 2 * (nanosecondsPerDay.tdiv step).tmod 2) + quotient)).tmod 2 = 1
    let up := roundsAway (unsignedRoundingMode mode false)
      (compareI64 rest (i64 (step - rest))) lowerIsOdd
    let rounded := if up then i64 (quotient + 1) else quotient
    epochFromLocal days (i64 (rounded * step)) 0

/-- The nanoseconds since the epoch that an instant stands for. -/
def Instant.total (instant : Instant) : Int :=
  instant.seconds * nanosecondsPerSecond + instant.nanoseconds

/-- The next larger unit of a clock reading, which a time of day is rounded within. -/
def TemporalUnit.parent : TemporalUnit → TemporalUnit
  | .hour => .day
  | .minute => .hour
  | .second => .minute
  | .millisecond => .second
  | .microsecond => .millisecond
  | .nanosecond => .microsecond
  | unit => unit

namespace TimeDuration

/-- The count of nanoseconds that a duration stands for. -/
def total (t : TimeDuration) : Int := t.seconds * nanosecondsPerSecond + t.nanoseconds

/-- Both parts of a duration share a sign and the sub-second one is below a second. -/
structure Normal (t : TimeDuration) : Prop where
  below : -nanosecondsPerSecond < t.nanoseconds ∧ t.nanoseconds < nanosecondsPerSecond
  pos : 0 < t.seconds → 0 ≤ t.nanoseconds
  neg : t.seconds < 0 → t.nanoseconds ≤ 0

/-- The duration of so many nanoseconds. -/
def ofTotal (n : Int) : TimeDuration :=
  ⟨n.tdiv nanosecondsPerSecond, n.tmod nanosecondsPerSecond⟩

theorem total_ofTotal (n : Int) : (ofTotal n).total = n :=
  Int.tdiv_mul_add_tmod n nanosecondsPerSecond

section Division

/-- Truncated division by the nanoseconds of a second, by the sign of what is divided. -/
theorem tdiv_tmod_cases (n : Int) : (0 ≤ n ∧ n.tdiv nanosecondsPerSecond = n / 1000000000 ∧
      n.tmod nanosecondsPerSecond = n % 1000000000) ∨
    (n < 0 ∧ n.tdiv nanosecondsPerSecond = -(-n / 1000000000) ∧
      n.tmod nanosecondsPerSecond = -(-n % 1000000000)) := by
  rcases lt_or_ge n 0 with hn | hn
  · refine Or.inr ⟨hn, ?_, ?_⟩
    · rw [← Int.neg_neg n, Int.neg_tdiv, tdiv_of_nonneg (by omega), Int.neg_neg]
      rfl
    · rw [← Int.neg_neg n, Int.neg_tmod, Int.tmod_eq_emod_of_nonneg (by omega), Int.neg_neg]
      rfl
  · exact Or.inl ⟨hn, tdiv_of_nonneg hn _, Int.tmod_eq_emod_of_nonneg hn⟩

end Division

theorem ofTotal_normal (n : Int) : (ofTotal n).Normal := by
  have hcases := tdiv_tmod_cases n
  constructor <;> dsimp only [ofTotal] <;> unfold nanosecondsPerSecond at * <;> omega

/-- A normal duration is the one of its total. -/
theorem Normal.eq_ofTotal {t : TimeDuration} (h : t.Normal) : t = ofTotal t.total := by
  obtain ⟨hbelow, hpos, hneg⟩ := h
  have hcases := tdiv_tmod_cases t.total
  obtain ⟨seconds, nanoseconds⟩ := t
  dsimp only [total, ofTotal] at *
  unfold nanosecondsPerSecond at *
  rw [mk.injEq]
  omega

/-- The parts it is given are added up exactly where the whole seconds fit their word. -/
theorem timeDuration_eq {seconds nanoseconds : Int}
    (h : -9223372036854775808 ≤ seconds + nanoseconds.tdiv nanosecondsPerSecond ∧
      seconds + nanoseconds.tdiv nanosecondsPerSecond < 9223372036854775808) :
    timeDuration seconds nanoseconds = ofTotal (seconds * nanosecondsPerSecond + nanoseconds) := by
  have hcases := tdiv_tmod_cases nanoseconds
  have htotal := tdiv_tmod_cases (seconds * nanosecondsPerSecond + nanoseconds)
  unfold timeDuration ofTotal
  dsimp only
  rw [i64_eq h]
  unfold nanosecondsPerSecond at *
  split_ifs with hpos hneg
  · rw [i64_eq (by omega), i64_eq (by omega), mk.injEq]
    omega
  · rw [i64_eq (by omega), i64_eq (by omega), mk.injEq]
    omega
  · rw [mk.injEq]
    omega

variable {n : Int}

/-- The totals of the durations in range. -/
theorem isInRange_ofTotal : (ofTotal n).isInRange = true ↔
    -9007199254740992000000000 < n ∧ n < 9007199254740992000000000 := by
  have hcases := tdiv_tmod_cases n
  unfold isInRange ofTotal timeDurationSecondsLimit
  rw [decide_eq_true_eq]
  dsimp only
  omega

theorem checked_ofTotal (n : Int) : (ofTotal n).checked =
    if -9007199254740992000000000 < n ∧ n < 9007199254740992000000000 then some (ofTotal n)
    else none := by
  unfold checked
  by_cases h : (ofTotal n).isInRange = true
  · rw [if_neg (not_not.mpr h), if_pos (isInRange_ofTotal.mp h)]
  · rw [if_pos h, if_neg (mt isInRange_ofTotal.mpr h)]

theorem sign_ofTotal : (ofTotal n).sign < 0 ↔ n < 0 := by
  have hcases := tdiv_tmod_cases n
  unfold sign ofTotal
  dsimp only
  split_ifs <;> omega

theorem negated_ofTotal (h : (ofTotal n).isInRange = true) :
    (ofTotal n).negated = ofTotal (-n) := by
  have hrange := isInRange_ofTotal.mp h
  have hcases := tdiv_tmod_cases n
  have hneg := tdiv_tmod_cases (-n)
  unfold negated ofTotal
  dsimp only
  rw [i64_eq (by omega), i64_eq (by omega), mk.injEq]
  omega

theorem abs_ofTotal (h : (ofTotal n).isInRange = true) :
    (ofTotal n).abs = ofTotal (if n < 0 then -n else n) := by
  unfold abs
  by_cases hn : n < 0
  · rw [if_pos (sign_ofTotal.mpr hn), if_pos hn, negated_ofTotal h]
  · rw [if_neg (mt sign_ofTotal.mp hn), if_neg hn]

/-- A result below the range, given its sign back. -/
theorem checked_signed {negative : Bool} :
    ((ofTotal n).checked.map fun rounded => if negative then rounded.negated else rounded) =
      (ofTotal (if negative then -n else n)).checked := by
  rw [checked_ofTotal, checked_ofTotal]
  cases negative with
  | false => simp only [Bool.false_eq_true, if_false, map_id']
  | true =>
    by_cases h : -9007199254740992000000000 < n ∧ n < 9007199254740992000000000
    · rw [if_pos h, if_pos rfl, if_pos (by omega), map_some, if_pos rfl,
        negated_ofTotal (isInRange_ofTotal.mpr h)]
    · rw [if_neg h, if_pos rfl, if_neg (by omega), map_none]

end TimeDuration

end Wado.Temporal
