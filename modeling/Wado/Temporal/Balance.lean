/-
Durations of ten float components, and balancing a time duration into those up to a
largest unit.
-/
import Wado.Temporal.Quotient
import Wado.Temporal.RoundsExactly

namespace Wado.Temporal

open StepRounding TimeDuration List

/-- The date components of a duration as exact integers. -/
structure DateDuration where
  years : Int
  months : Int
  weeks : Int
  days : Int
deriving DecidableEq, Repr

/-- A duration's components, each a finite float. -/
structure Duration where
  years : Rat
  months : Rat
  weeks : Rat
  days : Rat
  hours : Rat
  minutes : Rat
  seconds : Rat
  milliseconds : Rat
  microseconds : Rat
  nanoseconds : Rat
deriving DecidableEq, Repr

section Conversions

def f64Trunc (x : Rat) : Int := if 0 ≤ x then ⌊x⌋ else ⌈x⌉

/-- A float as an `i64`, which saturates. -/
def toI64 (x : Rat) : Int := max (-2 ^ 63) (min (2 ^ 63 - 1) (f64Trunc x))

def toI128 (x : Rat) : Int := max (-2 ^ 127) (min (2 ^ 127 - 1) (f64Trunc x))

/-- The integer count of a unit `perSecond` to the second. -/
def subSecondCount (count : Rat) (perSecond : Int) : TimeDuration :=
  let unitNanoseconds := nanosecondsPerSecond.tdiv perSecond
  if |count| < 9223372036854775808 then
    let exact := toI64 count
    timeDuration (exact.tdiv perSecond) (i64 (exact.tmod perSecond * unitNanoseconds))
  else
    let exact := toI128 count
    timeDuration (i64 (exact.tdiv perSecond)) (i64 (i64 (exact.tmod perSecond) * unitNanoseconds))

def timeDurationFromComponents (days hours minutes seconds milliseconds microseconds
    nanoseconds : Rat) : TimeDuration :=
  let whole := i64 (i64 (i64 (i64 (toI64 days * secondsPerDay) + i64 (toI64 hours * 3600)) +
    i64 (toI64 minutes * 60)) + toI64 seconds)
  let ms := subSecondCount milliseconds 1000
  let us := subSecondCount microseconds 1000000
  let ns := subSecondCount nanoseconds nanosecondsPerSecond
  timeDuration (i64 (i64 (i64 (whole + ms.seconds) + us.seconds) + ns.seconds))
    (i64 (i64 (ms.nanoseconds + us.nanoseconds) + ns.nanoseconds))

end Conversions

namespace Duration

def components (d : Duration) : List Rat :=
  [d.years, d.months, d.weeks, d.days, d.hours, d.minutes, d.seconds, d.milliseconds,
    d.microseconds, d.nanoseconds]

/-- The sign of the first component that is not zero. -/
def rawSign (d : Duration) : Int :=
  match d.components.find? (· ≠ 0) with
  | some component => if component > 0 then 1 else -1
  | none => 0

def timeWithDays (d : Duration) : TimeDuration :=
  timeDurationFromComponents d.days d.hours d.minutes d.seconds d.milliseconds d.microseconds
    d.nanoseconds

/-- Every component is an integer of one sign, and their sizes are within the limits. -/
def isValid (d : Duration) : Bool :=
  let sign := d.rawSign
  let calendarLimit : Rat := f64.roundRat calendarUnitLimit
  let limit : Rat := f64.roundRat timeDurationSecondsLimit
  d.components.all (fun component => f64Trunc component = component ∧
    ¬ (component > 0 ∧ sign < 0 ∨ component < 0 ∧ sign > 0)) ∧
  (|d.years| < calendarLimit ∧ |d.months| < calendarLimit ∧ |d.weeks| < calendarLimit) ∧
  (f64.roundRat (|d.days| * 86400) < limit ∧ f64.roundRat (|d.hours| * 3600) < limit ∧
    f64.roundRat (|d.minutes| * 60) < limit ∧ |d.seconds| < limit ∧
    |d.milliseconds| < f64.roundRat (limit * 1000) ∧
    |d.microseconds| < f64.roundRat (limit * 1000000) ∧
    |d.nanoseconds| < f64.roundRat (limit * 1000000000)) ∧
  d.timeWithDays.isInRange = true

def validated (d : Duration) : Option Duration := if d.isValid then some d else none

end Duration

/-- `perSecond` and `sub` make a count of whole seconds and what is past them. -/
def nearestCount (seconds sub perSecond : Int) : Rat :=
  if seconds ≤ (9223372036854775807 - perSecond).tdiv perSecond then
    f64.roundRat (i64 (i64 (seconds * perSecond) + sub))
  else exactQuotientToF64 (i128 (i128 (seconds * perSecond) + sub)) 1

/-- `0.0 - magnitude` is exact. -/
def withSign (sign : Int) (magnitude : Rat) : Rat := if sign < 0 then 0 - magnitude else magnitude

/-- The magnitudes of the components that a time is split into. -/
structure SplitTime where
  days : Int
  hours : Int
  minutes : Int
  seconds : Int
  milliseconds : Rat
  microseconds : Rat
  nanoseconds : Rat

def splitTime (s n : Int) (largestUnit : TemporalUnit) : SplitTime :=
  let rank := largestUnit.rank
  let milliseconds := f64.roundRat (n.tdiv 1000000)
  let microseconds := f64.roundRat ((n.tdiv 1000).tmod 1000)
  let nanoseconds := f64.roundRat (n.tmod 1000)
  if rank ≤ TemporalUnit.day.rank then
    ⟨s.tdiv secondsPerDay, (s.tmod secondsPerDay).tdiv 3600, (s.tmod 3600).tdiv 60, s.tmod 60,
      milliseconds, microseconds, nanoseconds⟩
  else if rank = TemporalUnit.hour.rank then
    ⟨0, s.tdiv 3600, (s.tmod 3600).tdiv 60, s.tmod 60, milliseconds, microseconds, nanoseconds⟩
  else if rank = TemporalUnit.minute.rank then
    ⟨0, 0, s.tdiv 60, s.tmod 60, milliseconds, microseconds, nanoseconds⟩
  else if rank = TemporalUnit.second.rank then
    ⟨0, 0, 0, s, milliseconds, microseconds, nanoseconds⟩
  else if rank = TemporalUnit.millisecond.rank then
    ⟨0, 0, 0, 0, nearestCount s (n.tdiv 1000000) 1000, microseconds, nanoseconds⟩
  else if rank = TemporalUnit.microsecond.rank then
    ⟨0, 0, 0, 0, 0, nearestCount s (n.tdiv 1000) 1000000, nanoseconds⟩
  else ⟨0, 0, 0, 0, 0, 0, nearestCount s n nanosecondsPerSecond⟩

/-- The date components as given, and the time balanced into those up to the largest unit. -/
def durationFromInternal (date : DateDuration) (time : TimeDuration)
    (largestUnit : TemporalUnit) : Option Duration :=
  let sign := time.sign
  let magnitude := time.abs
  let split := splitTime magnitude.seconds magnitude.nanoseconds largestUnit
  Duration.validated
    { years := f64.roundRat date.years
      months := f64.roundRat date.months
      weeks := f64.roundRat date.weeks
      days := f64.roundRat (i64 (date.days + i64 (sign * split.days)))
      hours := f64.roundRat (i64 (sign * split.hours))
      minutes := f64.roundRat (i64 (sign * split.minutes))
      seconds := f64.roundRat (i64 (sign * split.seconds))
      milliseconds := withSign sign split.milliseconds
      microseconds := withSign sign split.microseconds
      nanoseconds := withSign sign split.nanoseconds }

/-- The time components of a duration before they are rounded. -/
structure TimeComponents where
  days : Int
  hours : Int
  minutes : Int
  seconds : Int
  milliseconds : Int
  microseconds : Int
  nanoseconds : Int
deriving DecidableEq, Repr

variable {c : TimeComponents}

namespace TimeComponents

def total (c : TimeComponents) : Int :=
  (c.days * 86400 + c.hours * 3600 + c.minutes * 60 + c.seconds) * 1000000000 +
    c.milliseconds * 1000000 + c.microseconds * 1000 + c.nanoseconds

def signed (sign : Int) (c : TimeComponents) : TimeComponents :=
  ⟨sign * c.days, sign * c.hours, sign * c.minutes, sign * c.seconds, sign * c.milliseconds,
    sign * c.microseconds, sign * c.nanoseconds⟩

def components (c : TimeComponents) : List Int :=
  [c.days, c.hours, c.minutes, c.seconds, c.milliseconds, c.microseconds, c.nanoseconds]

/-- No component has the sign that `n` has not. -/
def OfSign (n : Int) (c : TimeComponents) : Prop :=
  (0 ≤ n → ∀ x ∈ c.components, 0 ≤ x) ∧ (n ≤ 0 → ∀ x ∈ c.components, x ≤ 0)

/-- Each component below the largest unit is below the unit it carries to, and there are none
above the largest unit. -/
structure Carried (largestUnit : TemporalUnit) (c : TimeComponents) : Prop where
  days : 3 < largestUnit.rank → c.days = 0
  hours : if largestUnit.rank ≤ 3 then |c.hours| < 24 else 4 < largestUnit.rank → c.hours = 0
  minutes : if largestUnit.rank ≤ 4 then |c.minutes| < 60 else 5 < largestUnit.rank → c.minutes = 0
  seconds : if largestUnit.rank ≤ 5 then |c.seconds| < 60 else 6 < largestUnit.rank → c.seconds = 0
  milliseconds : if largestUnit.rank ≤ 6 then |c.milliseconds| < 1000
    else 7 < largestUnit.rank → c.milliseconds = 0
  microseconds : if largestUnit.rank ≤ 7 then |c.microseconds| < 1000
    else 8 < largestUnit.rank → c.microseconds = 0
  nanoseconds : largestUnit.rank ≤ 8 → |c.nanoseconds| < 1000

theorem signed_total (sign : Int) (c : TimeComponents) :
    (c.signed sign).total = sign * c.total := by
  unfold total signed
  ring

theorem signed_components (sign : Int) (c : TimeComponents) :
    (c.signed sign).components = c.components.map (sign * ·) := rfl

theorem OfSign.signed {n sign : Int} (hc : ∀ x ∈ c.components, 0 ≤ x)
    (hpos : 0 ≤ n → 0 ≤ sign) (hneg : n ≤ 0 → sign ≤ 0) : (c.signed sign).OfSign n := by
  unfold OfSign
  simp only [signed_components, forall_mem_map]
  constructor
  · intro hn x hx
    exact Int.mul_nonneg (hpos hn) (hc x hx)
  · intro hn x hx
    exact Int.mul_nonpos_of_nonpos_of_nonneg (hneg hn) (hc x hx)

/-- A sign leaves the bounds of the components as they are. -/
theorem Carried.signed {largestUnit : TemporalUnit} (h : c.Carried largestUnit)
    {sign : Int} (hsign : |sign| ≤ 1) : (c.signed sign).Carried largestUnit := by
  have hzero : ∀ {x : Int}, x = 0 → sign * x = 0 := by
    rintro x rfl
    exact Int.mul_zero sign
  have hbelow : ∀ {x b : Int}, |x| < b → |sign * x| < b := by
    intro x b hx
    rw [abs_mul]
    exact lt_of_le_of_lt (mul_le_of_le_one_left (abs_nonneg x) hsign) hx
  have hif : ∀ {p q : Prop} [Decidable p] {x b : Int},
      (if p then |x| < b else q → x = 0) → if p then |sign * x| < b else q → sign * x = 0 := by
    intro p q _ x b hx
    split_ifs at hx ⊢
    · exact hbelow hx
    · exact fun hq => hzero (hx hq)
  exact ⟨fun hrank => hzero (h.days hrank), hif h.hours, hif h.minutes, hif h.seconds,
    hif h.milliseconds, hif h.microseconds, fun hrank => hbelow (h.nanoseconds hrank)⟩

end TimeComponents

/-- Date components and exact time components as a duration, each rounded once. -/
def Duration.rounded (date : DateDuration) (c : TimeComponents) : Duration where
  years := f64.roundRat date.years
  months := f64.roundRat date.months
  weeks := f64.roundRat date.weeks
  days := f64.roundRat (date.days + c.days : Int)
  hours := f64.roundRat c.hours
  minutes := f64.roundRat c.minutes
  seconds := f64.roundRat c.seconds
  milliseconds := f64.roundRat c.milliseconds
  microseconds := f64.roundRat c.microseconds
  nanoseconds := f64.roundRat c.nanoseconds

section Balancing

variable {s n : Int} {largestUnit : TemporalUnit}

/-- The components that a count of seconds and nanoseconds is split into. -/
def exactSplit (s n : Int) (largestUnit : TemporalUnit) : TimeComponents :=
  match largestUnit with
  | .hour =>
    ⟨0, s / 3600, s % 3600 / 60, s % 60, n / 1000000, n / 1000 % 1000, n % 1000⟩
  | .minute => ⟨0, 0, s / 60, s % 60, n / 1000000, n / 1000 % 1000, n % 1000⟩
  | .second => ⟨0, 0, 0, s, n / 1000000, n / 1000 % 1000, n % 1000⟩
  | .millisecond => ⟨0, 0, 0, 0, s * 1000 + n / 1000000, n / 1000 % 1000, n % 1000⟩
  | .microsecond => ⟨0, 0, 0, 0, 0, s * 1000000 + n / 1000, n % 1000⟩
  | .nanosecond => ⟨0, 0, 0, 0, 0, 0, s * 1000000000 + n⟩
  | _ => ⟨s / 86400, s % 86400 / 3600, s % 3600 / 60, s % 60, n / 1000000, n / 1000 % 1000,
      n % 1000⟩

theorem exactSplit_total (s n : Int) (largestUnit : TemporalUnit) :
    (exactSplit s n largestUnit).total = s * 1000000000 + n := by
  unfold TimeComponents.total
  cases largestUnit <;> dsimp only [exactSplit] <;> omega

theorem exactSplit_nonneg (hs : 0 ≤ s) (hn : 0 ≤ n) (largestUnit : TemporalUnit) :
    ∀ x ∈ (exactSplit s n largestUnit).components, 0 ≤ x := by
  have hms : 0 ≤ n / 1000000 := by omega
  have hus : 0 ≤ n / 1000 := by omega
  cases largestUnit <;>
    simp only [exactSplit, TimeComponents.components, forall_mem_cons, not_mem_nil,
      false_imp_iff, implies_true, and_true] <;>
    omega

theorem exactSplit_carried (hn : 0 ≤ n ∧ n < 1000000000) (largestUnit : TemporalUnit) :
    (exactSplit s n largestUnit).Carried largestUnit := by
  have habs : ∀ {x b : Int}, 0 ≤ x → x < b → |x| < b := by
    intro x b hx hlt
    rw [abs_of_nonneg hx]
    exact hlt
  cases largestUnit <;> constructor <;> simp [exactSplit, TemporalUnit.rank] <;>
    apply habs <;> omega

end Balancing

section Counts

theorem fits_one {N : Int} (hlow : 2 ^ 62 ≤ N) (hhigh : N < 2 ^ 83) : Fits N 1 := by
  obtain ⟨hbitsLow, hbitsHigh⟩ := bitLength_int (n := N) (by omega)
  have hone : bitLength (1 : Int).toNat = 1 := by
    rw [show (1 : Int).toNat = 1 from rfl, bitLength, if_neg (by decide), bitLength,
      if_pos (by decide)]
  have hge : 62 < bitLength N.toNat := by
    apply (pow_lt_pow_iff_right₀ (by norm_num : (1 : Int) < 2)).mp
    exact lt_of_le_of_lt hlow hbitsHigh
  have hlt : bitLength N.toNat < 84 := by
    apply (pow_lt_pow_iff_right₀ (by norm_num : (1 : Int) < 2)).mp
    omega
  have hshift : quotientShift N 1 = 56 - bitLength N.toNat := by
    unfold quotientShift
    rw [hone]
    ring
  refine ⟨by omega, by decide, ?_, ?_⟩
  · rw [hshift, show (56 - (bitLength N.toNat : Int)).toNat = 0 by omega, pow_zero, mul_one]
    omega
  · rw [hshift, one_mul]
    exact pow_lt_pow_right₀ (by norm_num) (by omega)

/-- A count of a unit is rounded once, whichever way it is converted. -/
theorem nearestCount_eq {s sub perSecond : Int} (hs : 0 ≤ s ∧ s < 2 ^ 53)
    (hsub : 0 ≤ sub ∧ sub < perSecond) (hunit : perSecond ≤ 1000000000) :
    nearestCount s sub perSecond = f64.roundRat (s * perSecond + sub : Int) := by
  have hpos : 0 < perSecond := by omega
  have hproductNonneg : 0 ≤ s * perSecond := Int.mul_nonneg hs.1 hpos.le
  have hproductLe : s * perSecond ≤ (2 ^ 53 - 1) * 1000000000 :=
    Int.mul_le_mul (by omega) hunit hpos.le (by norm_num)
  unfold nearestCount
  rw [tdiv_of_nonneg (by omega)]
  split_ifs with hsmall
  · have hle := (Int.le_ediv_iff_mul_le hpos).mp hsmall
    rw [i64_eq (x := s * perSecond) (by omega), i64_eq (by omega)]
  · have hge := (Int.ediv_lt_iff_lt_mul hpos).mp (not_le.mp hsmall)
    have hfits : Fits |s * perSecond + sub| 1 := by
      rw [abs_of_nonneg (by omega)]
      exact fits_one (by omega) (by omega)
    rw [i128_eq (x := s * perSecond) (by omega), i128_eq (by omega), exactQuotientToF64_eq hfits,
      Int.cast_one, div_one]

/-- A count takes the sign of the time it is of. -/
theorem withSign_eq {sign m : Int} (hsign : sign = 1 ∨ sign = -1 ∨ sign = 0 ∧ m = 0) :
    withSign sign (f64.roundRat m) = f64.roundRat (sign * m : Int) := by
  unfold withSign
  rcases hsign with rfl | rfl | ⟨rfl, rfl⟩
  · rw [if_neg (by decide), one_mul]
  · rw [if_pos (by decide), zero_sub, ← FloatFormat.roundRat_neg]
    push_cast
    rw [neg_one_mul]
  · rw [if_neg (by decide), zero_mul]

end Counts

section Internal

variable {s n : Int}

/-- The code's split is the exact one, its counts of sub-second units rounded. -/
theorem splitTime_eq (hs : 0 ≤ s ∧ s < 2 ^ 53) (hn : 0 ≤ n ∧ n < 1000000000)
    (largestUnit : TemporalUnit) :
    splitTime s n largestUnit =
      { days := (exactSplit s n largestUnit).days
        hours := (exactSplit s n largestUnit).hours
        minutes := (exactSplit s n largestUnit).minutes
        seconds := (exactSplit s n largestUnit).seconds
        milliseconds := f64.roundRat (exactSplit s n largestUnit).milliseconds
        microseconds := f64.roundRat (exactSplit s n largestUnit).microseconds
        nanoseconds := f64.roundRat (exactSplit s n largestUnit).nanoseconds } := by
  have hdiv : ∀ k : Int, s.tdiv k = s / k := fun k => tdiv_of_nonneg hs.1 k
  have hmod : ∀ k : Int, s.tmod k = s % k := fun k => Int.tmod_eq_emod_of_nonneg hs.1
  have hhours : (s % 86400).tdiv 3600 = s % 86400 / 3600 := tdiv_of_nonneg (by omega) _
  have hminutes : (s % 3600).tdiv 60 = s % 3600 / 60 := tdiv_of_nonneg (by omega) _
  have hsubDiv : ∀ k : Int, n.tdiv k = n / k := fun k => tdiv_of_nonneg hn.1 k
  have hsubMod : n.tmod 1000 = n % 1000 := Int.tmod_eq_emod_of_nonneg hn.1
  have hmicro : (n / 1000).tmod 1000 = n / 1000 % 1000 :=
    Int.tmod_eq_emod_of_nonneg (by omega)
  have hmillis : nearestCount s (n / 1000000) 1000 =
      f64.roundRat (s * 1000 + n / 1000000 : Int) := nearestCount_eq hs (by omega) (by decide)
  have hmicros : nearestCount s (n / 1000) 1000000 =
      f64.roundRat (s * 1000000 + n / 1000 : Int) := nearestCount_eq hs (by omega) (by decide)
  have hnanos : nearestCount s n 1000000000 = f64.roundRat (s * 1000000000 + n : Int) :=
    nearestCount_eq hs hn (by decide)
  unfold splitTime secondsPerDay nanosecondsPerSecond
  cases largestUnit <;>
    simp [TemporalUnit.rank, exactSplit, hdiv, hmod, hhours, hminutes, hsubDiv, hsubMod, hmicro,
      f64.roundRat_zero, hmillis, hmicros, hnanos]

/-- The signed parts of the components of a time below 2^53 seconds fit their words. -/
theorem signed_part {sign x : Int} (hsign : sign = 1 ∨ sign = -1 ∨ sign = 0 ∧ x = 0)
    (hx : 0 ≤ x ∧ x < 2 ^ 53) : i64 (sign * x) = sign * x := by
  apply i64_eq
  rcases hsign with rfl | rfl | ⟨rfl, rfl⟩ <;> omega

theorem exactSplit_parts (hs : 0 ≤ s ∧ s < 2 ^ 53) (largestUnit : TemporalUnit) :
    (0 ≤ (exactSplit s n largestUnit).days ∧ (exactSplit s n largestUnit).days < 2 ^ 53) ∧
      (0 ≤ (exactSplit s n largestUnit).hours ∧ (exactSplit s n largestUnit).hours < 2 ^ 53) ∧
      (0 ≤ (exactSplit s n largestUnit).minutes ∧ (exactSplit s n largestUnit).minutes < 2 ^ 53) ∧
      0 ≤ (exactSplit s n largestUnit).seconds ∧ (exactSplit s n largestUnit).seconds < 2 ^ 53 := by
  cases largestUnit <;> dsimp only [exactSplit] <;> omega

/-- Each component of the answer is an exact one rounded once, and the exact ones make up the
time, carried up to the largest unit and of the time's sign. -/
theorem durationFromInternal_eq {t : TimeDuration} (hnormal : t.Normal)
    (hrange : t.isInRange = true) {date : DateDuration} (hdate : |date.days| < 2 ^ 53)
    (largestUnit : TemporalUnit) :
    ∃ c : TimeComponents, c.total = t.total ∧ c.OfSign t.total ∧ c.Carried largestUnit ∧
      durationFromInternal date t largestUnit = (Duration.rounded date c).validated := by
  generalize htotal : t.total = n
  rw [hnormal.eq_ofTotal, htotal] at hrange ⊢
  have hlimits := isInRange_ofTotal.mp hrange
  obtain ⟨magnitude, hmagnitude, habs, hsigned⟩ := exists_magnitude n
  have hs : 0 ≤ magnitude / 1000000000 ∧ magnitude / 1000000000 < 2 ^ 53 := by
    split_ifs at habs <;> omega
  have hn : 0 ≤ magnitude % 1000000000 ∧ magnitude % 1000000000 < 1000000000 := by omega
  have hsign : (ofTotal n).sign = if 0 < n then 1 else if n < 0 then -1 else 0 := by
    have hcases := tdiv_tmod_cases n
    unfold sign ofTotal
    dsimp only
    split_ifs <;> omega
  unfold durationFromInternal
  rw [abs_ofTotal hrange, habs, ofTotal_of_nonneg hmagnitude]
  dsimp only
  rw [splitTime_eq hs hn largestUnit]
  generalize (ofTotal n).sign = sign at *
  have hcases : sign = 1 ∨ sign = -1 ∨
      sign = 0 ∧ magnitude / 1000000000 = 0 ∧ magnitude % 1000000000 = 0 := by
    rw [hsign]
    split_ifs at habs ⊢ <;> omega
  refine ⟨(exactSplit (magnitude / 1000000000) (magnitude % 1000000000) largestUnit).signed sign,
    ?_, ?_, ?_, ?_⟩
  · rw [TimeComponents.signed_total, exactSplit_total, Int.ediv_mul_add_emod, hsign]
    split_ifs at habs ⊢ <;> omega
  · apply TimeComponents.OfSign.signed (exactSplit_nonneg hs.1 hn.1 largestUnit)
    · intro hpos
      rw [hsign]
      split_ifs <;> omega
    · intro hneg
      rw [hsign]
      split_ifs <;> omega
  · apply TimeComponents.Carried.signed (exactSplit_carried hn largestUnit)
    rcases hcases with rfl | rfl | ⟨rfl, -⟩ <;> decide
  · have hparts := exactSplit_parts (n := magnitude % 1000000000) hs largestUnit
    have hzero : ∀ c : TimeComponents, c = exactSplit (magnitude / 1000000000)
        (magnitude % 1000000000) largestUnit → ∀ x ∈ c.components,
          sign = 1 ∨ sign = -1 ∨ sign = 0 ∧ x = 0 := by
      rintro c rfl x hx
      refine hcases.imp_right (Or.imp_right ?_)
      rintro ⟨hsign, hseconds, hnano⟩
      rw [hseconds, hnano] at hx
      refine ⟨hsign, ?_⟩
      have hnil : (exactSplit 0 0 largestUnit).components = List.replicate 7 0 := by
        cases largestUnit <;> rfl
      rw [hnil] at hx
      exact eq_of_mem_replicate hx
    generalize exactSplit (magnitude / 1000000000) (magnitude % 1000000000) largestUnit = c at *
    have hsignOf := hzero c rfl
    simp only [TimeComponents.components, forall_mem_cons, not_mem_nil, false_imp_iff,
      implies_true, and_true] at hsignOf
    obtain ⟨hdays, hhours, hminutes, hseconds, hmillis, hmicros, hnanos⟩ := hsignOf
    obtain ⟨hdaysRange, hhoursRange, hminutesRange, hsecondsRange⟩ := hparts
    rw [signed_part hdays hdaysRange, signed_part hhours hhoursRange,
      signed_part hminutes hminutesRange, signed_part hseconds hsecondsRange, withSign_eq hmillis,
      withSign_eq hmicros, withSign_eq hnanos]
    have hdateRange := abs_lt.mp hdate
    have hsum : i64 (date.days + sign * c.days) = date.days + sign * c.days := by
      apply i64_eq
      rcases hcases with rfl | rfl | ⟨rfl, -⟩ <;> omega
    rw [hsum]
    rfl

theorem integer_nearest {x : Int} (hx : |x| < 2 ^ 127) : f64.NearestTo x (f64.roundRat x) := by
  by_cases hzero : x = 0
  · rw [hzero, Int.cast_zero, f64.roundRat_zero]
    exact f64.nearestTo_zero
  · have hnearest := quotient_nearest hzero hx (by decide : (0 : Int) < 1) (by norm_num)
    rw [Int.cast_one, div_one] at hnearest
    exact hnearest

/-- No component is past the total, being of its sign. -/
theorem component_le {n : Int} (htotal : c.total = n) (hsign : c.OfSign n)
    (hrange : -9007199254740992000000000 < n ∧ n < 9007199254740992000000000) :
    ∀ x ∈ c.components, |x| < 9007199254740992000000000 := by
  obtain ⟨hpos, hneg⟩ := hsign
  unfold TimeComponents.total at htotal
  simp only [TimeComponents.components, forall_mem_cons, not_mem_nil, false_imp_iff,
    implies_true, and_true, abs_lt] at hpos hneg ⊢
  rcases le_total 0 n with hn | hn
  · have hpos := hpos hn
    omega
  · have hneg := hneg hn
    omega

/-- The quotient is rounded once to the nearest float, and the components of a balanced time are
each rounded once from exact ones that make up the time. -/
theorem balancing_exact :
    (∀ numerator denominator : Int, numerator = 0 ∨ Fits |numerator| denominator →
      f64.NearestTo ((numerator : Rat) / denominator)
        (exactQuotientToF64 numerator denominator)) ∧
    (∀ (t : TimeDuration) (date : DateDuration) (largestUnit : TemporalUnit), t.Normal →
      t.isInRange = true → |date.days| < 2 ^ 53 →
        ∃ c : TimeComponents, c.total = t.total ∧ c.OfSign t.total ∧ c.Carried largestUnit ∧
          (∀ x ∈ (date.days + c.days) :: c.components, f64.NearestTo x (f64.roundRat x)) ∧
            durationFromInternal date t largestUnit = (Duration.rounded date c).validated) := by
  refine ⟨fun numerator denominator h => exactQuotientToF64_nearest h, ?_⟩
  intro t date largestUnit hnormal hrange hdate
  obtain ⟨c, htotal, hsign, hcarried, heq⟩ :=
    durationFromInternal_eq hnormal hrange hdate largestUnit
  refine ⟨c, htotal, hsign, hcarried, ?_, heq⟩
  have hrange := isInRange_ofTotal.mp (hnormal.eq_ofTotal ▸ hrange)
  have hbounds := component_le htotal hsign hrange
  intro x hx
  apply integer_nearest
  rcases List.mem_cons.mp hx with rfl | hx
  · have hdays := hbounds c.days (List.mem_cons_self ..)
    rw [abs_lt] at hdays hdate ⊢
    omega
  · have hlt := hbounds x hx
    omega

theorem balancing_exact_minute : ∃ c : TimeComponents, c.total = TimeDuration.total ⟨90, 0⟩ ∧
      c.OfSign (TimeDuration.total ⟨90, 0⟩) ∧ c.Carried .minute ∧
        (∀ x ∈ (0 + c.days) :: c.components, f64.NearestTo x (f64.roundRat x)) ∧
          durationFromInternal ⟨0, 0, 0, 0⟩ ⟨90, 0⟩ .minute =
            (Duration.rounded ⟨0, 0, 0, 0⟩ c).validated :=
  balancing_exact.2 ⟨90, 0⟩ ⟨0, 0, 0, 0⟩ .minute ⟨by decide, by decide, by decide⟩ (by decide)
    (by norm_num)

theorem longest_rounds :
    f64.roundRat (9007199254740991999999999 : Int) = 9007199254740992000000000 := by
  have hbinade : f64.binade = 2 ^ 52 := rfl
  have hplace : f64.lastPlace (9007199254740991999999999 : Int) = 30 := by
    apply f64.lastPlace_eq
    · rw [hbinade]
      norm_num
    · rw [hbinade]
      norm_num
    · rw [show f64.place 1 = -1074 from rfl]
      norm_num
  have hbetween : Between 9007199254740991999999999 8388607999999999 1073741823 1073741824 :=
    ⟨by norm_num, by norm_num, by norm_num⟩
  have hround := hbetween.halfEven_eq
  rw [if_pos (by norm_num)] at hround
  have hpow : (2 : Rat) ^ (30 : Int) = (1073741824 : Int) := by norm_num
  unfold FloatFormat.roundRat
  rw [hplace, hpow, hround]
  norm_num

/-- The bound on nanoseconds, 2^53 seconds, is exact. -/
theorem limit_rounds : f64.roundRat (f64.roundRat timeDurationSecondsLimit * 1000000000) =
    9007199254740992000000000 := by
  have hbinade : f64.binade = 2 ^ 52 := rfl
  have hplace : f64.place 1 = -1074 := rfl
  have hseconds : f64.roundRat timeDurationSecondsLimit = 9007199254740992 := by
    have hexact : ((timeDurationSecondsLimit : Int) : Rat) = (1 : Int) * 2 ^ (53 : Int) := by
      norm_num [timeDurationSecondsLimit]
    rw [f64.roundRat_multiple hexact (by rw [hbinade]; norm_num) (by rw [hplace]; norm_num)]
    norm_num [timeDurationSecondsLimit]
  have hexact : (9007199254740992 : Rat) * 1000000000 =
      (8388608000000000 : Int) * 2 ^ (30 : Int) := by
    norm_num
  rw [hseconds, f64.roundRat_multiple hexact (by rw [hbinade]; norm_num)
    (by rw [hplace]; norm_num)]
  norm_num

/-- The longest time there is, as nanoseconds, rounds out of the range of durations: the code
traps. -/
theorem durationFromInternal_longest :
    durationFromInternal ⟨0, 0, 0, 0⟩ ⟨9007199254740991, 999999999⟩ .nanosecond = none := by
  obtain ⟨c, htotal, -, hcarried, heq⟩ :=
    @durationFromInternal_eq ⟨9007199254740991, 999999999⟩ ⟨by decide, by decide, by decide⟩
      (by decide) ⟨0, 0, 0, 0⟩ (by norm_num) .nanosecond
  have hdays := hcarried.days (by decide)
  have hhours := hcarried.hours
  have hminutes := hcarried.minutes
  have hseconds := hcarried.seconds
  have hmillis := hcarried.milliseconds
  have hmicros := hcarried.microseconds
  simp [TemporalUnit.rank] at hhours hminutes hseconds hmillis hmicros
  have hnanos : c.nanoseconds = 9007199254740991999999999 := by
    unfold TimeComponents.total TimeDuration.total nanosecondsPerSecond at htotal
    dsimp only at htotal
    omega
  rw [heq]
  unfold Duration.validated
  rw [if_neg]
  intro hvalid
  have hlast := (of_decide_eq_true hvalid).2.2.1.2.2.2.2.2.2
  unfold Duration.rounded at hlast
  dsimp only at hlast
  rw [hnanos, longest_rounds, limit_rounds] at hlast
  norm_num at hlast

end Internal

end Wado.Temporal
