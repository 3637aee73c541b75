/-
The ISO 8601 calendar of `core:temporal`: dates, days since 1970-01-01 and the way between
them.
-/
import Mathlib.Data.Int.Order.Basic
import Mathlib.Tactic.IntervalCases
import Mathlib.Tactic.Linarith

namespace Wado.Temporal

def nanosecondsPerSecond : Int := 1000000000
def secondsPerDay : Int := 86400
def nanosecondsPerDay : Int := 86400000000000
/-- 10^8 days, the reach of an instant on either side of the epoch. -/
def maxEpochDays : Int := 100000000
def maxEpochSeconds : Int := 8640000000000
/-- 2^53 seconds, which no time duration reaches. -/
def timeDurationSecondsLimit : Int := 9007199254740992
/-- 2^32, which no year, month or week count of a duration reaches. -/
def calendarUnitLimit : Int := 4294967296

structure IsoDate where
  year : Int
  month : Int
  day : Int
deriving DecidableEq, Repr

def isoDateFromEpochDays (days : Int) : IsoDate :=
  let z := days + 719468
  let era := (if z ≥ 0 then z else z - 146096).tdiv 146097
  let doe := z - era * 146097
  let yoe := (doe - doe.tdiv 1460 + doe.tdiv 36524 - doe.tdiv 146096).tdiv 365
  let doy := doe - (365 * yoe + yoe.tdiv 4 - yoe.tdiv 100)
  let mp := (5 * doy + 2).tdiv 153
  let month := if mp < 10 then mp + 3 else mp - 9
  let year := yoe + era * 400
  ⟨if month ≤ 2 then year + 1 else year, month, doy - (153 * mp + 2).tdiv 5 + 1⟩

def epochDaysOf (year month day : Int) : Int :=
  let y := if month ≤ 2 then year - 1 else year
  let era := (if y ≥ 0 then y else y - 399).tdiv 400
  let yoe := y - era * 400
  let mp := if month > 2 then month - 3 else month + 9
  let doy := (153 * mp + 2).tdiv 5 + day - 1
  let doe := yoe * 365 + yoe.tdiv 4 - yoe.tdiv 100 + doy
  era * 146097 + doe - 719468

def isLeapYear (year : Int) : Bool :=
  year.tmod 4 = 0 ∧ year.tmod 100 ≠ 0 ∨ year.tmod 400 = 0

/-- The days of a month, which is in `1..=12`. -/
def isoDaysInMonth (year month : Int) : Int :=
  if month = 2 then if isLeapYear year then 29 else 28
  else if month = 4 ∨ month = 6 ∨ month = 9 ∨ month = 11 then 30
  else 31

def isValidIsoDate (year month day : Int) : Bool :=
  1 ≤ month ∧ month ≤ 12 ∧ 1 ≤ day ∧ day ≤ isoDaysInMonth year month

def isoDateWithinLimits (days : Int) : Bool := -maxEpochDays - 1 ≤ days ∧ days ≤ maxEpochDays

def dateTimeWithinLimits (days timeOfDay : Int) : Bool :=
  if ¬ isoDateWithinLimits days then false
  else days > -maxEpochDays - 1 ∨ timeOfDay > 0

def yearMonthWithinLimits (year month : Int) : Bool :=
  if year < -271821 ∨ year > 275760 then false
  else ¬ (year = -271821 ∧ month < 4) ∧ ¬ (year = 275760 ∧ month > 9)

/-- The remainder of `a` modulo a positive `m` that is not negative. -/
def floorMod (a m : Int) : Int :=
  let r := a.tmod m
  if r < 0 then r + m else r

theorem floorMod_eq_emod (a : Int) {m : Int} (hm : 0 < m) : floorMod a m = a % m := by
  unfold floorMod
  rw [Int.tmod_eq_emod]
  have hlo := Int.emod_nonneg a (Int.ne_of_gt hm)
  have hhi := Int.emod_lt_of_pos a hm
  have habs : (m.natAbs : Int) = m := Int.natAbs_of_nonneg hm.le
  dsimp only
  split_ifs <;> omega

theorem isLeapYear_iff (year : Int) :
    isLeapYear year = true ↔ (year % 4 = 0 ∧ year % 100 ≠ 0) ∨ year % 400 = 0 := by
  have hzero : ∀ m : Int, year.tmod m = 0 ↔ year % m = 0 := by
    intro m
    rw [← Int.dvd_iff_tmod_eq_zero, ← Int.dvd_iff_emod_eq_zero]
  unfold isLeapYear
  rw [decide_eq_true_eq, hzero, hzero, ne_eq, hzero]

section Division

theorem tdiv_of_nonneg {a : Int} (ha : 0 ≤ a) (b : Int) : a.tdiv b = a / b :=
  Int.tdiv_eq_ediv_of_nonneg ha

/-- The division of a number that is made smaller where it is negative rounds down. -/
theorem era_eq {z r n : Int} (hr : 0 ≤ r) (hn : r + 1 = n) :
    (if z ≥ 0 then z else z - r).tdiv n = z / n := by
  split_ifs with h
  · exact Int.tdiv_eq_ediv_of_nonneg h
  · have hdiv := Int.mul_ediv_add_emod z n
    have hlo := Int.emod_nonneg z (show n ≠ 0 by omega)
    have hhi := Int.emod_lt_of_pos z (show 0 < n by omega)
    have hval : -(z - r) = r - z % n + n * -(z / n) := by
      rw [Int.mul_neg]
      omega
    rw [← Int.neg_neg (z - r), Int.neg_tdiv, Int.tdiv_eq_ediv_of_nonneg (by omega), hval,
      Int.add_mul_ediv_left _ _ (by omega), Int.ediv_eq_zero_of_lt (by omega) (by omega)]
    omega

end Division

section March

/-- A date of a year that starts in March: of the year `100 * c + 4 * a + b` of a cycle of 400
years, the day `day` of the month `mp` after March. -/
structure MarchDate where
  era : Int
  c : Int
  a : Int
  b : Int
  mp : Int
  day : Int
  c_range : 0 ≤ c ∧ c ≤ 3
  a_range : 0 ≤ a ∧ a ≤ 24
  b_range : 0 ≤ b ∧ b ≤ 3
  mp_range : 0 ≤ mp ∧ mp ≤ 11
  day_pos : 1 ≤ day
  /-- The day is of the month, where the month is not the last one of the year. -/
  day_le : mp < 11 → (153 * mp + 2) / 5 + day ≤ (153 * mp + 155) / 5
  /-- The last month has 29 days in a leap year. -/
  day_leap : mp = 11 → day ≤ 29 ∧ (day = 29 → b = 3 ∧ (a = 24 → c = 3))

namespace MarchDate

variable (date : MarchDate)

def doy : Int := (153 * date.mp + 2) / 5 + date.day - 1

def doe : Int := 36524 * date.c + 1461 * date.a + 365 * date.b + date.doy

def epochDays : Int := date.era * 146097 + date.doe - 719468

def year : Int :=
  let year := date.era * 400 + 100 * date.c + 4 * date.a + date.b
  if date.mp < 10 then year else year + 1

def month : Int := if date.mp < 10 then date.mp + 3 else date.mp - 9

theorem doy_range : 0 ≤ date.doy ∧ date.doy ≤ 365 := by
  obtain ⟨hlo, hhi⟩ := date.mp_range
  have hday := date.day_pos
  have hle := date.day_le
  have hleap := date.day_leap
  unfold doy
  omega

theorem doy_leap (h : date.doy = 365) : date.b = 3 ∧ (date.a = 24 → date.c = 3) := by
  obtain ⟨hlo, hhi⟩ := date.mp_range
  have hle := date.day_le
  have hleap := date.day_leap
  unfold doy at h
  have hmp : date.mp = 11 := by omega
  exact (hleap hmp).2 (by omega)

theorem mp_eq : (5 * date.doy + 2) / 153 = date.mp := by
  obtain ⟨hlo, hhi⟩ := date.mp_range
  have hday := date.day_pos
  have hle := date.day_le
  have hleap := date.day_leap
  unfold doy
  omega

theorem yoe_eq : (date.doe - date.doe / 1460 + date.doe / 36524 - date.doe / 146096) / 365 =
    100 * date.c + 4 * date.a + date.b := by
  obtain ⟨hc, hc'⟩ := date.c_range
  obtain ⟨ha, ha'⟩ := date.a_range
  obtain ⟨hb, hb'⟩ := date.b_range
  obtain ⟨hd, hd'⟩ := date.doy_range
  have hleap := date.doy_leap
  have hdoe : date.doe = 36524 * date.c + 1461 * date.a + 365 * date.b + date.doy := rfl
  generalize date.doe = doe at *
  generalize date.doy = doy at *
  generalize date.c = c at *
  generalize date.a = a at *
  generalize date.b = b at *
  -- each quotient is off by one at most from that of the years gone by
  have h1460 : doe / 1460 = 25 * c + a + (if 1460 ≤ 24 * c + a + 365 * b + doy then 1 else 0) := by
    split_ifs <;> omega
  have h36524 : doe / 36524 = c + (if doy = 365 ∧ a = 24 ∧ b = 3 then 1 else 0) := by
    split_ifs <;> omega
  have h146096 : doe / 146096 = (if doy = 365 ∧ a = 24 ∧ b = 3 then 1 else 0) := by
    split_ifs <;> omega
  rw [h1460, h36524, h146096]
  split_ifs <;> omega

theorem doe_range : 0 ≤ date.doe ∧ date.doe < 146097 := by
  obtain ⟨hc, hc'⟩ := date.c_range
  obtain ⟨ha, ha'⟩ := date.a_range
  obtain ⟨hb, hb'⟩ := date.b_range
  obtain ⟨hd, hd'⟩ := date.doy_range
  have hleap := date.doy_leap
  unfold doe
  omega

theorem epochDaysOf_eq : epochDaysOf date.year date.month date.day = date.epochDays := by
  obtain ⟨hc, hc'⟩ := date.c_range
  obtain ⟨ha, ha'⟩ := date.a_range
  obtain ⟨hb, hb'⟩ := date.b_range
  obtain ⟨hlo, hhi⟩ := date.mp_range
  have hy : (if date.month ≤ 2 then date.year - 1 else date.year) =
      date.era * 400 + 100 * date.c + 4 * date.a + date.b := by
    unfold year month
    dsimp only
    split_ifs <;> omega
  have hmp : (if date.month > 2 then date.month - 3 else date.month + 9) = date.mp := by
    unfold month
    split_ifs <;> omega
  unfold epochDaysOf epochDays doe doy
  dsimp only
  rw [hy, hmp, era_eq (by decide) (show (399 : Int) + 1 = 400 by decide)]
  have hera : (date.era * 400 + 100 * date.c + 4 * date.a + date.b) / 400 = date.era := by omega
  rw [hera, tdiv_of_nonneg (by omega), tdiv_of_nonneg (by omega), tdiv_of_nonneg (by omega)]
  omega

theorem isoDateFromEpochDays_eq :
    isoDateFromEpochDays date.epochDays = ⟨date.year, date.month, date.day⟩ := by
  obtain ⟨hlo, hhi⟩ := date.doe_range
  obtain ⟨hmlo, hmhi⟩ := date.mp_range
  obtain ⟨hc, hc'⟩ := date.c_range
  obtain ⟨ha, ha'⟩ := date.a_range
  obtain ⟨hb, hb'⟩ := date.b_range
  obtain ⟨hd, hd'⟩ := date.doy_range
  unfold isoDateFromEpochDays
  dsimp only
  rw [era_eq (by decide) (show (146096 : Int) + 1 = 146097 by decide)]
  have hera : (date.epochDays + 719468) / 146097 = date.era := by
    unfold epochDays
    omega
  have hdoe : date.epochDays + 719468 - date.era * 146097 = date.doe := by
    unfold epochDays
    omega
  have hyoe : (date.doe - date.doe.tdiv 1460 + date.doe.tdiv 36524 -
      date.doe.tdiv 146096).tdiv 365 = 100 * date.c + 4 * date.a + date.b := by
    rw [tdiv_of_nonneg hlo, tdiv_of_nonneg hlo, tdiv_of_nonneg hlo, tdiv_of_nonneg (by omega),
      date.yoe_eq]
  have hnonneg : 0 ≤ 100 * date.c + 4 * date.a + date.b := by omega
  rw [hera, hdoe, hyoe, tdiv_of_nonneg hnonneg, tdiv_of_nonneg hnonneg]
  have hdoy : date.doe - (365 * (100 * date.c + 4 * date.a + date.b) +
      (100 * date.c + 4 * date.a + date.b) / 4 - (100 * date.c + 4 * date.a + date.b) / 100) =
      date.doy := by
    unfold doe
    omega
  have hmp : (5 * date.doy + 2).tdiv 153 = date.mp := by
    rw [tdiv_of_nonneg (by omega), date.mp_eq]
  have hmonth : (153 * date.mp + 2).tdiv 5 = (153 * date.mp + 2) / 5 := by
    rw [tdiv_of_nonneg (by omega)]
  rw [hdoy, hmp, hmonth]
  unfold year month doy
  dsimp only
  congr 1
  · split_ifs <;> omega
  · omega

theorem isLeapYear_eq (h : date.mp = 11) :
    isLeapYear date.year = true ↔ date.b = 3 ∧ (date.a = 24 → date.c = 3) := by
  obtain ⟨hc, hc'⟩ := date.c_range
  obtain ⟨ha, ha'⟩ := date.a_range
  obtain ⟨hb, hb'⟩ := date.b_range
  rw [isLeapYear_iff]
  unfold year
  dsimp only
  rw [if_neg (by omega)]
  constructor
  · intro hleap
    omega
  · intro hleap
    omega

/-- The date exists. -/
theorem isValid : isValidIsoDate date.year date.month date.day = true := by
  obtain ⟨hlo, hhi⟩ := date.mp_range
  have hday := date.day_pos
  have hle := date.day_le
  have hleap := date.day_leap
  have hyear := date.isLeapYear_eq
  unfold isValidIsoDate isoDaysInMonth
  rw [decide_eq_true_eq]
  generalize date.year = year at *
  generalize date.day = day at *
  by_cases hfeb : date.mp = 11
  · have h29 := hleap hfeb
    have hmonth : date.month = 2 := by
      unfold month
      rw [if_neg (by omega), hfeb]
      rfl
    rw [hmonth, if_pos rfl]
    refine ⟨by decide, by decide, hday, ?_⟩
    split_ifs with hy
    · exact h29.1
    · have hne : day ≠ 29 := fun heq => hy ((hyear hfeb).mpr (h29.2 heq))
      omega
  · have hlt := hle (by omega)
    unfold month
    split_ifs <;> omega

end MarchDate

theorem exists_march_of_valid {y m d : Int} (h : isValidIsoDate y m d = true) :
    ∃ date : MarchDate, date.year = y ∧ date.month = m ∧ date.day = d := by
  unfold isValidIsoDate at h
  rw [decide_eq_true_eq] at h
  obtain ⟨hm, hm', hd, hd'⟩ := h
  have hleap := isLeapYear_iff y
  unfold isoDaysInMonth at hd'
  obtain ⟨marchYear, hmarch⟩ : ∃ z, z = if m ≤ 2 then y - 1 else y := ⟨_, rfl⟩
  obtain ⟨mp, hmp⟩ : ∃ z, z = if m > 2 then m - 3 else m + 9 := ⟨_, rfl⟩
  refine ⟨⟨marchYear / 400, marchYear % 400 / 100, marchYear % 100 / 4, marchYear % 4, mp, d,
    ?_, ?_, ?_, ?_, hd, ?_, ?_⟩, ?_, ?_, rfl⟩
  · omega
  · omega
  · omega
  · split_ifs at hmp <;> omega
  · intro hlt
    interval_cases m <;> split_ifs at hmp hd' <;> omega
  · intro hfeb
    have htwo : m = 2 := by split_ifs at hmp <;> omega
    rw [if_pos (by omega)] at hmarch
    rw [if_pos htwo] at hd'
    split_ifs at hd' with hy
    · have := hleap.mp hy
      omega
    · omega
  · unfold MarchDate.year
    dsimp only
    split_ifs at * <;> omega
  · unfold MarchDate.month
    dsimp only
    split_ifs at * <;> omega

theorem exists_march_of_days (days : Int) : ∃ date : MarchDate, date.epochDays = days := by
  obtain ⟨doe, hdoe⟩ : ∃ z, z = (days + 719468) % 146097 := ⟨_, rfl⟩
  obtain ⟨c, hc⟩ : ∃ z, z = min (doe / 36524) 3 := ⟨_, rfl⟩
  obtain ⟨a, ha⟩ : ∃ z, z = (doe - 36524 * c) / 1461 := ⟨_, rfl⟩
  obtain ⟨b, hb⟩ : ∃ z, z = min ((doe - 36524 * c - 1461 * a) / 365) 3 := ⟨_, rfl⟩
  obtain ⟨doy, hdoy⟩ : ∃ z, z = doe - 36524 * c - 1461 * a - 365 * b := ⟨_, rfl⟩
  have hc' : 0 ≤ c ∧ c ≤ 3 := by omega
  have ha' : 0 ≤ a ∧ a ≤ 24 := by omega
  have hb' : 0 ≤ b ∧ b ≤ 3 := by omega
  have hdoy' : 0 ≤ doy ∧ doy ≤ 365 := by omega
  have hleap : doy = 365 → b = 3 ∧ (a = 24 → c = 3) := by omega
  refine ⟨⟨(days + 719468) / 146097, c, a, b, (5 * doy + 2) / 153,
    doy - (153 * ((5 * doy + 2) / 153) + 2) / 5 + 1, hc', ha', hb', ?_, ?_, ?_, ?_⟩, ?_⟩
  · omega
  · omega
  · omega
  · omega
  · unfold MarchDate.epochDays MarchDate.doe MarchDate.doy
    dsimp only
    omega

end March

theorem isoDateFromEpochDays_epochDaysOf {y m d : Int} (h : isValidIsoDate y m d = true) :
    isoDateFromEpochDays (epochDaysOf y m d) = ⟨y, m, d⟩ := by
  obtain ⟨date, rfl, rfl, rfl⟩ := exists_march_of_valid h
  rw [date.epochDaysOf_eq, date.isoDateFromEpochDays_eq]

theorem epochDaysOf_isoDateFromEpochDays (days : Int) :
    epochDaysOf (isoDateFromEpochDays days).year (isoDateFromEpochDays days).month
      (isoDateFromEpochDays days).day = days := by
  obtain ⟨date, rfl⟩ := exists_march_of_days days
  rw [date.isoDateFromEpochDays_eq, date.epochDaysOf_eq]

theorem isoDateFromEpochDays_isValid (days : Int) :
    isValidIsoDate (isoDateFromEpochDays days).year (isoDateFromEpochDays days).month
      (isoDateFromEpochDays days).day = true := by
  obtain ⟨date, rfl⟩ := exists_march_of_days days
  rw [date.isoDateFromEpochDays_eq]
  exact date.isValid

/-- The year of a day at most 10^8 + 1 days from the epoch has six digits. -/
theorem year_range {days : Int} (h : -100000002 ≤ days ∧ days ≤ 100000002) :
    -999999 ≤ (isoDateFromEpochDays days).year ∧ (isoDateFromEpochDays days).year ≤ 999999 := by
  obtain ⟨date, rfl⟩ := exists_march_of_days days
  obtain ⟨hc, hc'⟩ := date.c_range
  obtain ⟨ha, ha'⟩ := date.a_range
  obtain ⟨hb, hb'⟩ := date.b_range
  obtain ⟨hd, hd'⟩ := date.doe_range
  rw [date.isoDateFromEpochDays_eq]
  unfold MarchDate.epochDays at h
  unfold MarchDate.year
  dsimp only
  split_ifs <;> omega

end Wado.Temporal
