/-
The order of dates and their weeks: days follow one another as dates do, and a date's week is the
one of its Thursday.
-/
import Wado.Temporal.Rounding
import Mathlib.Data.Set.Card

namespace Wado.Temporal

def compareIsoDates (one two : IsoDate) : Int :=
  let byYear := compareI64 one.year two.year
  if byYear ≠ 0 then byYear
  else
    let byMonth := compareI64 one.month two.month
    if byMonth ≠ 0 then byMonth else compareI64 one.day two.day

/-- The day of the week, `1` (Monday) to `7` (Sunday). -/
def dayOfWeekOf (days : Int) : Int := floorMod (days + 3) 7 + 1

/-- The weekday of 31 December, `0` (Sunday) to `6` (Saturday). -/
def yearEndWeekday (year : Int) : Int :=
  floorMod (year + year / 4 - year / 100 + year / 400) 7

def isoWeeksInYear (year : Int) : Int :=
  if yearEndWeekday year = 4 ∨ yearEndWeekday (year - 1) = 3 then 53 else 52

/-- The week and the year it is counted in. -/
def isoWeekDate (year dayOfYear dayOfWeek : Int) : Int × Int :=
  let week := (dayOfYear - dayOfWeek + 10).tdiv 7
  if week < 1 then (isoWeeksInYear (year - 1), year - 1)
  else if week > isoWeeksInYear year then (1, year + 1)
  else (week, year)

def dayOfYear (days : Int) : Int := days - epochDaysOf (isoDateFromEpochDays days).year 1 1 + 1

/-- The calendar's next date. -/
def nextDate (date : IsoDate) : IsoDate :=
  if date.day < isoDaysInMonth date.year date.month then ⟨date.year, date.month, date.day + 1⟩
  else if date.month < 12 then ⟨date.year, date.month + 1, 1⟩
  else ⟨date.year + 1, 1, 1⟩

/-- One date is before another in the order of years, months and days. -/
def Before (one two : IsoDate) : Prop :=
  one.year < two.year ∨ one.year = two.year ∧
    (one.month < two.month ∨ one.month = two.month ∧ one.day < two.day)

theorem compareIsoDates_neg {one two : IsoDate} : compareIsoDates one two < 0 ↔ Before one two := by
  unfold compareIsoDates compareI64 Before
  dsimp only
  split_ifs <;> omega

theorem Before.trans {a b c : IsoDate} (h : Before a b) (h' : Before b c) : Before a c := by
  unfold Before at *
  omega

/-- The day count with the years before it counted from their closed form. -/
theorem epochDaysOf_closed {year month : Int} (hmonth : 1 ≤ month ∧ month ≤ 12) (day : Int) :
    ∃ y mp, y = (if month ≤ 2 then year - 1 else year) ∧
      mp = (if month > 2 then month - 3 else month + 9) ∧
      epochDaysOf year month day =
        365 * y + y / 4 - y / 100 + y / 400 + (153 * mp + 2) / 5 + day - 1 - 719468 := by
  refine ⟨_, _, rfl, rfl, ?_⟩
  unfold epochDaysOf
  dsimp only
  generalize hy : (if month ≤ 2 then year - 1 else year) = y
  have hmp : 0 ≤ (if month > 2 then month - 3 else month + 9) := by split_ifs <;> omega
  generalize (if month > 2 then month - 3 else month + 9) = mp at *
  rw [era_eq (by decide) (show (399 : Int) + 1 = 400 by decide)]
  have hlo := Int.emod_nonneg y (show (400 : Int) ≠ 0 by decide)
  have hyoe : y - y / 400 * 400 = y % 400 := by omega
  rw [hyoe, tdiv_of_nonneg hlo, tdiv_of_nonneg hlo, tdiv_of_nonneg (by omega)]
  omega

theorem epochDaysOf_day (year month day : Int) :
    epochDaysOf year month (day + 1) = epochDaysOf year month day + 1 := by
  unfold epochDaysOf
  dsimp only
  omega

/-- A month starts the day after the last one of the month before. -/
theorem epochDaysOf_nextMonth {year month : Int} (hmonth : 1 ≤ month ∧ month ≤ 11) :
    epochDaysOf year (month + 1) 1 = epochDaysOf year month (isoDaysInMonth year month) + 1 := by
  obtain ⟨y, mp, hy, hmp, hclosed⟩ :=
    @epochDaysOf_closed year month (by omega) (isoDaysInMonth year month)
  obtain ⟨y', mp', hy', hmp', hclosed'⟩ := @epochDaysOf_closed year (month + 1) (by omega) 1
  rw [hclosed, hclosed']
  have hleap := isLeapYear_iff year
  by_cases hfeb : month = 2
  · subst hfeb
    simp only [isoDaysInMonth, if_true]
    cases hyear : isLeapYear year with
    | true =>
      have hdiv := hleap.mp hyear
      simp only [if_true]
      norm_num at hy hmp hy' hmp'
      omega
    | false =>
      have hdiv : ¬ ((year % 4 = 0 ∧ year % 100 ≠ 0) ∨ year % 400 = 0) := fun h => by
        rw [hleap.mpr h] at hyear
        cases hyear
      simp only [Bool.false_eq_true, if_false]
      norm_num at hy hmp hy' hmp'
      omega
  · have hdim : isoDaysInMonth year month =
        if month = 4 ∨ month = 6 ∨ month = 9 ∨ month = 11 then 30 else 31 := by
      rw [isoDaysInMonth, if_neg hfeb]
    rw [hdim]
    clear hclosed hclosed' hleap hdim
    obtain ⟨hlo, hhi⟩ := hmonth
    interval_cases month
    case «2» => exact absurd rfl hfeb
    all_goals
      norm_num at hy hmp hy' hmp' ⊢
      omega

variable (year : Int)

theorem epochDaysOf_nextYear :
    epochDaysOf (year + 1) 1 1 = epochDaysOf year 12 31 + 1 := by
  obtain ⟨y, mp, hy, hmp, hclosed⟩ := @epochDaysOf_closed year 12 (by decide) 31
  obtain ⟨y', mp', hy', hmp', hclosed'⟩ := @epochDaysOf_closed (year + 1) 1 (by decide) 1
  rw [hclosed, hclosed']
  norm_num at hy hmp hy' hmp'
  omega

theorem isoDaysInMonth_pos (year month : Int) : 28 ≤ isoDaysInMonth year month := by
  unfold isoDaysInMonth
  split_ifs <;> decide

theorem isValid_iff {year month day : Int} : isValidIsoDate year month day = true ↔
    1 ≤ month ∧ month ≤ 12 ∧ 1 ≤ day ∧ day ≤ isoDaysInMonth year month := by
  simp [isValidIsoDate]

/-- The next date is valid, and one day later. -/
theorem nextDate_spec {date : IsoDate}
    (h : isValidIsoDate date.year date.month date.day = true) :
    isValidIsoDate (nextDate date).year (nextDate date).month (nextDate date).day = true ∧
      epochDaysOf (nextDate date).year (nextDate date).month (nextDate date).day =
        epochDaysOf date.year date.month date.day + 1 := by
  obtain ⟨hlo, hhi, hday, hdim⟩ := isValid_iff.mp h
  unfold nextDate
  by_cases hlast : date.day < isoDaysInMonth date.year date.month
  · rw [if_pos hlast]
    exact ⟨isValid_iff.mpr ⟨hlo, hhi, by dsimp only; omega, hlast⟩, epochDaysOf_day _ _ _⟩
  · rw [if_neg hlast]
    have hend : date.day = isoDaysInMonth date.year date.month := by omega
    by_cases hmonth : date.month < 12
    · rw [if_pos hmonth]
      have hpos := isoDaysInMonth_pos date.year (date.month + 1)
      refine ⟨isValid_iff.mpr ⟨by dsimp only; omega, by dsimp only; omega, le_refl _,
        by dsimp only; omega⟩, ?_⟩
      rw [hend]
      exact epochDaysOf_nextMonth ⟨hlo, by omega⟩
    · rw [if_neg hmonth]
      have htwelve : date.month = 12 := by omega
      have hpos := isoDaysInMonth_pos (date.year + 1) 1
      refine ⟨isValid_iff.mpr ⟨le_refl _, by dsimp only; omega, le_refl _,
        by dsimp only; omega⟩, ?_⟩
      rw [hend, htwelve]
      exact epochDaysOf_nextYear date.year

variable (days : Int)

theorem isoDateFromEpochDays_succ :
    isoDateFromEpochDays (days + 1) = nextDate (isoDateFromEpochDays days) := by
  obtain ⟨hvalid, hdays⟩ := nextDate_spec (isoDateFromEpochDays_isValid days)
  rw [epochDaysOf_isoDateFromEpochDays] at hdays
  rw [← hdays, isoDateFromEpochDays_epochDaysOf hvalid]

theorem before_nextDate {date : IsoDate}
    (h : isValidIsoDate date.year date.month date.day = true) : Before date (nextDate date) := by
  obtain ⟨hlo, hhi, hday, hdim⟩ := isValid_iff.mp h
  unfold nextDate Before
  split_ifs <;> dsimp only <;> omega

/-- Later days have later dates. -/
theorem before_of_lt {days days' : Int} (h : days < days') :
    Before (isoDateFromEpochDays days) (isoDateFromEpochDays days') := by
  obtain ⟨n, rfl⟩ : ∃ n : Nat, days' = days + 1 + n := ⟨(days' - days - 1).toNat, by omega⟩
  clear h
  induction n with
  | zero =>
    rw [Nat.cast_zero, add_zero, isoDateFromEpochDays_succ]
    exact before_nextDate (isoDateFromEpochDays_isValid days)
  | succ n ih =>
    refine ih.trans ?_
    rw [Nat.cast_succ, ← add_assoc, isoDateFromEpochDays_succ]
    exact before_nextDate (isoDateFromEpochDays_isValid _)

theorem compare_lt_iff {days days' : Int} :
    compareIsoDates (isoDateFromEpochDays days) (isoDateFromEpochDays days') < 0 ↔
      days < days' := by
  rw [compareIsoDates_neg]
  constructor
  · intro h
    by_contra hle
    rcases lt_or_eq_of_le (not_lt.mp hle) with hlt | heq
    · have hback := h.trans (before_of_lt hlt)
      unfold Before at hback
      omega
    · rw [heq] at h
      unfold Before at h
      omega
  · exact before_of_lt

section Weeks

/-- The days of a year are those from its first day to the next year's. -/
theorem year_eq_iff {days year : Int} : (isoDateFromEpochDays days).year = year ↔
    epochDaysOf year 1 1 ≤ days ∧ days < epochDaysOf (year + 1) 1 1 := by
  have hfirst : ∀ y, isoDateFromEpochDays (epochDaysOf y 1 1) = ⟨y, 1, 1⟩ := by
    intro y
    have hpos := isoDaysInMonth_pos y 1
    exact isoDateFromEpochDays_epochDaysOf (isValid_iff.mpr (by omega))
  have hbound : ∀ y, epochDaysOf y 1 1 ≤ days ↔ y ≤ (isoDateFromEpochDays days).year := by
    intro y
    obtain ⟨hlo, hhi, hday, hdim⟩ := isValid_iff.mp (isoDateFromEpochDays_isValid days)
    constructor
    · intro hle
      rcases lt_or_eq_of_le hle with hlt | heq
      · have hbefore := before_of_lt hlt
        rw [hfirst, Before] at hbefore
        dsimp only at hbefore
        omega
      · rw [← heq, hfirst]
    · intro hle
      by_contra hlt
      have hbefore := before_of_lt (not_le.mp hlt)
      rw [hfirst, Before] at hbefore
      dsimp only at hbefore
      omega
  rw [hbound year, ← not_le, hbound (year + 1)]
  omega

theorem epochDaysOf_first : epochDaysOf (year + 1) 1 1 =
    365 * year + year / 4 - year / 100 + year / 400 + 306 - 719468 := by
  obtain ⟨y, mp, hy, hmp, hclosed⟩ := @epochDaysOf_closed (year + 1) 1 (by decide) 1
  rw [hclosed]
  norm_num at hy hmp
  omega

theorem year_length : epochDaysOf (year + 1) 1 1 = epochDaysOf year 1 1 + 365 ∨
    epochDaysOf (year + 1) 1 1 = epochDaysOf year 1 1 + 366 := by
  have hnext := epochDaysOf_first year
  have hself := epochDaysOf_first (year - 1)
  rw [sub_add_cancel] at hself
  omega

/-- The weeks of a year, from its first Thursday to its last day. -/
theorem isoWeeksInYear_eq : isoWeeksInYear year =
    (epochDaysOf (year + 1) 1 1 - 1 - epochDaysOf year 1 1 - (-epochDaysOf year 1 1) % 7) / 7 +
      1 := by
  have hnext := epochDaysOf_first year
  have hself := epochDaysOf_first (year - 1)
  rw [sub_add_cancel] at hself
  have hlength := year_length year
  unfold isoWeeksInYear yearEndWeekday
  rw [floorMod_eq_emod _ (by decide), floorMod_eq_emod _ (by decide)]
  generalize epochDaysOf (year + 1) 1 1 = nextFirst at *
  generalize epochDaysOf year 1 1 = first at *
  have hlast : (year + year / 4 - year / 100 + year / 400) % 7 = (nextFirst + 3) % 7 := by omega
  have hbefore : (year - 1 + (year - 1) / 4 - (year - 1) / 100 + (year - 1) / 400) % 7 =
      (first + 3) % 7 := by omega
  rw [hlast, hbefore]
  clear hnext hself hlast hbefore
  split_ifs <;> omega

theorem thursday_iff : dayOfWeekOf days = 4 ↔ days % 7 = 0 := by
  rw [dayOfWeekOf, floorMod_eq_emod _ (by decide)]
  omega

/-- A year has as many weeks as Thursdays. -/
theorem ncard_thursdays :
    (({ days | dayOfWeekOf days = 4 ∧ (isoDateFromEpochDays days).year = year } :
      Set Int).ncard : Int) = isoWeeksInYear year := by
  have hlength := year_length year
  have hweeks := isoWeeksInYear_eq year
  have himage : ({ days | dayOfWeekOf days = 4 ∧ (isoDateFromEpochDays days).year = year } :
      Set Int) = (Finset.range (isoWeeksInYear year).toNat).image (fun i : Nat =>
        epochDaysOf year 1 1 + (-epochDaysOf year 1 1) % 7 + 7 * (i : Int)) := by
    ext days
    simp only [Set.mem_ofPred_eq, thursday_iff, year_eq_iff, Finset.coe_image, Set.mem_image,
      Finset.coe_range, Set.mem_Iio]
    constructor
    · rintro ⟨hthursday, hlo, hhi⟩
      refine ⟨((days - epochDaysOf year 1 1) / 7).toNat, ?_, ?_⟩ <;> omega
    · rintro ⟨i, hi, rfl⟩
      omega
  rw [himage, Set.ncard_coe_finset, Finset.card_image_of_injective _ (by
    intro i j hij
    dsimp only at hij
    omega), Finset.card_range]
  omega

/-- The week of a date is the one of its Thursday, counted in the Thursday's year. -/
theorem isoWeekDate_eq :
    isoWeekDate (isoDateFromEpochDays days).year (dayOfYear days) (dayOfWeekOf days) =
      ((dayOfYear (days + 4 - dayOfWeekOf days) - 1) / 7 + 1,
        (isoDateFromEpochDays (days + 4 - dayOfWeekOf days)).year) := by
  obtain ⟨hlo, hhi⟩ := year_eq_iff.mp (rfl : (isoDateFromEpochDays days).year = _)
  generalize hyear : (isoDateFromEpochDays days).year = year at *
  have hweekday : dayOfWeekOf days = (days + 3) % 7 + 1 := by
    rw [dayOfWeekOf, floorMod_eq_emod _ (by decide)]
  generalize dayOfWeekOf days = weekday at *
  have hlength := year_length year
  have hafter := year_length (year + 1)
  have hbefore := year_length (year - 1)
  have hweeks := isoWeeksInYear_eq year
  have hweeksBefore := isoWeeksInYear_eq (year - 1)
  rw [sub_add_cancel] at hbefore hweeksBefore
  have htdiv : (dayOfYear days - weekday + 10).tdiv 7 =
      (days - epochDaysOf year 1 1 + 11 - weekday) / 7 := by
    rw [dayOfYear, hyear, tdiv_of_nonneg (by omega)]
    congr 1
    omega
  unfold isoWeekDate
  dsimp only
  rw [htdiv]
  by_cases hearly : days + 4 - weekday < epochDaysOf year 1 1
  · -- the Thursday is of the year before
    have hthursday : (isoDateFromEpochDays (days + 4 - weekday)).year = year - 1 := by
      rw [year_eq_iff, sub_add_cancel]
      omega
    rw [if_pos (by omega), dayOfYear, hthursday]
    congr 1
    omega
  · rw [if_neg (by omega)]
    by_cases hlate : epochDaysOf (year + 1) 1 1 ≤ days + 4 - weekday
    · have hthursday : (isoDateFromEpochDays (days + 4 - weekday)).year = year + 1 := by
        rw [year_eq_iff]
        omega
      rw [if_pos (by omega), dayOfYear, hthursday]
      congr 1
      omega
    · have hthursday : (isoDateFromEpochDays (days + 4 - weekday)).year = year := by
        rw [year_eq_iff]
        omega
      rw [if_neg (by omega), dayOfYear, hthursday]
      congr 1
      omega

end Weeks

/-- The civil calendar is a bijection: a day count and its date give each other, later days have
later dates, consecutive days are calendar successors, a date's week is its Thursday's, and a year
has as many weeks as Thursdays. -/
theorem civil_calendar_exact :
    (∀ days, isValidIsoDate (isoDateFromEpochDays days).year (isoDateFromEpochDays days).month
        (isoDateFromEpochDays days).day = true ∧
      epochDaysOf (isoDateFromEpochDays days).year (isoDateFromEpochDays days).month
        (isoDateFromEpochDays days).day = days) ∧
    (∀ year month day, isValidIsoDate year month day = true →
      isoDateFromEpochDays (epochDaysOf year month day) = ⟨year, month, day⟩) ∧
    (∀ days days', compareIsoDates (isoDateFromEpochDays days) (isoDateFromEpochDays days') < 0 ↔
      days < days') ∧
    (∀ days, isoDateFromEpochDays (days + 1) = nextDate (isoDateFromEpochDays days)) ∧
    (∀ days, isoWeekDate (isoDateFromEpochDays days).year (dayOfYear days) (dayOfWeekOf days) =
        ((dayOfYear (days + 4 - dayOfWeekOf days) - 1) / 7 + 1,
          (isoDateFromEpochDays (days + 4 - dayOfWeekOf days)).year)) ∧
    ∀ year, (({ days | dayOfWeekOf days = 4 ∧ (isoDateFromEpochDays days).year = year } :
      Set Int).ncard : Int) = isoWeeksInYear year :=
  ⟨fun days => ⟨isoDateFromEpochDays_isValid days, epochDaysOf_isoDateFromEpochDays days⟩,
    fun _ _ _ h => isoDateFromEpochDays_epochDaysOf h, fun _ _ => compare_lt_iff,
    isoDateFromEpochDays_succ, isoWeekDate_eq, ncard_thursdays⟩

end Wado.Temporal
