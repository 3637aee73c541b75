/-
Rounding over split counts of nanoseconds is rounding of the exact quotient.
-/
import Wado.Temporal.TimeDuration
import Wado.Temporal.ValuesRead

namespace Wado.Temporal

open StepRounding TimeDuration Option

section Parts

variable {a b c d : Int}

/-- Counts split at the second compare by their seconds and then by what is past them. -/
theorem compare_parts (hb : 0 ≤ b ∧ b < 1000000000) (hd : 0 ≤ d ∧ d < 1000000000) {half : Int}
    (hhalf : half = if compareI64 a c = 0 then compareI64 b d else compareI64 a c) :
    (0 < half ↔ c * 1000000000 + d < a * 1000000000 + b) ∧
      (half = 0 ↔ c * 1000000000 + d = a * 1000000000 + b) := by
  have hseconds := compareI64_eq_zero (a := a) (b := c)
  have hsecondsPos := compareI64_pos (a := a) (b := c)
  have hrest := compareI64_eq_zero (a := b) (b := d)
  have hrestPos := compareI64_pos (a := b) (b := d)
  by_cases h : compareI64 a c = 0
  · rw [if_pos h] at hhalf
    have heq := hseconds.mp h
    rw [hhalf, hrest, hrestPos, heq]
    omega
  · rw [if_neg h] at hhalf
    rw [hhalf, hseconds, hsecondsPos]
    omega

end Parts

section Seconds

variable {n step : Int}

/-- A magnitude that is no multiple of a step of whole seconds, between two of them. -/
theorem between_seconds (hstep : 0 < step)
    (h : ¬ (n / 1000000000 % step = 0 ∧ n % 1000000000 = 0)) :
    Between n (n / 1000000000 / step) (n / 1000000000 % step * 1000000000 + n % 1000000000)
      (step * 1000000000) := by
  have hlo := Int.emod_nonneg (n / 1000000000) hstep.ne'
  have hhi := Int.emod_lt_of_pos (n / 1000000000) hstep
  have hdiv := Int.mul_ediv_add_emod (n / 1000000000) step
  constructor
  · calc n = n / 1000000000 * 1000000000 + n % 1000000000 := by omega
      _ = (step * (n / 1000000000 / step) + n / 1000000000 % step) * 1000000000 +
            n % 1000000000 := by rw [hdiv]
      _ = _ := by ring
  · omega
  · omega

/-- A multiple of the step is what every mode rounds it to. -/
theorem round_multiple (mode : RoundingMode) {k : Int} (hstep : 0 < step) (h : n = k * step) :
    mode.round ((n : ℚ) / step) * step = n := by
  have hne : (step : ℚ) ≠ 0 := by exact_mod_cast hstep.ne'
  have hquotient : (n : ℚ) / step = k := by
    rw [h, Int.cast_mul, mul_div_assoc, div_self hne, mul_one]
  rw [hquotient, RoundingMode.round_intCast, h]

theorem ofTotal_of_nonneg (hn : 0 ≤ n) : ofTotal n = ⟨n / 1000000000, n % 1000000000⟩ := by
  rcases tdiv_tmod_cases n with ⟨_, hdiv, hmod⟩ | ⟨hneg, _⟩
  · unfold ofTotal
    rw [hdiv, hmod]
  · omega

/-- A whole number of seconds, as nanoseconds. -/
theorem ofTotal_whole {m : Int} (hlo : 0 ≤ m * step) (hhi : m * step < 9223372036854775808) :
    (⟨i64 (m * step), 0⟩ : TimeDuration) = ofTotal (m * (step * 1000000000)) := by
  have hmul : m * (step * 1000000000) = m * step * 1000000000 := by ring
  rw [i64_eq (by omega), hmul, ofTotal_of_nonneg (by omega), mk.injEq]
  omega

theorem checked_self (h : (ofTotal n).isInRange = true) :
    (ofTotal n).checked = some (ofTotal n) := by
  unfold checked
  rw [if_neg (not_not.mpr h)]

/-- The magnitude of a number, and the number as its magnitude and its sign. -/
theorem exists_magnitude (n : Int) : ∃ magnitude : Int, 0 ≤ magnitude ∧
    (if n < 0 then -n else n) = magnitude ∧
      (if decide (n < 0) = true then -magnitude else magnitude) = n := by
  refine ⟨if n < 0 then -n else n, ?_, rfl, ?_⟩
  · split_ifs <;> omega
  · by_cases hn : n < 0
    · rw [if_pos (decide_eq_true hn), if_pos hn, Int.neg_neg]
    · rw [if_neg (by rw [decide_eq_true_eq]; exact hn), if_neg hn]

theorem roundTimeDurationSeconds_eq (hrange : (ofTotal n).isInRange = true) (hstep : 0 < step)
    (hbound : step ≤ 86400000000000) (mode : RoundingMode) :
    roundTimeDurationSeconds (ofTotal n) step mode =
      (ofTotal (mode.round ((n : ℚ) / (step * 1000000000 : Int)) *
        (step * 1000000000))).checked := by
  have hlimits := isInRange_ofTotal.mp hrange
  have hnegative : decide ((ofTotal n).sign < 0) = decide (n < 0) :=
    decide_eq_decide.mpr sign_ofTotal
  obtain ⟨magnitude, hmagnitude, habs, hsigned⟩ := exists_magnitude n
  unfold roundTimeDurationSeconds
  rw [hnegative, abs_ofTotal hrange, habs, ofTotal_of_nonneg hmagnitude]
  dsimp only
  have hseconds : 0 ≤ magnitude / 1000000000 := by omega
  have hquotient := Int.ediv_nonneg hseconds hstep.le
  rw [tdiv_of_nonneg hseconds, Int.tmod_eq_emod_of_nonneg hseconds,
    Int.tmod_eq_emod_of_nonneg hquotient]
  by_cases hzero : magnitude / 1000000000 % step = 0 ∧ magnitude % 1000000000 = 0
  · rw [if_pos hzero]
    have hmultiple : ∃ k, n = k * (step * 1000000000) := by
      have hdvd : step * 1000000000 ∣ magnitude := by
        rw [show magnitude = magnitude / 1000000000 * 1000000000 by omega]
        exact mul_dvd_mul_right (Int.dvd_of_emod_eq_zero hzero.1) 1000000000
      have hdvd : step * 1000000000 ∣ n := by
        rw [← hsigned]
        split_ifs
        · exact (Int.dvd_neg).mpr hdvd
        · exact hdvd
      exact hdvd.imp fun k hk => by rw [hk, mul_comm]
    obtain ⟨k, hk⟩ := hmultiple
    rw [round_multiple mode (by omega) hk, checked_self hrange]
    rfl
  · rw [if_neg hzero]
    have hbetween := between_seconds hstep hzero
    have hrestLo := Int.emod_nonneg (magnitude / 1000000000) hstep.ne'
    have hrestHi := Int.emod_lt_of_pos (magnitude / 1000000000) hstep
    have hquotientLe : magnitude / 1000000000 / step ≤ magnitude / 1000000000 :=
      Int.ediv_le_self step hseconds
    have hquotientMul : magnitude / 1000000000 / step * step ≤ magnitude / 1000000000 :=
      Int.ediv_mul_le _ hstep.ne'
    generalize hrest : magnitude / 1000000000 % step = rest at *
    generalize hq : magnitude / 1000000000 / step = q at *
    have hnext : i64 (q + 1) = q + 1 := i64_eq (by omega)
    have hroom : magnitude / 1000000000 + step < 9223372036854775808 := by omega
    generalize hupSeconds : (if magnitude % 1000000000 > 0 then i64 (i64 (step - rest) - 1)
      else i64 (step - rest)) = upSeconds
    generalize hupNanoseconds : (if magnitude % 1000000000 > 0 then
      i64 (nanosecondsPerSecond - magnitude % 1000000000) else 0) = upNanoseconds
    have hup : (0 ≤ upNanoseconds ∧ upNanoseconds < 1000000000) ∧
        upSeconds * 1000000000 + upNanoseconds =
          step * 1000000000 - (rest * 1000000000 + magnitude % 1000000000) := by
      unfold nanosecondsPerSecond at hupNanoseconds
      have hdistance : i64 (step - rest) = step - rest := i64_eq (by omega)
      rw [hdistance] at hupSeconds
      split_ifs at hupSeconds hupNanoseconds
      · rw [i64_eq (by omega)] at hupSeconds hupNanoseconds
        omega
      · omega
    generalize hhalf : (if compareI64 rest upSeconds = 0 then
      compareI64 (magnitude % 1000000000) upNanoseconds else compareI64 rest upSeconds) = half
    obtain ⟨hpos, htie⟩ := compare_parts (by omega) hup.1 hhalf.symm
    rw [hup.2] at hpos htie
    rw [hnext]
    generalize hm : (if roundsAway (unsignedRoundingMode mode (decide (n < 0))) half
      (decide (q % 2 = 1)) = true then q + 1 else q) = m
    have hround := roundsAway_signed mode hbetween hquotient (decide (n < 0)) hpos htie
      decide_eq_true_iff hm.symm
    rw [hsigned] at hround
    have hmLe : 0 ≤ m * step ∧ m * step ≤ magnitude / 1000000000 + step := by
      have hmul : (q + 1) * step = q * step + step := by ring
      have hmulNonneg : 0 ≤ q * step := Int.mul_nonneg hquotient hstep.le
      split_ifs at hm <;> rw [← hm] <;> omega
    have hwhole := ofTotal_whole hmLe.1 (Int.lt_of_le_of_lt hmLe.2 hroom)
    have hsignedMul : (if decide (n < 0) = true then -(m * (step * 1000000000))
        else m * (step * 1000000000)) =
          (if decide (n < 0) = true then -m else m) * (step * 1000000000) := by
      split_ifs
      · exact (Int.neg_mul m _).symm
      · rfl
    rw [← hround, ← hsignedMul, ← checked_signed, hwhole, map_eq_bind]
    rfl

end Seconds

section Bases

variable {n base step : Int}

/-- Division by a step that divides a base, from the parts of a number split at the base. -/
theorem split_quotient (hstep : 0 < step) (hdvd : step ∣ base) :
    n / step = n / base * (base / step) + n % base / step ∧ n % base % step = n % step := by
  constructor
  · have hn := Int.ediv_mul_add_emod n base
    have hbase := Int.ediv_mul_cancel hdvd
    calc n / step = (n / base * base + n % base) / step := by rw [hn]
      _ = (n % base + step * (n / base * (base / step))) / step := by
            congr 1
            calc n / base * base + n % base
                = n / base * (base / step * step) + n % base := by rw [hbase]
              _ = _ := by ring
      _ = n % base / step + n / base * (base / step) := Int.add_mul_ediv_left _ _ hstep.ne'
      _ = _ := add_comm _ _
  · exact Int.emod_emod_of_dvd n hdvd

/-- The parity of the whole count, as the code has it from the parities of its parts. -/
theorem odd_split {a b c q : Int} (hq : q = a * b + c) (hc : 0 ≤ c ∧ c ≤ 1000000000000000) :
    (i64 (i64 (a % 2 * (b % 2)) + c)).tmod 2 = q % 2 := by
  have hproduct : 0 ≤ a % 2 * (b % 2) ∧ a % 2 * (b % 2) ≤ 1 := by
    rcases Int.emod_two_eq a with ha | ha
    · rw [ha]
      omega
    · rw [ha]
      omega
  rw [i64_eq (x := a % 2 * (b % 2)) (by omega), i64_eq (by omega),
    Int.tmod_eq_emod_of_nonneg (by omega), hq, Int.add_emod, ← Int.mul_emod, ← Int.add_emod]

theorem between_emod (hstep : 0 < step) (h : n % step ≠ 0) :
    Between n (n / step) (n % step) step := by
  have hlo := Int.emod_nonneg n hstep.ne'
  exact ⟨(Int.ediv_mul_add_emod n step).symm, by omega, Int.emod_lt_of_pos n hstep⟩

end Bases

section Subsecond

variable {n step : Int}

theorem roundTimeDurationSubsecond_eq (hrange : (ofTotal n).isInRange = true) (hstep : 0 < step)
    (hdvd : step ∣ 1000000000) (mode : RoundingMode) :
    roundTimeDurationSubsecond (ofTotal n) step mode =
      (ofTotal (mode.round ((n : ℚ) / step) * step)).checked := by
  have hlimits := isInRange_ofTotal.mp hrange
  have hnegative : decide ((ofTotal n).sign < 0) = decide (n < 0) :=
    decide_eq_decide.mpr sign_ofTotal
  obtain ⟨magnitude, hmagnitude, habs, hsigned⟩ := exists_magnitude n
  have hbound := Int.le_of_dvd (by decide) hdvd
  have hseconds : 0 ≤ magnitude / 1000000000 := by omega
  have hnano : 0 ≤ magnitude % 1000000000 := by omega
  have hquotient := Int.ediv_nonneg hnano hstep.le
  have hsteps := Int.ediv_nonneg (a := 1000000000) (by decide) hstep.le
  obtain ⟨hwhole, hrest⟩ := split_quotient (n := magnitude) hstep hdvd
  have hrestLo := Int.emod_nonneg magnitude hstep.ne'
  have hrestHi := Int.emod_lt_of_pos magnitude hstep
  have hquotientLe : magnitude % 1000000000 / step ≤ magnitude % 1000000000 :=
    Int.ediv_le_self step hnano
  have hquotientMul : magnitude % 1000000000 / step * step ≤ magnitude % 1000000000 :=
    Int.ediv_mul_le _ hstep.ne'
  unfold roundTimeDurationSubsecond nanosecondsPerSecond
  rw [hnegative, abs_ofTotal hrange, habs, ofTotal_of_nonneg hmagnitude]
  dsimp only
  rw [tdiv_of_nonneg hnano, Int.tmod_eq_emod_of_nonneg hnano, tdiv_of_nonneg (by decide),
    Int.tmod_eq_emod_of_nonneg hseconds, Int.tmod_eq_emod_of_nonneg hsteps, hrest]
  by_cases hzero : magnitude % step = 0
  · rw [if_pos hzero]
    have hmultiple : step ∣ n := by
      have hdvd := Int.dvd_of_emod_eq_zero hzero
      rw [← hsigned]
      split_ifs
      · exact (Int.dvd_neg).mpr hdvd
      · exact hdvd
    obtain ⟨k, hk⟩ := hmultiple
    rw [round_multiple mode hstep (k := k) (by rw [hk, mul_comm]), checked_self hrange]
    rfl
  · rw [if_neg hzero]
    have hbetween := between_emod hstep hzero
    have hparity := odd_split hwhole ⟨hquotient, by omega⟩
    have hdistance : i64 (step - magnitude % step) = step - magnitude % step :=
      i64_eq (by omega)
    have hnext : i64 (magnitude % 1000000000 / step + 1) = magnitude % 1000000000 / step + 1 :=
      i64_eq (by omega)
    rw [hparity, hdistance, hnext]
    generalize hup : roundsAway (unsignedRoundingMode mode (decide (n < 0)))
      (compareI64 (magnitude % step) (step - magnitude % step))
        (decide (magnitude / step % 2 = 1)) = up
    generalize hm : (if up = true then magnitude / step + 1 else magnitude / step) = m
    have hround := roundsAway_signed mode hbetween (Int.ediv_nonneg hmagnitude hstep.le)
      (decide (n < 0)) compareI64_pos compareI64_eq_zero decide_eq_true_iff
        (m := m) (by rw [hup, hm])
    rw [hsigned] at hround
    generalize hmultiple : (if up = true then magnitude % 1000000000 / step + 1
      else magnitude % 1000000000 / step) = multiple
    have hmSplit : m = magnitude / 1000000000 * (1000000000 / step) + multiple := by
      split_ifs at hm hmultiple <;> omega
    have hmultipleRange : 0 ≤ multiple * step ∧ multiple * step ≤ 2000000000 := by
      have hmul : (magnitude % 1000000000 / step + 1) * step =
          magnitude % 1000000000 / step * step + step := by ring
      have hmulNonneg := Int.mul_nonneg hquotient hstep.le
      split_ifs at hmultiple <;> rw [← hmultiple] <;> omega
    have hwholeSteps : magnitude / 1000000000 * 1000000000 + multiple * step = m * step := by
      have hsecond := Int.ediv_mul_cancel hdvd
      calc magnitude / 1000000000 * 1000000000 + multiple * step
          = magnitude / 1000000000 * (1000000000 / step * step) + multiple * step := by
            rw [hsecond]
        _ = m * step := by
            rw [hmSplit]
            ring
    have hcarry := tdiv_tmod_cases (multiple * step)
    have hduration : timeDuration (magnitude / 1000000000) (i64 (multiple * step)) =
        ofTotal (m * step) := by
      rw [i64_eq (by omega), timeDuration_eq (by omega), ← hwholeSteps]
      rfl
    have hsignedMul : (if decide (n < 0) = true then -(m * step) else m * step) =
        (if decide (n < 0) = true then -m else m) * step := by
      split_ifs
      · exact (Int.neg_mul m _).symm
      · rfl
    rw [← hround, ← hsignedMul, ← checked_signed, hduration, map_eq_bind]
    rfl

end Subsecond

variable {t : TimeDuration}

section Units

variable {smallestUnit largestUnit : TemporalUnit} {increment : Int}

/-- What a duration's rounding lets through: a day takes any increment, a time unit one that
divides the next unit. -/
theorem validateDurationRounding_cases
    (h : validateDurationRounding smallestUnit largestUnit increment = some ()) :
    (1 ≤ increment ∧ increment ≤ 1000000000) ∧ (smallestUnit = .day ∨ smallestUnit.isDate = false ∧
        increment < smallestUnit.maximumRoundingIncrement ∧
          increment ∣ smallestUnit.maximumRoundingIncrement) := by
  unfold validateDurationRounding at h
  obtain ⟨hrank, h⟩ := ite_none_left_eq_some.mp h
  obtain ⟨hcalendar, h⟩ := ite_none_left_eq_some.mp h
  unfold TemporalUnit.isCalendar at hcalendar
  rw [decide_eq_true_eq] at hcalendar
  dsimp only at h
  by_cases hmaximum : smallestUnit.maximumRoundingIncrement = 0
  · rw [if_pos hmaximum] at h
    refine ⟨requireIncrementRange_iff.mp h, Or.inl ?_⟩
    cases smallestUnit <;> simp_all [TemporalUnit.maximumRoundingIncrement, TemporalUnit.rank] <;>
      omega
  · rw [if_neg hmaximum] at h
    obtain ⟨hincrement, hle, hdvd⟩ := validateRoundingIncrement_iff.mp h
    refine ⟨hincrement, Or.inr ⟨?_, by simpa using Int.lt_of_le_sub_one hle, hdvd⟩⟩
    cases smallestUnit <;> simp_all [TemporalUnit.maximumRoundingIncrement, TemporalUnit.isDate,
      TemporalUnit.rank]

variable {unit : TemporalUnit} {mode : RoundingMode}

/-- An increment of a unit of whole seconds. -/
theorem roundTimeDuration_seconds {s : Int} (hrank : unit.rank ≤ TemporalUnit.second.rank)
    (hlength : unit.nanoseconds = some (s * 1000000000))
    (hstep : 0 < increment * s ∧ increment * s ≤ 86400000000000) :
    roundTimeDuration t increment unit mode = roundTimeDurationSeconds t (increment * s) mode := by
  have hs : (s * 1000000000).tdiv nanosecondsPerSecond = s :=
    Int.mul_tdiv_cancel s (by decide)
  unfold roundTimeDuration
  rw [if_pos hrank, hlength, bind_eq_bind, bind_some, hs, i64_eq (by omega)]

/-- An increment of a unit below the second that divides it. -/
theorem roundTimeDuration_subsecond {length : Int} (hrank : ¬ unit.rank ≤ TemporalUnit.second.rank)
    (hlength : unit.nanoseconds = some length) (hstep : 0 < increment * length)
    (hdvd : increment * length ∣ 1000000000) :
    roundTimeDuration t increment unit mode =
      roundTimeDurationSubsecond t (increment * length) mode := by
  have hle := Int.le_of_dvd (by decide) hdvd
  have htmod : nanosecondsPerSecond.tmod (increment * length) = 0 :=
    Int.dvd_iff_tmod_eq_zero.mp hdvd
  unfold roundTimeDuration
  rw [if_neg hrank, hlength, bind_eq_bind, bind_some]
  dsimp only
  rw [i64_eq (by omega), if_neg (not_not.mpr htmod)]

/-- Within the checks of its caller, rounding a duration is rounding its exact quotient. -/
theorem roundTimeDuration_eq (hnormal : t.Normal) (hrange : t.isInRange = true)
    (h : validateDurationRounding smallestUnit largestUnit increment = some ())
    (mode : RoundingMode) :
    ∃ length, smallestUnit.nanoseconds = some length ∧ 0 < increment * length ∧
      roundTimeDuration t increment smallestUnit mode =
        (ofTotal (mode.round ((t.total : ℚ) / (increment * length : Int)) *
          (increment * length))).checked := by
  obtain ⟨hincrement, hunit⟩ := validateDurationRounding_cases h
  generalize htotal : t.total = n
  rw [hnormal.eq_ofTotal, htotal] at hrange ⊢
  have hseconds : ∀ s, smallestUnit.nanoseconds = some (s * 1000000000) →
      smallestUnit.rank ≤ TemporalUnit.second.rank → 0 < s → s ≤ 86400 →
        ∃ length, smallestUnit.nanoseconds = some length ∧ 0 < increment * length ∧
          roundTimeDuration (ofTotal n) increment smallestUnit mode =
            (ofTotal (mode.round ((n : ℚ) / (increment * length : Int)) *
              (increment * length))).checked := by
    intro s hlength hrank hs hbound
    have hpos : 0 < increment * s := Int.mul_pos (by omega) hs
    have hle : increment * s ≤ 1000000000 * 86400 :=
      Int.mul_le_mul hincrement.2 hbound hs.le (by decide)
    refine ⟨s * 1000000000, hlength, by rw [← mul_assoc]; omega, ?_⟩
    rw [roundTimeDuration_seconds hrank hlength ⟨hpos, by omega⟩,
      roundTimeDurationSeconds_eq hrange hpos (by omega) mode, mul_assoc]
  have hsubsecond : ∀ length, smallestUnit.nanoseconds = some length →
      ¬ smallestUnit.rank ≤ TemporalUnit.second.rank → 0 < length →
        increment * length ∣ 1000000000 →
          ∃ length, smallestUnit.nanoseconds = some length ∧ 0 < increment * length ∧
            roundTimeDuration (ofTotal n) increment smallestUnit mode =
              (ofTotal (mode.round ((n : ℚ) / (increment * length : Int)) *
                (increment * length))).checked := by
    intro length hlength hrank hpos hdvd
    have hpos : 0 < increment * length := Int.mul_pos (by omega) hpos
    refine ⟨length, hlength, hpos, ?_⟩
    rw [roundTimeDuration_subsecond hrank hlength hpos hdvd,
      roundTimeDurationSubsecond_eq hrange hpos hdvd mode]
  rcases hunit with rfl | ⟨hdate, hmaximum, hdvd⟩
  · exact hseconds 86400 rfl (by decide) (by decide) (by decide)
  · cases smallestUnit with
    | year | month | week | day => cases hdate
    | hour => exact hseconds 3600 rfl (by decide) (by decide) (by decide)
    | minute => exact hseconds 60 rfl (by decide) (by decide) (by decide)
    | second => exact hseconds 1 rfl (by decide) (by decide) (by decide)
    | millisecond =>
      exact hsubsecond 1000000 rfl (by decide) (by decide)
        (mul_dvd_mul_right hdvd 1000000)
    | microsecond =>
      exact hsubsecond 1000 rfl (by decide) (by decide)
        ((mul_dvd_mul_right hdvd 1000).trans ⟨1000, rfl⟩)
    | nanosecond =>
      exact hsubsecond 1 rfl (by decide) (by decide)
        ((mul_dvd_mul_right hdvd 1).trans ⟨1000000, rfl⟩)

end Units

section Instants

variable {instant : Instant} {step : Int}

theorem dayParts_total (hnano : (instant.nanoseconds : Int) < nanosecondsPerSecond) :
    (dayParts instant.seconds instant.nanoseconds).1 = instant.total / 86400000000000 ∧
      (dayParts instant.seconds instant.nanoseconds).2 = instant.total % 86400000000000 := by
  unfold dayParts Instant.total
  dsimp only
  rw [floorMod_eq_emod _ (by decide)]
  unfold secondsPerDay
  unfold nanosecondsPerSecond at *
  omega

/-- A reading of a day of the range, the midnight that ends it with it, names an instant. -/
theorem epochFromLocal_eq {days timeOfDay : Int} (hdays : -100000000 ≤ days ∧ days < 100000000)
    (htime : 0 ≤ timeOfDay ∧ timeOfDay ≤ 86400000000000) :
    ∃ instant, epochFromLocal days timeOfDay 0 = some instant ∧ instant.isValid = true ∧
      instant.total = days * 86400000000000 + timeOfDay := by
  have hcases := tdiv_tmod_cases timeOfDay
  have hcast : ((timeOfDay.tmod nanosecondsPerSecond).toNat : Int) =
      timeOfDay.tmod nanosecondsPerSecond := Int.toNat_of_nonneg (by omega)
  have hvalid : Instant.isValid ⟨days * secondsPerDay + timeOfDay.tdiv nanosecondsPerSecond,
      (timeOfDay.tmod nanosecondsPerSecond).toNat⟩ = true := by
    apply isValidInstant_iff.mpr
    dsimp only
    rw [hcast]
    unfold maxEpochSeconds secondsPerDay
    unfold nanosecondsPerSecond at *
    omega
  refine ⟨_, ?_, hvalid, ?_⟩
  · have heq := tryInstant_eq hvalid
    dsimp only at heq
    rw [hcast] at heq
    unfold epochFromLocal
    rw [Int.sub_zero]
    exact heq
  · unfold Instant.total
    dsimp only
    rw [hcast]
    unfold secondsPerDay
    unfold nanosecondsPerSecond at *
    omega

/-- Rounding an instant is rounding its count of steps as if it were positive. -/
theorem roundInstant_eq (hvalid : instant.isValid = true) (hstep : 0 < step)
    (hdvd : step ∣ nanosecondsPerDay) (mode : RoundingMode) :
    ∃ rounded, roundInstant instant step mode = some rounded ∧ rounded.isValid = true ∧
      rounded.total = mode.asIfPositive.round ((instant.total : ℚ) / step) * step := by
  obtain ⟨hnano, hseconds, hlast⟩ := isValidInstant_iff.mp hvalid
  obtain ⟨hdays, htime⟩ := dayParts_total hnano.2
  unfold roundInstant
  dsimp only
  rw [hdays, htime]
  have htotal : -8640000000000000000000 ≤ instant.total ∧
      instant.total ≤ 8640000000000000000000 := by
    unfold Instant.total
    unfold maxEpochSeconds at *
    unfold nanosecondsPerSecond at *
    omega
  unfold nanosecondsPerDay at hdvd ⊢
  generalize hn : instant.total = n at *
  have hbound := Int.le_of_dvd (by decide) hdvd
  have hday : 0 ≤ n % 86400000000000 := by omega
  have hquotient := Int.ediv_nonneg hday hstep.le
  have hsteps := Int.ediv_nonneg (a := 86400000000000) (by decide) hstep.le
  obtain ⟨hwhole, hrest⟩ := split_quotient (n := n) hstep hdvd
  have hrestLo := Int.emod_nonneg n hstep.ne'
  have hrestHi := Int.emod_lt_of_pos n hstep
  have hquotientLe : n % 86400000000000 / step ≤ n % 86400000000000 :=
    Int.ediv_le_self step hday
  have hquotientMul := Int.ediv_mul_add_emod (n % 86400000000000) step
  rw [hrest] at hquotientMul
  rw [tdiv_of_nonneg hday, Int.tmod_eq_emod_of_nonneg hday, tdiv_of_nonneg (by decide),
    floorMod_eq_emod _ (by decide), Int.tmod_eq_emod_of_nonneg hsteps, hrest]
  by_cases hzero : n % step = 0
  · rw [if_pos hzero]
    refine ⟨instant, rfl, hvalid, ?_⟩
    rw [hn, round_multiple _ hstep (Int.ediv_mul_cancel (Int.dvd_of_emod_eq_zero hzero)).symm]
  · rw [if_neg hzero]
    have hdistance : i64 (step - n % step) = step - n % step := i64_eq (by omega)
    have hnext : i64 (n % 86400000000000 / step + 1) = n % 86400000000000 / step + 1 :=
      i64_eq (by omega)
    rw [odd_split hwhole ⟨hquotient, by omega⟩, hdistance, hnext]
    have hround := roundsAway_eq mode (between_emod hstep hzero) compareI64_pos
      compareI64_eq_zero decide_eq_true_iff
    rw [← hround]
    generalize roundsAway (unsignedRoundingMode mode false)
      (compareI64 (n % step) (step - n % step)) (decide (n / step % 2 = 1)) = up
    -- the multiple above may be the midnight that ends the day, but not one after it
    have hlast : (n % 86400000000000 / step + 1) * step ≤ 86400000000000 := by
      obtain ⟨k, hk⟩ := hdvd
      rw [hk, mul_comm step k]
      apply Int.mul_le_mul_of_nonneg_right _ hstep.le
      apply Int.add_one_le_of_lt
      apply Int.ediv_lt_of_lt_mul hstep
      rw [mul_comm, ← hk]
      omega
    have hmul : (n % 86400000000000 / step + 1) * step =
        n % 86400000000000 / step * step + step := by ring
    have hmulNonneg := Int.mul_nonneg hquotient hstep.le
    generalize hrounded : (if up = true then n % 86400000000000 / step + 1
      else n % 86400000000000 / step) = rounded
    have hrange : 0 ≤ rounded * step ∧ rounded * step ≤ 86400000000000 := by
      split_ifs at hrounded <;> rw [← hrounded] <;> omega
    have hsplit : (if up = true then n / step + 1 else n / step) =
        n / 86400000000000 * (86400000000000 / step) + rounded := by
      split_ifs at hrounded ⊢ <;> omega
    have htop : n % 86400000000000 ≠ 0 := by
      intro hmidnight
      rw [← hrest, hmidnight, Int.zero_emod] at hzero
      exact hzero rfl
    have hdaysRange : -100000000 ≤ n / 86400000000000 ∧ n / 86400000000000 < 100000000 := by
      omega
    obtain ⟨result, hresult, hresultValid, hresultTotal⟩ := epochFromLocal_eq hdaysRange hrange
    refine ⟨result, ?_, hresultValid, ?_⟩
    · rw [i64_eq (by omega)]
      exact hresult
    · have hdayMul := Int.ediv_mul_cancel hdvd
      rw [hresultTotal, hsplit]
      calc n / 86400000000000 * 86400000000000 + rounded * step
          = n / 86400000000000 * (86400000000000 / step * step) + rounded * step := by
            rw [hdayMul]
        _ = _ := by ring

end Instants

section TimesOfDay

variable {unit : TemporalUnit} {increment timeOfDay : Int}

theorem validateTimeOrDayRounding_cases
    (h : validateTimeOrDayRounding unit increment = some ()) :
    (unit = .day ∧ increment = 1) ∨
      unit.isDate = false ∧ (1 ≤ increment ∧ increment < unit.maximumRoundingIncrement) ∧
        increment ∣ unit.maximumRoundingIncrement := by
  unfold validateTimeOrDayRounding at h
  by_cases hday : unit = .day
  · rw [if_pos hday] at h
    obtain ⟨hincrement, hle, -⟩ := validateRoundingIncrement_iff.mp h
    rw [if_pos rfl] at hle
    exact Or.inl ⟨hday, by omega⟩
  · rw [if_neg hday] at h
    obtain ⟨hdate, h⟩ := ite_none_left_eq_some.mp h
    obtain ⟨hincrement, hle, hdvd⟩ := validateRoundingIncrement_iff.mp h
    rw [if_neg Bool.false_ne_true] at hle
    exact Or.inr ⟨Bool.not_eq_true _ ▸ hdate, by omega, hdvd⟩

/-- A unit a clock reading is rounded to has a length, and its maximum of them are the next
larger unit. -/
theorem exists_parent (hdate : unit.isDate = false) :
    ∃ length, unit.nanoseconds = some length ∧ 0 < length ∧
      unit.parent.nanoseconds = some (length * unit.maximumRoundingIncrement) ∧
        length * unit.maximumRoundingIncrement ∣ 86400000000000 := by
  cases unit with
  | year | month | week | day => cases hdate
  | hour => exact ⟨3600000000000, rfl, by decide, rfl, 1, rfl⟩
  | minute => exact ⟨60000000000, rfl, by decide, rfl, 24, rfl⟩
  | second => exact ⟨1000000000, rfl, by decide, rfl, 1440, rfl⟩
  | millisecond => exact ⟨1000000, rfl, by decide, rfl, 86400, rfl⟩
  | microsecond => exact ⟨1000, rfl, by decide, rfl, 86400000, rfl⟩
  | nanosecond => exact ⟨1, rfl, by decide, rfl, 86400000000, rfl⟩

section

variable (h : validateTimeOrDayRounding unit increment = some ())
include h

/-- What the rounding of a time of day works with, once its caller has checked the unit and the
increment. -/
theorem exists_steps :
    ∃ length parent, unit.nanoseconds = some length ∧ unit.parent.nanoseconds = some parent ∧
      (if unit = .day then nanosecondsPerDay
        else i64 (length * unit.maximumRoundingIncrement)) = parent ∧
        (0 < parent ∧ parent ≤ 86400000000000) ∧ 0 < increment * length ∧
          increment * length ∣ parent := by
  rcases validateTimeOrDayRounding_cases h with ⟨rfl, rfl⟩ | ⟨hdate, hincrement, hdvd⟩
  · exact ⟨_, _, rfl, rfl, if_pos rfl, by decide, by decide, dvd_rfl⟩
  · obtain ⟨length, hlength, hpos, hparent, hday⟩ := exists_parent hdate
    have hbound := Int.le_of_dvd (by decide) hday
    have hparentPos : 0 < length * unit.maximumRoundingIncrement :=
      Int.mul_pos hpos (by omega)
    refine ⟨length, _, hlength, hparent, ?_, ⟨hparentPos, hbound⟩, Int.mul_pos (by omega) hpos, ?_⟩
    · rw [if_neg, i64_eq (by omega)]
      rintro rfl
      cases hdate
    · rw [mul_comm length]
      exact mul_dvd_mul_right hdvd length

/-- Rounding a time of day is rounding the exact quotient of its part within the parent unit. -/
theorem roundTime_eq (htime : 0 ≤ timeOfDay ∧ timeOfDay < nanosecondsPerDay) (mode : RoundingMode) :
    ∃ length parent carry rounded, unit.nanoseconds = some length ∧
      unit.parent.nanoseconds = some parent ∧ 0 < increment * length ∧
        roundTime timeOfDay increment unit mode = some (carry, rounded) ∧
          (0 ≤ rounded ∧ rounded < nanosecondsPerDay) ∧
            carry * nanosecondsPerDay + rounded = timeOfDay - timeOfDay % parent +
              mode.round ((timeOfDay % parent : Int) / (increment * length : Int)) *
                (increment * length) := by
  obtain ⟨length, parent, hlength, hparent, hdefined, hrange, hstep, hdvd⟩ := exists_steps h
  refine ⟨length, parent, ?_⟩
  unfold roundTime
  rw [hlength, bind_eq_bind, bind_some, hdefined]
  dsimp only
  have hle := Int.le_of_dvd hrange.1 hdvd
  rw [i64_eq (x := increment * length) (by omega)]
  generalize increment * length = step at *
  rw [Int.tmod_eq_emod_of_nonneg htime.1]
  have hquantity := Int.emod_nonneg timeOfDay hrange.1.ne'
  have hquantityLt := Int.emod_lt_of_pos timeOfDay hrange.1
  have hquantityLe : timeOfDay % parent ≤ timeOfDay := by
    have hmul := Int.mul_nonneg (Int.ediv_nonneg htime.1 hrange.1.le) hrange.1.le
    have hdiv := Int.ediv_mul_add_emod timeOfDay parent
    omega
  generalize timeOfDay % parent = quantity at *
  have hquotient := Int.ediv_nonneg hquantity hstep.le
  have hquotientLe : quantity / step ≤ quantity := Int.ediv_le_self step hquantity
  have hquotientMul := Int.ediv_mul_le quantity hstep.ne'
  have hmulNonneg := Int.mul_nonneg hquotient hstep.le
  have hmul : (quantity / step + 1) * step = quantity / step * step + step := by ring
  rw [tdiv_of_nonneg hquantity, Int.tmod_eq_emod_of_nonneg hquantity,
    Int.tmod_eq_emod_of_nonneg hquotient]
  have hrestLo := Int.emod_nonneg quantity hstep.ne'
  have hrestHi := Int.emod_lt_of_pos quantity hstep
  have hdistance : i64 (step - quantity % step) = step - quantity % step := i64_eq (by
    unfold nanosecondsPerDay at htime
    omega)
  have hnext : i64 (quantity / step + 1) = quantity / step + 1 := i64_eq (by
    unfold nanosecondsPerDay at htime
    omega)
  rw [hdistance, hnext]
  generalize hup : roundsAway (unsignedRoundingMode mode false)
    (compareI64 (quantity % step) (step - quantity % step)) (decide (quantity / step % 2 = 1)) = up
  generalize hrounded : (if quantity % step ≠ 0 then
    if up = true then i64 ((quantity / step + 1) * step) else i64 (quantity / step * step)
      else quantity) = rounded
  have hpick : rounded = mode.round ((quantity : ℚ) / step) * step := by
    by_cases hzero : quantity % step = 0
    · rw [if_neg (not_not.mpr hzero)] at hrounded
      rw [round_multiple mode hstep (Int.ediv_mul_cancel (Int.dvd_of_emod_eq_zero hzero)).symm,
        hrounded]
    · rw [if_pos hzero] at hrounded
      have hround := roundsAway_signed mode (between_emod hstep hzero) hquotient false
        compareI64_pos compareI64_eq_zero decide_eq_true_iff rfl
      rw [hup, if_neg Bool.false_ne_true, if_neg Bool.false_ne_true] at hround
      rw [← hround, ← hrounded]
      unfold nanosecondsPerDay at htime
      split_ifs <;> exact i64_eq (by omega)
  have hroundedRange : 0 ≤ rounded ∧ rounded ≤ 200000000000000 := by
    unfold nanosecondsPerDay at htime
    rw [← hrounded]
    split_ifs
    · rw [i64_eq (by omega)]
      omega
    · rw [i64_eq (by omega)]
      omega
    · omega
  refine ⟨_, _, rfl, hparent, hstep, rfl, ?_, ?_⟩
  · rw [floorMod_eq_emod _ (by decide)]
    exact ⟨Int.emod_nonneg _ (by decide), Int.emod_lt_of_pos _ (by decide)⟩
  · unfold nanosecondsPerDay at htime
    rw [floorMod_eq_emod _ (by decide), Int.ediv_mul_add_emod, i64_eq (x := timeOfDay - quantity)
      (by omega), i64_eq (by omega), hpick]

end

/-- A time of day moved by a duration: the days it carries and the time of day it reaches. -/
theorem addTime_eq (hnormal : t.Normal) (hrange : t.isInRange = true)
    (htime : 0 ≤ timeOfDay ∧ timeOfDay < nanosecondsPerDay) :
    (0 ≤ (addTime timeOfDay t).2 ∧ (addTime timeOfDay t).2 < nanosecondsPerDay) ∧
      (addTime timeOfDay t).1 * nanosecondsPerDay + (addTime timeOfDay t).2 =
        timeOfDay + t.total := by
  have hbelow := hnormal.below
  have hcases := tdiv_tmod_cases timeOfDay
  unfold isInRange timeDurationSecondsLimit at hrange
  rw [decide_eq_true_eq] at hrange
  unfold addTime total
  dsimp only
  unfold nanosecondsPerDay secondsPerDay at *
  unfold nanosecondsPerSecond at *
  rw [i64_eq (x := timeOfDay.tmod 1000000000 + t.nanoseconds) (by omega),
    i64_eq (x := timeOfDay.tdiv 1000000000 + t.seconds) (by omega),
    floorMod_eq_emod _ (by decide), floorMod_eq_emod _ (by decide)]
  generalize hseconds : timeOfDay.tdiv 1000000000 + t.seconds +
    (timeOfDay.tmod 1000000000 + t.nanoseconds) / 1000000000 = seconds
  rw [i64_eq (x := seconds) (by omega), i64_eq (x := seconds % 86400 * 1000000000) (by omega),
    i64_eq (by omega)]
  omega

end TimesOfDay

/-- What the rounding to `n` nanoseconds answers: their duration, or a trap where they reach
2^53 seconds. -/
def Answers (n : Int) : Option TimeDuration → Prop
  | some t => t.Normal ∧ t.isInRange = true ∧ t.total = n
  | none => timeDurationSecondsLimit * nanosecondsPerSecond ≤ |n|

theorem checked_answers (n : Int) : Answers n (ofTotal n).checked := by
  rw [checked_ofTotal]
  by_cases h : -9007199254740992000000000 < n ∧ n < 9007199254740992000000000
  · rw [if_pos h]
    exact ⟨ofTotal_normal n, isInRange_ofTotal.mpr h, total_ofTotal n⟩
  · rw [if_neg h]
    unfold Answers timeDurationSecondsLimit nanosecondsPerSecond
    rw [le_abs]
    omega

/-- The rounding of durations, instants and times of day is that of the exact quotients, an
instant's as if it were positive, and sums of durations and times of day keep the exact total. -/
theorem rounding_exact :
    (∀ (t : TimeDuration) (smallestUnit largestUnit : TemporalUnit) (increment : Int)
      (mode : RoundingMode), t.Normal → t.isInRange = true →
        validateDurationRounding smallestUnit largestUnit increment = some () →
          ∃ length, smallestUnit.nanoseconds = some length ∧ 0 < increment * length ∧
            Answers (mode.round ((t.total : ℚ) / (increment * length : Int)) * (increment * length))
              (roundTimeDuration t increment smallestUnit mode)) ∧
    (∀ (instant : Instant) (step : Int) (mode : RoundingMode), instant.isValid = true →
      0 < step → step ∣ nanosecondsPerDay →
        ∃ rounded, roundInstant instant step mode = some rounded ∧ rounded.isValid = true ∧
          rounded.total = mode.asIfPositive.round ((instant.total : ℚ) / step) * step) ∧
    (∀ (timeOfDay increment : Int) (unit : TemporalUnit) (mode : RoundingMode),
      0 ≤ timeOfDay ∧ timeOfDay < nanosecondsPerDay →
        validateTimeOrDayRounding unit increment = some () →
          ∃ length parent carry rounded, unit.nanoseconds = some length ∧
            unit.parent.nanoseconds = some parent ∧ 0 < increment * length ∧
              roundTime timeOfDay increment unit mode = some (carry, rounded) ∧
                (0 ≤ rounded ∧ rounded < nanosecondsPerDay) ∧
                  carry * nanosecondsPerDay + rounded = timeOfDay - timeOfDay % parent +
                    mode.round ((timeOfDay % parent : Int) / (increment * length : Int)) *
                      (increment * length)) ∧
    (∀ seconds nanoseconds : Int, -2 ^ 63 ≤ seconds + nanoseconds.tdiv nanosecondsPerSecond ∧
        seconds + nanoseconds.tdiv nanosecondsPerSecond < 2 ^ 63 →
          (timeDuration seconds nanoseconds).Normal ∧ (timeDuration seconds nanoseconds).total =
              seconds * nanosecondsPerSecond + nanoseconds) ∧
    (∀ (timeOfDay : Int) (t : TimeDuration), 0 ≤ timeOfDay ∧ timeOfDay < nanosecondsPerDay →
      t.Normal → t.isInRange = true →
        (0 ≤ (addTime timeOfDay t).2 ∧ (addTime timeOfDay t).2 < nanosecondsPerDay) ∧
          (addTime timeOfDay t).1 * nanosecondsPerDay + (addTime timeOfDay t).2 =
            timeOfDay + t.total) := by
  refine ⟨?_, ?_, ?_, ?_, ?_⟩
  · intro t smallestUnit largestUnit increment mode hnormal hrange hvalid
    obtain ⟨length, hlength, hstep, heq⟩ := roundTimeDuration_eq hnormal hrange hvalid mode
    refine ⟨length, hlength, hstep, ?_⟩
    rw [heq]
    exact checked_answers _
  · intro instant step mode hvalid hstep hdvd
    exact roundInstant_eq hvalid hstep hdvd mode
  · intro timeOfDay increment unit mode htime hvalid
    exact roundTime_eq hvalid htime mode
  · intro seconds nanoseconds hfits
    rw [timeDuration_eq (by omega)]
    exact ⟨ofTotal_normal _, total_ofTotal _⟩
  · intro timeOfDay t htime hnormal hrange
    exact addTime_eq hnormal hrange htime

/-- A minute and a half, rounded to even minutes. -/
theorem rounding_exact_minute :
    ∃ length, TemporalUnit.minute.nanoseconds = some length ∧ 0 < 1 * length ∧
      Answers (RoundingMode.halfEven.round
        ((TimeDuration.total ⟨90, 0⟩ : ℚ) / (1 * length : Int)) * (1 * length))
          (roundTimeDuration ⟨90, 0⟩ 1 .minute .halfEven) :=
  rounding_exact.1 ⟨90, 0⟩ .minute .hour 1 .halfEven ⟨by decide, by decide, by decide⟩
    (by decide) (by decide)

/-- A nanosecond before the epoch, truncated to microseconds, moves into the past, and the last
second of the range does not round up to a minute. -/
theorem roundInstant_trunc_past : roundInstant ⟨-1, 999999999⟩ 1000 .trunc = some ⟨-1, 999999000⟩ ∧
      Instant.total ⟨-1, 999999000⟩ ≠
        RoundingMode.trunc.round ((Instant.total ⟨-1, 999999999⟩ : ℚ) / 1000) * 1000 ∧
        roundTimeDuration ⟨9007199254740991, 0⟩ 1 .minute .expand = none := by
  refine ⟨?_, ?_, ?_⟩
  · decide +kernel
  · norm_num [RoundingMode.round, Instant.total, nanosecondsPerSecond]
  · decide +kernel

end Wado.Temporal
