/-
Every valid moment, date and time reads back from its text.
-/
import Mathlib.Data.List.Basic
import Wado.Temporal.IsoReads
import Wado.Temporal.Values

namespace Wado.Temporal

open ExceptSteps List Option

variable {days timeOfDay : Int} {minutes : Int}

section Productions

variable {text rest : Text} {i : Nat} {p : ParsedIso}

theorem parseAnnotations_nil (h : At text i []) : parseAnnotations text i p = .ok p := by
  obtain ⟨hbyte, hend⟩ := h.stop
  unfold parseAnnotations annotations
  rw [hbyte, if_pos (by decide), if_neg (by simpa using hend)]

theorem afterClock_zero : AfterClock (([] : Text).headD 0) := by
  unfold AfterClock
  decide

/-- A time starts with a digit. -/
theorem formatTimeOfDay_head {timeOfDay : Int} (hlo : 0 ≤ timeOfDay)
    (hhi : timeOfDay < nanosecondsPerDay) :
    isAsciiDigit ((formatTimeOfDay timeOfDay (-1) ++ rest).headD 0) = true := by
  unfold nanosecondsPerDay at hhi
  unfold formatTimeOfDay nanosecondsPerSecond
  dsimp only
  have hseconds : 0 ≤ timeOfDay / 1000000000 := by omega
  rw [tdiv_of_nonneg hlo, tdiv_of_nonneg hseconds]
  obtain ⟨hour, hhour⟩ :=
    Int.eq_ofNat_of_zero_le (show 0 ≤ timeOfDay / 1000000000 / 3600 by omega)
  rw [hhour, zeroPad_eq (by omega), fixedDigits_two]
  exact digit_isDigit (Nat.mod_lt _ (by decide))

/-- What a date and time read as. -/
def readDateTime (days timeOfDay : Int) : ParsedIso :=
  { year := (isoDateFromEpochDays days).year
    month := (isoDateFromEpochDays days).month
    day := (isoDateFromEpochDays days).day
    timeOfDay
    hasTime := true }

/-- A date and time are read up to the offset. -/
theorem parseDateTimePrefix_eq (allowZ requireTime requireOffset : Bool)
    (hdays : -100000002 ≤ days ∧ days ≤ 100000002) (hlo : 0 ≤ timeOfDay)
    (hhi : timeOfDay < nanosecondsPerDay) (hrest : AfterClock (rest.headD 0))
    (h : At text 0 (formatDateTime days timeOfDay (-1) ++ rest)) :
    ∃ j, At text j rest ∧ ∀ k q,
      parseOffsetPart text j (readDateTime days timeOfDay) allowZ = .ok (k, q) →
        q.hasTime = true → (requireOffset = true → q.utcDesignator = true ∨ q.offset ≠ none) →
          parseDateTimePrefix text {} allowZ requireTime requireOffset = .ok (k, q) := by
  unfold formatDateTime at h
  rw [append_assoc, cons_append] at h
  obtain ⟨i, hdate, hat⟩ := parseDate_eq (p := {}) (year_range hdays)
    (isoDateFromEpochDays_isValid days) h
  obtain ⟨j, htime, hend⟩ := parseTime_eq hlo hhi hrest hat.next
  refine ⟨j, hend, ?_⟩
  intro k q hoffset hq hrequire
  unfold parseDateTimePrefix
  rw [bind_of_eq_ok hdate]
  dsimp only
  rw [if_pos ⟨.inl hat.head, by rw [hat.next.headD]; exact formatTimeOfDay_head hlo hhi⟩,
    bind_of_eq_ok htime]
  dsimp only
  unfold readDateTime at hoffset
  rw [bind_of_eq_ok hoffset]
  dsimp only
  rw [if_neg (by rw [hq]; simp), if_neg]
  · rfl
  · rintro ⟨hrequired, hutc, hnone⟩
    rcases hrequire hrequired with hz | hsome
    · exact hutc hz
    · exact hsome hnone

variable {allowZ : Bool}

theorem parseOffsetPart_none (h : At text i []) :
    parseOffsetPart text i p allowZ = .ok (i, p) := by
  unfold parseOffsetPart
  rw [h.stop.1]
  rfl

theorem parseOffsetPart_utc (h : At text i (byte 'Z' :: rest)) :
    parseOffsetPart text i p true = .ok (i + 1, { p with utcDesignator := true }) := by
  unfold parseOffsetPart
  rw [h.head]
  rfl

theorem parseOffsetPart_offset (hrange : minutes.natAbs < 1440)
    (hrest : rest.headD 0 ≠ byte ':') (h : At text i (formatOffsetIdentifier minutes ++ rest)) :
    parseOffsetPart text i p allowZ =
      .ok (i + 6, { p with offset := some (minutes * 60000000000), offsetHasSeconds :=
        false }) := by
  obtain ⟨hread, _⟩ := parseUtcOffset_eq true hrange hrest h
  have hsign : byteAt text i = byte '-' ∨ byteAt text i = byte '+' := by
    unfold formatOffsetIdentifier at h
    dsimp only at h
    rw [cons_append, cons_append] at h
    rw [h.head]
    split_ifs
    · exact .inl rfl
    · exact .inr rfl
  unfold parseOffsetPart
  dsimp only
  rw [if_neg (by rcases hsign with hs | hs <;> rw [hs] <;> decide), if_pos hsign.symm,
    bind_of_eq_ok hread]
  rfl

theorem requireIsoCalendar_none (h : p.calendar = none) : requireIsoCalendar p = .ok () := by
  unfold requireIsoCalendar
  rw [h]

end Productions

variable {p : ParsedIso}

section Instants

variable {nanoseconds : Nat}

theorem dayParts_range (seconds : Int) (h : nanoseconds < 1000000000) :
    0 ≤ (dayParts seconds nanoseconds).2 ∧
      (dayParts seconds nanoseconds).2 < nanosecondsPerDay := by
  unfold dayParts
  dsimp only
  rw [floorMod_eq_emod _ (by decide)]
  unfold secondsPerDay nanosecondsPerSecond nanosecondsPerDay
  omega

theorem dayParts_eq (seconds : Int) (h : nanoseconds < 1000000000) :
    (dayParts seconds nanoseconds).1 * secondsPerDay +
        (dayParts seconds nanoseconds).2.tdiv nanosecondsPerSecond = seconds ∧
      (dayParts seconds nanoseconds).2.tmod nanosecondsPerSecond = nanoseconds := by
  have hlo := (dayParts_range seconds h).1
  rw [tdiv_of_nonneg hlo, Int.tmod_eq_emod_of_nonneg hlo]
  unfold dayParts
  dsimp only
  rw [floorMod_eq_emod _ (by decide)]
  unfold secondsPerDay nanosecondsPerSecond
  omega

theorem isValidInstant_iff {seconds nanoseconds : Int} : isValidInstant seconds nanoseconds = true ↔
      (0 ≤ nanoseconds ∧ nanoseconds < nanosecondsPerSecond) ∧
        (-maxEpochSeconds ≤ seconds ∧ seconds ≤ maxEpochSeconds) ∧
          (seconds < maxEpochSeconds ∨ nanoseconds = 0) := by
  unfold isValidInstant
  split_ifs with hnano hseconds
  · constructor
    · intro h
      cases h
    · intro h
      omega
  · constructor
    · intro h
      cases h
    · intro h
      omega
  · rw [decide_eq_true_eq]
    constructor
    · intro h
      exact ⟨by omega, by omega, h⟩
    · exact fun h => h.2.2

variable {instant : Instant}

theorem tryInstant_eq (h : instant.isValid = true) :
    tryInstant instant.seconds instant.nanoseconds = some instant := by
  obtain ⟨hnano, hseconds, _⟩ := isValidInstant_iff.mp h
  unfold Instant.isValid at h
  unfold nanosecondsPerSecond at hnano
  unfold maxEpochSeconds at hseconds
  unfold tryInstant maxEpochSeconds
  rw [if_neg (by omega)]
  dsimp only
  have hdiv : (instant.nanoseconds : Int) / nanosecondsPerSecond = 0 :=
    Int.ediv_eq_zero_of_lt hnano.1 hnano.2
  have hmod : floorMod instant.nanoseconds nanosecondsPerSecond = instant.nanoseconds := by
    rw [floorMod_eq_emod _ (by decide)]
    exact Int.emod_eq_of_lt hnano.1 hnano.2
  rw [hdiv, hmod, Int.add_zero, if_neg (by rw [h]; simp), Int.toNat_natCast]

variable {seconds : Int}

/-- The days of an instant, and those a zone is away from them. -/
theorem dayParts_days (h : -8640000086400 ≤ seconds ∧ seconds ≤ 8640000086400) (nanoseconds : Nat) :
    -100000002 ≤ (dayParts seconds nanoseconds).1 ∧
      (dayParts seconds nanoseconds).1 ≤ 100000002 := by
  unfold dayParts secondsPerDay
  dsimp only
  omega

theorem Instant.reads (h : instant.isValid = true) :
    ∃ text, instant.toIso8601 = some text ∧ Instant.fromStr text = .ok instant := by
  obtain ⟨hnano, hseconds, _⟩ := isValidInstant_iff.mp h
  unfold nanosecondsPerSecond at hnano
  unfold maxEpochSeconds at hseconds
  have hlt : instant.nanoseconds < 1000000000 := by omega
  refine ⟨formatInstant instant (-1), ?_, ?_⟩
  · unfold Instant.toIso8601 Instant.checked
    rw [if_pos h]
    rfl
  · obtain ⟨hlo, hhi⟩ := dayParts_range instant.seconds hlt
    obtain ⟨hback, hsub⟩ := dayParts_eq instant.seconds hlt
    obtain ⟨j, hat, hread⟩ := parseDateTimePrefix_eq true true true
      (dayParts_days (by omega) instant.nanoseconds) hlo hhi (by unfold AfterClock; decide)
      (show At (formatInstant instant (-1)) 0 (formatDateTime _ _ (-1) ++ [byte 'Z']) from
        at_zero _)
    have hparse := hread _ _ (parseOffsetPart_utc hat) rfl (fun _ => .inl rfl)
    unfold Instant.fromStr parseInstantString
    rw [bind_of_eq_ok hparse]
    dsimp only
    rw [bind_of_eq_ok (parseAnnotations_nil hat.next)]
    unfold readDateTime
    dsimp only
    rw [epochDaysOf_isoDateFromEpochDays, if_pos rfl, Int.zero_tdiv, Int.zero_tmod, Int.sub_zero,
      Int.sub_zero, hback, hsub, tryInstant_eq h]
    rfl

theorem zeroPad_two {n : Nat} (h : n < 100) : zeroPad 2 n = [digit (n / 10), digit (n % 10)] := by
  rw [zeroPad_eq (by omega), fixedDigits_two, Nat.mod_eq_of_lt (by omega)]

theorem formatOffsetIdentifier_eq (h : minutes.natAbs < 1440) :
    ∃ a b c d : Nat, (a < 10 ∧ b < 10 ∧ c < 10 ∧ d < 10) ∧ formatOffsetIdentifier minutes =
      [if minutes < 0 then byte '-' else byte '+', digit a, digit b, byte ':', digit c,
        digit d] := by
  have hhour : (minutes.natAbs : Int).tdiv 60 = (minutes.natAbs / 60 : Nat) := by
    rw [tdiv_of_nonneg (by omega)]
    rfl
  have hminute : (minutes.natAbs : Int).tmod 60 = (minutes.natAbs % 60 : Nat) := by
    rw [Int.tmod_eq_emod_of_nonneg (by omega)]
    rfl
  refine ⟨minutes.natAbs / 60 / 10, minutes.natAbs / 60 % 10, minutes.natAbs % 60 / 10,
    minutes.natAbs % 60 % 10, by omega, ?_⟩
  unfold formatOffsetIdentifier
  dsimp only
  rw [hhour, hminute, zeroPad_two (by omega), zeroPad_two (by omega)]
  rfl

/-- A stored zone is `UTC` or the identifier of an offset below a day. -/
theorem zoneOffsetSeconds_cases {zone : Text} (h : zoneOffsetSeconds zone = some seconds) :
    (zone = str "UTC" ∧ seconds = 0) ∨ ∃ minutes : Int, minutes.natAbs < 1440 ∧
      seconds = minutes * 60 ∧ zone = formatOffsetIdentifier minutes := by
  unfold zoneOffsetSeconds at h
  split_ifs at h with hutc hshape
  · exact .inl ⟨hutc, (Option.some.inj h).symm⟩
  · obtain ⟨hlength, hcolon⟩ := hshape
    obtain ⟨sign, a, b, colon, c, d, rfl⟩ :
        ∃ sign a b colon c d, zone = [sign, a, b, colon, c, d] := by
      match zone, hlength with
      | [sign, a, b, colon, c, d], _ => exact ⟨sign, a, b, colon, c, d, rfl⟩
    have hsign : byteAt [sign, a, b, colon, c, d] 0 = sign := rfl
    have ha : byteAt [sign, a, b, colon, c, d] 1 = a := rfl
    have hb : byteAt [sign, a, b, colon, c, d] 2 = b := rfl
    have hc : byteAt [sign, a, b, colon, c, d] 4 = c := rfl
    have hd : byteAt [sign, a, b, colon, c, d] 5 = d := rfl
    obtain rfl : colon = byte ':' := hcolon
    dsimp only at h
    rw [hsign, ha, hb, hc, hd] at h
    clear hsign ha hb hc hd
    rw [ite_none_right_eq_some, ite_none_right_eq_some] at h
    obtain ⟨⟨hsign, hall⟩, hcanonical, h⟩ := h
    simp only [all_cons, all_nil, Bool.and_true, Bool.and_eq_true] at hall
    obtain ⟨hdigitA, hdigitB, hdigitC, hdigitD⟩ := hall
    obtain ⟨a, ha, rfl⟩ := exists_digit hdigitA
    obtain ⟨b, hb, rfl⟩ := exists_digit hdigitB
    obtain ⟨c, hc, rfl⟩ := exists_digit hdigitC
    obtain ⟨d, hd, rfl⟩ := exists_digit hdigitD
    rw [digit_value ha, digit_value hb, digit_value hc, digit_value hd] at hcanonical h
    obtain ⟨hhours, hminutes, hzero⟩ := hcanonical
    have hhour : (((a * 10 + b) * 60 + (c * 10 + d) : Nat) : Int).tdiv 60 = (a * 10 + b : Nat) := by
      rw [tdiv_of_nonneg (by omega)]
      omega
    have hminute : (((a * 10 + b) * 60 + (c * 10 + d) : Nat) : Int).tmod 60 =
        (c * 10 + d : Nat) := by
      rw [Int.tmod_eq_emod_of_nonneg (by omega)]
      omega
    have htext : zeroPad 2 (a * 10 + b : Nat) ++ byte ':' :: zeroPad 2 (c * 10 + d : Nat) =
        [digit a, digit b, byte ':', digit c, digit d] := by
      rw [zeroPad_two (by omega), zeroPad_two (by omega)]
      have ha' : (a * 10 + b) / 10 = a := by omega
      have hb' : (a * 10 + b) % 10 = b := by omega
      have hc' : (c * 10 + d) / 10 = c := by omega
      have hd' : (c * 10 + d) % 10 = d := by omega
      rw [ha', hb', hc', hd']
      rfl
    have hformat : ∀ minutes : Int, minutes.natAbs = (a * 10 + b) * 60 + (c * 10 + d) →
          formatOffsetIdentifier minutes = (if minutes < 0 then byte '-' else byte '+') ::
            [digit a, digit b, byte ':', digit c, digit d] := by
      intro minutes habs
      unfold formatOffsetIdentifier
      dsimp only
      rw [habs, hhour, hminute, cons_append, htext]
    right
    rcases hsign with rfl | rfl
    · rw [if_neg (by decide)] at h
      refine ⟨(a * 10 + b : Nat) * 60 + (c * 10 + d : Nat), by omega, ?_, ?_⟩
      · rw [← Option.some.inj h]
        push_cast
        ring
      · rw [hformat _ (by omega), if_neg (by omega)]
    · rw [if_pos rfl] at h
      refine ⟨-((a * 10 + b : Nat) * 60 + (c * 10 + d : Nat)), by omega, ?_, ?_⟩
      · rw [← Option.some.inj h]
        push_cast
        ring
      · rw [hformat _ (by omega), if_pos]
        have hne : ¬ ((a * 10 + b : Int) * 3600 + (c * 10 + d) * 60 = 0) :=
          fun heq => hzero ⟨rfl, by exact_mod_cast heq⟩
        omega

/-- A text that a zone annotation holds and that names itself. -/
structure ZoneText (zone : Text) : Prop where
  noBracket : byte ']' ∉ zone
  noEquals : byte '=' ∉ zone
  notCritical : ∀ rest, (zone ++ byte ']' :: rest).headD 0 ≠ byte '!'
  identifier : isTimeZoneIdentifier zone = true
  canonical : timeZoneIdentifier zone = .ok zone

theorem utc_zoneText : ZoneText (str "UTC") where
  noBracket := by decide
  noEquals := by decide
  notCritical := by
    intro rest
    have hhead : (str "UTC" ++ byte ']' :: rest).headD 0 = byte 'U' := rfl
    rw [hhead]
    decide
  identifier := by decide
  canonical := by decide

theorem offset_zoneText (h : minutes.natAbs < 1440) :
    ZoneText (formatOffsetIdentifier minutes) := by
  have hat : At (formatOffsetIdentifier minutes) 0 (formatOffsetIdentifier minutes ++ []) := by
    rw [append_nil]
    exact at_zero _
  have hread := parseUtcOffset_eq false h (by decide) hat
  obtain ⟨a, b, c, d, ⟨ha, hb, hc, hd⟩, htext⟩ := formatOffsetIdentifier_eq h
  have hsign : byteAt (formatOffsetIdentifier minutes) 0 = byte '+' ∨
      byteAt (formatOffsetIdentifier minutes) 0 = byte '-' := by
    rw [htext]
    show (if minutes < 0 then byte '-' else byte '+') = byte '+' ∨
      (if minutes < 0 then byte '-' else byte '+') = byte '-'
    split_ifs
    · exact .inr rfl
    · exact .inl rfl
  have hlength : (formatOffsetIdentifier minutes).length = 6 := by
    rw [htext]
    rfl
  have hmem : ∀ x ∈ formatOffsetIdentifier minutes,
      x = byte '-' ∨ x = byte '+' ∨ x = byte ':' ∨ isAsciiDigit x = true := by
    rw [htext]
    simp only [forall_mem_cons, not_mem_nil, false_implies, implies_true, and_true,
      digit_isDigit ha, digit_isDigit hb, digit_isDigit hc, digit_isDigit hd, or_true, true_or]
    split_ifs <;> simp
  constructor
  · intro hbracket
    have hcases := hmem _ hbracket
    revert hcases
    decide
  · intro hequals
    have hcases := hmem _ hequals
    revert hcases
    decide
  · intro rest
    rw [htext]
    show (if minutes < 0 then byte '-' else byte '+') ≠ byte '!'
    split_ifs <;> decide
  · unfold isTimeZoneIdentifier
    dsimp only
    rw [if_pos hsign, hread.1]
    exact decide_eq_true hlength.symm
  · unfold timeZoneIdentifier
    dsimp only
    rw [if_pos hsign, bind_of_eq_ok hread.1]
    dsimp only
    rw [if_neg (by rw [hlength]; decide), Int.mul_tdiv_cancel _ (by decide)]
    rfl

theorem zone_zoneText {zone : Text} (h : zoneOffsetSeconds zone = some seconds) :
    ZoneText zone := by
  rcases zoneOffsetSeconds_cases h with ⟨rfl, _⟩ | ⟨minutes, hrange, _, rfl⟩
  · exact utc_zoneText
  · exact offset_zoneText hrange

theorem parseAnnotations_zone {text zone : Text} {i : Nat} (hzone : ZoneText zone)
    (h : At text i (byte '[' :: (zone ++ [byte ']']))) :
    parseAnnotations text i p = .ok { p with zone := some zone } := by
  have hindex : indexOfByte text (byte ']') (i + 1) = some (i + 1 + zone.length) := by
    unfold indexOfByte
    rw [h.next.drop, if_pos (mem_append_right _ (mem_singleton_self _)),
      idxOf_append_of_notMem hzone.noBracket, idxOf_cons_self]
    rfl
  have hcontent : (text.drop (i + 1)).take (i + 1 + zone.length - (i + 1)) = zone := by
    rw [h.next.drop, Nat.add_sub_cancel_left, take_left]
  have hequals : indexOfByte zone (byte '=') 0 = none := by
    unfold indexOfByte
    rw [drop_zero, if_neg hzone.noEquals]
  obtain ⟨hend, hlength⟩ := h.next.append.next.stop
  unfold parseAnnotations annotations
  rw [if_neg (by rw [h.head]; simp), hindex]
  dsimp only
  rw [if_neg (by rw [h.next.headD]; exact hzone.notCritical []), hcontent, hequals]
  dsimp only
  rw [if_neg (by rw [hzone.identifier]; simp)]
  cases text with
  | nil => exact absurd h.length_le (by simp)
  | cons b text =>
    rw [length_cons]
    unfold annotations
    rw [if_pos (by rw [hend]; decide), if_neg (by simpa using hlength)]

/-- A zoned moment reads back where its local date is at most 10^8 days from the epoch. -/
theorem ZonedDateTime.reads {zoned : ZonedDateTime} (h : zoned.isValid = true)
    (hlocal : zoned.local = some (days, timeOfDay))
    (hdays : -maxEpochDays ≤ days ∧ days ≤ maxEpochDays) :
    ∃ text, zoned.toIso8601 = some text ∧ ZonedDateTime.fromStr text = .ok zoned := by
  obtain ⟨instant, zone⟩ := zoned
  unfold ZonedDateTime.isValid at h
  rw [Bool.and_eq_true, isSome_iff_exists] at h
  obtain ⟨hinstant, seconds, hzone⟩ := h
  dsimp only at hinstant hzone
  have hchecked : instant.checked = some instant := if_pos hinstant
  have hparts : dayParts (instant.seconds + seconds) instant.nanoseconds = (days, timeOfDay) := by
    unfold ZonedDateTime.local at hlocal
    dsimp only at hlocal
    rw [hchecked, hzone] at hlocal
    exact Option.some.inj hlocal
  obtain ⟨minutes, hminutes, hseconds, hoffset⟩ : ∃ minutes : Int, minutes.natAbs < 1440 ∧
      seconds = minutes * 60 ∧ seconds.tdiv 60 = minutes := by
    rcases zoneOffsetSeconds_cases hzone with ⟨_, rfl⟩ | ⟨minutes, hrange, rfl, _⟩
    · exact ⟨0, by decide, rfl, rfl⟩
    · exact ⟨minutes, hrange, rfl, Int.mul_tdiv_cancel _ (by decide)⟩
  obtain ⟨hnano, _, _⟩ := isValidInstant_iff.mp hinstant
  unfold nanosecondsPerSecond at hnano
  have hlt : instant.nanoseconds < 1000000000 := by omega
  have hrange := dayParts_range (instant.seconds + seconds) hlt
  have hback := dayParts_eq (instant.seconds + seconds) hlt
  rw [hparts] at hrange hback
  refine ⟨formatDateTime days timeOfDay (-1) ++ formatOffsetIdentifier minutes ++
    byte '[' :: zone ++ [byte ']'], ?_, ?_⟩
  · unfold ZonedDateTime.toIso8601 ZonedDateTime.format
    rw [hlocal]
    dsimp only
    rw [hzone]
    dsimp only [bind, Option.bind]
    rw [hoffset]
    rfl
  · generalize htext : formatDateTime days timeOfDay (-1) ++ formatOffsetIdentifier minutes ++
      byte '[' :: zone ++ [byte ']'] = text
    have hstart : At text 0 (formatDateTime days timeOfDay (-1) ++
        (formatOffsetIdentifier minutes ++ byte '[' :: (zone ++ [byte ']']))) := by
      rw [← htext]
      simpa only [append_assoc, cons_append] using at_zero _
    have hafter : AfterClock ((formatOffsetIdentifier minutes ++
        byte '[' :: (zone ++ [byte ']'])).headD 0) := by
      obtain ⟨a, b, c, d, _, hformat⟩ := formatOffsetIdentifier_eq hminutes
      rw [hformat]
      show AfterClock (if minutes < 0 then byte '-' else byte '+')
      unfold AfterClock
      split_ifs <;> decide
    unfold maxEpochDays at hdays
    obtain ⟨j, hat, hread⟩ := parseDateTimePrefix_eq true false false (by omega) hrange.1 hrange.2
      hafter hstart
    have hbracket : (byte '[' :: (zone ++ [byte ']'])).headD 0 ≠ byte ':' := by
      rw [headD_cons]
      decide
    have hparse := hread _ _ (parseOffsetPart_offset hminutes hbracket hat) rfl
      (fun hfalse => absurd hfalse (by decide))
    have hannotation : At text (j + 6) (byte '[' :: (zone ++ [byte ']'])) := by
      have hlength : (formatOffsetIdentifier minutes).length = 6 := by
        obtain ⟨a, b, c, d, _, hformat⟩ := formatOffsetIdentifier_eq hminutes
        rw [hformat]
        rfl
      have hnext := hat.append
      rwa [hlength] at hnext
    have hzoneText := zone_zoneText hzone
    have hparsed : parseZonedString text = .ok { readDateTime days timeOfDay with
        offset := some (minutes * 60000000000), zone := some zone } := by
      unfold parseZonedString
      rw [bind_of_eq_ok hparse]
      dsimp only
      rw [bind_of_eq_ok (parseAnnotations_zone hzoneText hannotation)]
      rfl
    unfold ZonedDateTime.fromStr
    rw [bind_of_eq_ok hparsed, bind_of_eq_ok (requireIsoCalendar_none rfl)]
    dsimp only [getD_some]
    rw [bind_of_eq_ok hzoneText.canonical]
    simp only [readDateTime, epochDaysOf_isoDateFromEpochDays, hzone, getD_some]
    rw [if_neg (by decide), if_neg (by unfold nanosecondsPerSecond; omega),
      if_neg (by unfold maxEpochDays; omega), bind_of_eq_ok rfl]
    have hepoch : epochFromLocal days timeOfDay seconds = some instant := by
      unfold epochFromLocal
      rw [hback.1, hback.2, Int.add_sub_cancel]
      exact tryInstant_eq hinstant
    rw [hepoch]
    rfl

end Instants

section Plain

variable {date : PlainDate}

theorem PlainDate.year_range (h : date.isValid = true) :
    -999999 ≤ date.year ∧ date.year ≤ 999999 := by
  unfold PlainDate.isValid at h
  obtain ⟨hvalid, hlimits⟩ := Bool.and_eq_true_iff.mp h
  unfold isoDateWithinLimits maxEpochDays at hlimits
  rw [decide_eq_true_eq] at hlimits
  have hrange := Temporal.year_range
    (show -100000002 ≤ epochDaysOf date.year date.month date.day ∧ _ ≤ _ by omega)
  rwa [isoDateFromEpochDays_epochDaysOf hvalid] at hrange

/-- A date alone reads as a date and time without a time. -/
theorem parseDateTimeString_date (date : IsoDate) (hyear : -999999 ≤ date.year ∧ date.year ≤ 999999)
    (hvalid : isValidIsoDate date.year date.month date.day = true) :
    parseDateTimeString (formatIsoDate date) false =
      .ok { year := date.year, month := date.month, day := date.day } := by
  have hstart : At (formatIsoDate date) 0 (formatIsoDate date ++ []) := by
    rw [append_nil]
    exact at_zero _
  obtain ⟨i, hdate, hend⟩ := parseDate_eq (p := {}) hyear hvalid hstart
  have hparse : parseDateTimePrefix (formatIsoDate date) {} false false false =
      .ok (i, { year := date.year, month := date.month, day := date.day }) := by
    unfold parseDateTimePrefix
    rw [bind_of_eq_ok hdate]
    dsimp only
    rw [hend.stop.1]
    rfl
  unfold parseDateTimeString
  rw [bind_of_eq_ok hparse]
  exact parseAnnotations_nil hend

theorem PlainDate.reads (h : date.isValid = true) :
    ∃ text, date.toIso8601 = some text ∧ PlainDate.fromStr text = .ok date := by
  obtain ⟨hvalid, hlimits⟩ := Bool.and_eq_true_iff.mp (show (_ && _) = true from h)
  refine ⟨formatIsoDate ⟨date.year, date.month, date.day⟩, ?_, ?_⟩
  · unfold PlainDate.toIso8601 PlainDate.checked
    rw [if_pos h]
    rfl
  · have hparsed := parseDateTimeString_date ⟨date.year, date.month, date.day⟩
      (PlainDate.year_range h) hvalid
    unfold PlainDate.fromStr
    rw [bind_of_eq_ok hparsed, bind_of_eq_ok (requireIsoCalendar_none rfl)]
    dsimp only
    rw [if_neg (by rw [hlimits]; simp)]
    rfl

variable {time : PlainTime}

theorem PlainTime.isValid_iff : time.isValid = true ↔
    (0 ≤ time.hour ∧ time.hour ≤ 23) ∧ (0 ≤ time.minute ∧ time.minute ≤ 59) ∧
      (0 ≤ time.second ∧ time.second ≤ 59) ∧ (0 ≤ time.millisecond ∧ time.millisecond ≤ 999) ∧
      (0 ≤ time.microsecond ∧ time.microsecond ≤ 999) ∧
      (0 ≤ time.nanosecond ∧ time.nanosecond ≤ 999) := by
  unfold PlainTime.isValid
  exact decide_eq_true_iff

/-- The nanoseconds since midnight of a valid time are of a day, and name the time again. -/
theorem PlainTime.nanoseconds_spec (h : time.isValid = true) :
    ∃ timeOfDay, time.nanosecondsSinceMidnight = some timeOfDay ∧ 0 ≤ timeOfDay ∧
      timeOfDay < nanosecondsPerDay ∧ PlainTime.fromNanosecondsSinceMidnight timeOfDay = time := by
  obtain ⟨hour, minute, second, millisecond, microsecond, nanosecond⟩ := time
  have hranges := PlainTime.isValid_iff.mp h
  dsimp only at hranges
  refine ⟨((hour * 60 + minute) * 60 + second) * nanosecondsPerSecond + millisecond * 1000000 +
    microsecond * 1000 + nanosecond, ?_, ?_, ?_, ?_⟩
  · unfold PlainTime.nanosecondsSinceMidnight PlainTime.checked
    rw [if_pos h]
    rfl
  · unfold nanosecondsPerSecond
    omega
  · unfold nanosecondsPerSecond nanosecondsPerDay
    omega
  · unfold PlainTime.fromNanosecondsSinceMidnight
    rw [floorMod_eq_emod _ (by decide), Int.emod_eq_of_lt]
    · dsimp only
      unfold nanosecondsPerSecond
      generalize htotal : ((hour * 60 + minute) * 60 + second) * 1000000000 +
        millisecond * 1000000 + microsecond * 1000 + nanosecond = total
      have hnonneg : 0 ≤ total := by omega
      rw [tdiv_of_nonneg hnonneg, tdiv_of_nonneg hnonneg, tdiv_of_nonneg hnonneg,
        tdiv_of_nonneg hnonneg, tdiv_of_nonneg hnonneg, Int.tmod_eq_emod_of_nonneg (by omega),
        Int.tmod_eq_emod_of_nonneg (by omega), Int.tmod_eq_emod_of_nonneg (by omega),
        Int.tmod_eq_emod_of_nonneg (by omega), Int.tmod_eq_emod_of_nonneg hnonneg]
      congr 1 <;> omega
    · unfold nanosecondsPerSecond
      omega
    · unfold nanosecondsPerSecond nanosecondsPerDay
      omega

/-- A text that starts with two digits and a colon is no date. -/
theorem parseIsoYear_colon {text rest : Text} {hour : Int} (hhour : 0 ≤ hour ∧ hour < 100)
    (h : At text 0 (zeroPad 2 hour ++ byte ':' :: rest)) :
    isAsciiDigit (byteAt text 0) = true ∧ (∃ e, parseIsoYear text 0 = .error e) ∧
      endsAt (parseMonthDaySpec text {}) text.length = false := by
  obtain ⟨n, rfl⟩ := Int.eq_ofNat_of_zero_le hhour.1
  obtain ⟨hread, hat⟩ := readTwoDigits_zeroPad hhour.1 hhour.2 h
  rw [zeroPad_two (by omega)] at h
  have hdigit : n / 10 < 10 := by omega
  obtain ⟨e, hcolon⟩ : ∃ e, readTwoDigits text 2 = .error e := by
    have hread : readTwoDigits text 2 = malformed "expected two digits" (2 : Nat) := by
      unfold readTwoDigits
      rw [show byteAt text 2 = byte ':' from hat.head]
      rfl
    exact ⟨_, hread⟩
  have hfirst : byteAt text 0 = digit (n / 10) := h.head
  refine ⟨?_, ⟨e, ?_⟩, ?_⟩
  · rw [hfirst]
    exact digit_isDigit hdigit
  · unfold parseIsoYear
    rw [hfirst, if_pos ⟨digit_ne hdigit (by decide), digit_ne hdigit (by decide)⟩,
      bind_of_eq_ok hread, bind_of_eq_error hcolon]
  · have hspec : parseMonthDaySpec text {} = .error e := by
      unfold parseMonthDaySpec
      dsimp only
      rw [if_neg (by rw [hfirst]; exact fun hand => digit_ne hdigit (by decide) hand.1),
        bind_of_eq_ok hread]
      rw [if_neg (by rw [show byteAt text (0 + 2) = byte ':' from hat.head]; decide),
        bind_of_eq_error hcolon]
    rw [hspec]
    rfl

theorem PlainTime.reads (h : time.isValid = true) :
    ∃ text, time.toIso8601 = some text ∧ PlainTime.fromStr text = .ok time := by
  obtain ⟨timeOfDay, hnanoseconds, hlo, hhi, hback⟩ := PlainTime.nanoseconds_spec h
  refine ⟨formatTimeOfDay timeOfDay (-1), ?_, ?_⟩
  · unfold PlainTime.toIso8601
    rw [hnanoseconds]
    rfl
  · generalize htext : formatTimeOfDay timeOfDay (-1) = text
    have hstart : At text 0 (formatTimeOfDay timeOfDay (-1) ++ []) := by
      rw [append_nil, htext]
      exact at_zero _
    obtain ⟨j, htime, hend⟩ := parseTime_eq (p := {}) hlo hhi afterClock_zero hstart
    obtain ⟨hour, rest, hhour, hcolon⟩ : ∃ hour rest, (0 ≤ hour ∧ hour < 100) ∧
        At text 0 (zeroPad 2 hour ++ byte ':' :: rest) := by
      unfold nanosecondsPerDay at hhi
      unfold formatTimeOfDay nanosecondsPerSecond at hstart
      dsimp only at hstart
      rw [tdiv_of_nonneg hlo, tdiv_of_nonneg (by omega)] at hstart
      simp only [append_assoc, cons_append] at hstart
      exact ⟨_, _, by omega, hstart⟩
    obtain ⟨hdigit, ⟨e, hyear⟩, hmonthDay⟩ := parseIsoYear_colon hhour hcolon
    obtain ⟨d, hd, hfirst⟩ := exists_digit hdigit
    have hdate : ∃ e, parseDateTimeString text true = .error e := by
      refine ⟨e, ?_⟩
      unfold parseDateTimeString parseDateTimePrefix parseDate
      rw [bind_of_eq_error (bind_of_eq_error (bind_of_eq_error hyear))]
    have hyearMonth : endsAt (parseYearMonthSpec text {}) text.length = false := by
      unfold parseYearMonthSpec
      rw [bind_of_eq_error hyear]
      rfl
    obtain ⟨e', hdate⟩ := hdate
    have hparsed : parseTimeString text = .ok { timeOfDay, hasTime := true } := by
      unfold parseTimeString
      dsimp only
      rw [if_neg (by
        rw [hfirst]
        rintro (heq | heq)
        · exact digit_ne hd (by decide) heq
        · exact digit_ne hd (by decide) heq), hdate]
      dsimp only
      unfold parseBareTime
      rw [if_neg (by decide), bind_of_eq_ok htime]
      dsimp only
      rw [bind_of_eq_ok (parseOffsetPart_none hend)]
      dsimp only
      rw [hend.stop.2, take_length, hmonthDay, hyearMonth, if_neg (by decide), ← hend.stop.2]
      exact parseAnnotations_nil hend
    unfold PlainTime.fromStr
    rw [bind_of_eq_ok hparsed, bind_of_eq_ok (requireIsoCalendar_none rfl)]
    dsimp only
    rw [hback]
    rfl

theorem PlainDateTime.reads {dateTime : PlainDateTime} (h : dateTime.isValid = true) :
    ∃ text, dateTime.toIso8601 = some text ∧ PlainDateTime.fromStr text = .ok dateTime := by
  obtain ⟨date, time⟩ := dateTime
  obtain ⟨⟨days, timeOfDay⟩, hparts⟩ := isSome_iff_exists.mp h
  have hparts' := hparts
  unfold PlainDateTime.parts at hparts'
  dsimp only at hparts'
  obtain ⟨days', hdays, hparts'⟩ := bind_eq_some_iff.mp hparts'
  obtain ⟨timeOfDay', htimeOfDay, hparts'⟩ := bind_eq_some_iff.mp hparts'
  obtain ⟨hlimits, hpair⟩ := ite_none_right_eq_some.mp hparts'
  cases hpair
  have hdate : date.isValid = true ∧ epochDaysOf date.year date.month date.day = days := by
    unfold PlainDate.epochDays PlainDate.checked at hdays
    split_ifs at hdays with hvalid
    · exact ⟨hvalid, Option.some.inj hdays⟩
    · cases hdays
  have htime : time.isValid = true := by
    unfold PlainTime.nanosecondsSinceMidnight PlainTime.checked at htimeOfDay
    split_ifs at htimeOfDay with hvalid
    · exact hvalid
    · cases htimeOfDay
  obtain ⟨timeOfDay', hnanoseconds, hlo, hhi, hback⟩ := PlainTime.nanoseconds_spec htime
  obtain rfl := Option.some.inj (hnanoseconds.symm.trans htimeOfDay)
  obtain ⟨hvalid, hdateLimits⟩ := Bool.and_eq_true_iff.mp (show (_ && _) = true from hdate.1)
  rw [hdate.2] at hdateLimits
  have hiso : isoDateFromEpochDays days = ⟨date.year, date.month, date.day⟩ := by
    rw [← hdate.2]
    exact isoDateFromEpochDays_epochDaysOf hvalid
  refine ⟨formatDateTime days timeOfDay' (-1), ?_, ?_⟩
  · unfold PlainDateTime.toIso8601
    rw [hparts]
    rfl
  · have hstart : At (formatDateTime days timeOfDay' (-1)) 0
        (formatDateTime days timeOfDay' (-1) ++ []) := by
      rw [append_nil]
      exact at_zero _
    unfold isoDateWithinLimits maxEpochDays at hdateLimits
    rw [decide_eq_true_eq] at hdateLimits
    obtain ⟨j, hat, hread⟩ := parseDateTimePrefix_eq false false false (by omega) hlo hhi
      afterClock_zero hstart
    have hparse := hread _ _ (parseOffsetPart_none hat) rfl
      (fun hfalse => absurd hfalse (by decide))
    unfold PlainDateTime.fromStr parseDateTimeString
    rw [bind_of_eq_ok hparse]
    dsimp only
    rw [bind_of_eq_ok (parseAnnotations_nil hat), bind_of_eq_ok (requireIsoCalendar_none rfl)]
    simp only [readDateTime, epochDaysOf_isoDateFromEpochDays]
    rw [if_neg (by rw [hlimits]; simp), hback, hiso]
    rfl

theorem parseSpecOrDate_eq {spec : Text → ParsedIso → Except DeserializeError (Nat × ParsedIso)}
    {text : Text} {i : Nat} (hspec : spec text {} = .ok (i, p))
    (hend : At text i []) : parseSpecOrDate spec text = .ok p := by
  unfold parseSpecOrDate
  rw [bind_of_eq_ok hspec]
  dsimp only
  rw [parseAnnotations_nil hend]

theorem yearMonthWithinLimits_range {year month : Int}
    (h : yearMonthWithinLimits year month = true) : -271821 ≤ year ∧ year ≤ 275760 := by
  unfold yearMonthWithinLimits at h
  split_ifs at h with hyear
  omega

theorem PlainYearMonth.reads {yearMonth : PlainYearMonth} (h : yearMonth.isValid = true) :
    ∃ text, yearMonth.toIso8601 = some text ∧ PlainYearMonth.fromStr text = .ok yearMonth := by
  have hvalid := h
  unfold PlainYearMonth.isValid at hvalid
  rw [decide_eq_true_eq] at hvalid
  obtain ⟨⟨hlo, hhi⟩, hlimits⟩ := hvalid
  have hyear := yearMonthWithinLimits_range hlimits
  refine ⟨formatIsoYear yearMonth.year ++ byte '-' :: zeroPad 2 yearMonth.month, if_pos h, ?_⟩
  generalize htext : formatIsoYear yearMonth.year ++ byte '-' :: zeroPad 2 yearMonth.month = text
  have hstart : At text 0 (formatIsoYear yearMonth.year ++
      byte '-' :: (zeroPad 2 yearMonth.month ++ [])) := by
    rw [append_nil, htext]
    exact at_zero _
  obtain ⟨i, hread, hat⟩ := parseIsoYear_eq (by omega) hstart
  obtain ⟨hmonth, hend⟩ := readTwoDigits_zeroPad (by omega) (by omega) hat.next
  have hspec : parseYearMonthSpec text {} = .ok (i + 1 + 2,
      { year := yearMonth.year, month := yearMonth.month }) := by
    unfold parseYearMonthSpec
    rw [bind_of_eq_ok hread]
    dsimp only
    rw [if_pos hat.head, bind_of_eq_ok hmonth, if_neg (by omega)]
    rfl
  unfold PlainYearMonth.fromStr parseYearMonthString
  rw [bind_of_eq_ok (parseSpecOrDate_eq hspec hend), bind_of_eq_ok (requireIsoCalendar_none rfl)]
  dsimp only
  rw [if_neg (by rw [hlimits]; simp)]
  rfl

theorem PlainMonthDay.reads {monthDay : PlainMonthDay} (h : monthDay.isValid = true) :
    ∃ text, monthDay.toIso8601 = some text ∧ PlainMonthDay.fromStr text = .ok monthDay := by
  have hvalid : isValidIsoDate 1972 monthDay.month monthDay.day = true := h
  have hrange : 1 ≤ monthDay.month ∧ monthDay.month ≤ 12 ∧ 1 ≤ monthDay.day ∧
      monthDay.day ≤ 31 := by
    have hv := hvalid
    unfold isValidIsoDate isoDaysInMonth at hv
    rw [decide_eq_true_eq] at hv
    split_ifs at hv <;> omega
  refine ⟨zeroPad 2 monthDay.month ++ byte '-' :: zeroPad 2 monthDay.day, if_pos h, ?_⟩
  generalize htext : zeroPad 2 monthDay.month ++ byte '-' :: zeroPad 2 monthDay.day = text
  have hstart : At text 0 (zeroPad 2 monthDay.month ++
      byte '-' :: (zeroPad 2 monthDay.day ++ [])) := by
    rw [append_nil, htext]
    exact at_zero _
  obtain ⟨hmonth, hat⟩ := readTwoDigits_zeroPad (by omega) (by omega) hstart
  obtain ⟨hday, hend⟩ := readTwoDigits_zeroPad (by omega) (by omega) hat.next
  have hfirst : byteAt text 0 ≠ byte '-' := by
    obtain ⟨n, hn⟩ := Int.eq_ofNat_of_zero_le (show 0 ≤ monthDay.month by omega)
    rw [hn, zeroPad_two (by omega)] at hstart
    rw [show byteAt text 0 = digit (n / 10) from hstart.head]
    exact digit_ne (by omega) (by decide)
  have hspec : parseMonthDaySpec text {} = .ok (0 + 2 + 1 + 2,
      { month := monthDay.month, day := monthDay.day }) := by
    unfold parseMonthDaySpec
    dsimp only
    rw [if_neg (fun hand => hfirst hand.1), bind_of_eq_ok hmonth, if_pos hat.head,
      bind_of_eq_ok hday, if_neg (by rw [hvalid]; simp)]
    rfl
  unfold PlainMonthDay.fromStr parseMonthDayString
  rw [bind_of_eq_ok (parseSpecOrDate_eq hspec hend), bind_of_eq_ok (requireIsoCalendar_none rfl)]
  rfl

end Plain

/-- Every valid value has a text, which is read back as the value; of a zoned one, the local date
must be in range. -/
theorem isoTexts_round_trip :
    (∀ instant : Instant, instant.isValid = true →
      ∃ text, instant.toIso8601 = some text ∧ Instant.fromStr text = .ok instant) ∧
    (∀ date : PlainDate, date.isValid = true →
      ∃ text, date.toIso8601 = some text ∧ PlainDate.fromStr text = .ok date) ∧
    (∀ time : PlainTime, time.isValid = true →
      ∃ text, time.toIso8601 = some text ∧ PlainTime.fromStr text = .ok time) ∧
    (∀ dateTime : PlainDateTime, dateTime.isValid = true →
      ∃ text, dateTime.toIso8601 = some text ∧ PlainDateTime.fromStr text = .ok dateTime) ∧
    (∀ yearMonth : PlainYearMonth, yearMonth.isValid = true →
      ∃ text, yearMonth.toIso8601 = some text ∧ PlainYearMonth.fromStr text = .ok yearMonth) ∧
    (∀ monthDay : PlainMonthDay, monthDay.isValid = true →
      ∃ text, monthDay.toIso8601 = some text ∧ PlainMonthDay.fromStr text = .ok monthDay) ∧
    ∀ (zoned : ZonedDateTime) (days timeOfDay : Int), zoned.isValid = true →
      zoned.local = some (days, timeOfDay) → -maxEpochDays ≤ days ∧ days ≤ maxEpochDays →
      ∃ text, zoned.toIso8601 = some text ∧ ZonedDateTime.fromStr text = .ok zoned :=
  ⟨fun _ => Instant.reads, fun _ => PlainDate.reads, fun _ => PlainTime.reads,
    fun _ => PlainDateTime.reads, fun _ => PlainYearMonth.reads, fun _ => PlainMonthDay.reads,
    fun _ _ _ => ZonedDateTime.reads⟩

theorem isoTexts_round_trip_leap : ∃ text,
    (PlainDate.mk 2024 2 29).toIso8601 = some text ∧ PlainDate.fromStr text = .ok ⟨2024, 2, 29⟩ :=
  isoTexts_round_trip.2.1 ⟨2024, 2, 29⟩ (by decide)

end Wado.Temporal
