/-
The values of `core:temporal` that name a moment, a date or a time: which are valid, and their
texts.  What traps is none.
-/
import Wado.Temporal.IsoText

namespace Wado.Temporal

structure Instant where
  /-- Whole seconds since the epoch. -/
  seconds : Int
  nanoseconds : Nat
deriving DecidableEq

structure ZonedDateTime where
  instant : Instant
  timeZone : Text
deriving DecidableEq

structure PlainDate where
  year : Int
  month : Int
  day : Int
deriving DecidableEq

structure PlainTime where
  hour : Int
  minute : Int
  second : Int
  millisecond : Int
  microsecond : Int
  nanosecond : Int
deriving DecidableEq

structure PlainDateTime where
  date : PlainDate
  time : PlainTime
deriving DecidableEq

structure PlainYearMonth where
  year : Int
  month : Int
deriving DecidableEq

structure PlainMonthDay where
  month : Int
  day : Int
deriving DecidableEq

def outOfRange {α : Type} (what : String) : Except DeserializeError α :=
  invalidValue (str (what ++ " is outside the range of 10^8 days either side of the epoch")) (-1)

section Instants

/-- Seconds and the nanoseconds past them, as whole days and the nanosecond of the day. -/
def dayParts (seconds : Int) (nanoseconds : Nat) : Int × Int :=
  (seconds / secondsPerDay, floorMod seconds secondsPerDay * nanosecondsPerSecond + nanoseconds)

def isValidInstant (seconds nanoseconds : Int) : Bool :=
  if nanoseconds < 0 ∨ nanoseconds ≥ nanosecondsPerSecond then false
  else if seconds < -maxEpochSeconds ∨ seconds > maxEpochSeconds then false
  else seconds < maxEpochSeconds ∨ nanoseconds = 0

def tryInstant (seconds nanoseconds : Int) : Option Instant :=
  if seconds < -2 * maxEpochSeconds ∨ seconds > 2 * maxEpochSeconds then none
  else
    let whole := seconds + nanoseconds / nanosecondsPerSecond
    let sub := floorMod nanoseconds nanosecondsPerSecond
    if ¬ isValidInstant whole sub then none else some ⟨whole, sub.toNat⟩

def Instant.isValid (instant : Instant) : Bool :=
  isValidInstant instant.seconds instant.nanoseconds

def Instant.checked (instant : Instant) : Option Instant :=
  if instant.isValid then some instant else none

def formatInstant (instant : Instant) (precision : Int) : Text :=
  let parts := dayParts instant.seconds instant.nanoseconds
  formatDateTime parts.1 parts.2 precision ++ [byte 'Z']

def Instant.toIso8601 (instant : Instant) : Option Text := do
  let instant ← instant.checked
  return formatInstant instant (-1)

/-- Where the text has no `Z` it has an offset. -/
def Instant.fromStr (text : Text) : Except DeserializeError Instant := do
  let parsed ← parseInstantString text
  let offset := if parsed.utcDesignator then 0 else parsed.offset.getD 0
  let days := epochDaysOf parsed.year parsed.month parsed.day
  let seconds := days * secondsPerDay + parsed.timeOfDay.tdiv nanosecondsPerSecond -
    offset.tdiv nanosecondsPerSecond
  let nanoseconds := parsed.timeOfDay.tmod nanosecondsPerSecond - offset.tmod nanosecondsPerSecond
  match tryInstant seconds nanoseconds with
  | some instant => return instant
  | none => outOfRange "the instant"

/-- The offset in seconds of a zone as it is stored, `UTC` or `±HH:MM`. -/
def zoneOffsetSeconds (zone : Text) : Option Int :=
  if zone = str "UTC" then some 0
  else if zone.length = 6 ∧ byteAt zone 3 = byte ':' then
    let sign := byteAt zone 0
    let digits := [byteAt zone 1, byteAt zone 2, byteAt zone 4, byteAt zone 5]
    if (sign = byte '+' ∨ sign = byte '-') ∧ digits.all isAsciiDigit then
      let hours : Int := (byteAt zone 1 - byte '0').toNat * 10 + (byteAt zone 2 - byte '0').toNat
      let minutes : Int := (byteAt zone 4 - byte '0').toNat * 10 + (byteAt zone 5 - byte '0').toNat
      let magnitude := hours * 3600 + minutes * 60
      if hours ≤ 23 ∧ minutes ≤ 59 ∧ ¬ (sign = byte '-' ∧ magnitude = 0) then
        some (if sign = byte '-' then -magnitude else magnitude)
      else none
    else none
  else none

/-- Whether the instant is in range and the zone available. -/
def ZonedDateTime.isValid (zoned : ZonedDateTime) : Bool :=
  zoned.instant.isValid && (zoneOffsetSeconds zoned.timeZone).isSome

/-- The local reading, as days since the epoch and the nanosecond of the day. -/
def ZonedDateTime.local (zoned : ZonedDateTime) : Option (Int × Int) := do
  let instant ← zoned.instant.checked
  let offset ← zoneOffsetSeconds zoned.timeZone
  return dayParts (instant.seconds + offset) instant.nanoseconds

def ZonedDateTime.format (zoned : ZonedDateTime) (precision : Int) (annotate : Bool) :
    Option Text := do
  let parts ← zoned.local
  let offset ← zoneOffsetSeconds zoned.timeZone
  let text := formatDateTime parts.1 parts.2 precision ++ formatOffsetIdentifier (offset.tdiv 60)
  if annotate then return text ++ byte '[' :: zoned.timeZone ++ [byte ']'] else return text

def ZonedDateTime.toIso8601 (zoned : ZonedDateTime) : Option Text := zoned.format (-1) true

/-- The instant that a local reading names at an offset. -/
def epochFromLocal (days timeOfDay offsetSeconds : Int) : Option Instant :=
  tryInstant (days * secondsPerDay + timeOfDay.tdiv nanosecondsPerSecond - offsetSeconds)
    (timeOfDay.tmod nanosecondsPerSecond)

/-- The text has a zone, and the zone as the identifier gives it an offset. -/
def ZonedDateTime.fromStr (text : Text) : Except DeserializeError ZonedDateTime := do
  let parsed ← parseZonedString text
  requireIsoCalendar parsed
  let zone ← timeZoneIdentifier (parsed.zone.getD [])
  let zoneOffset := (zoneOffsetSeconds zone).getD 0
  let days := epochDaysOf parsed.year parsed.month parsed.day
  let offset ← if parsed.utcDesignator then .ok 0
    else
      match parsed.offset with
      | none => .ok zoneOffset
      | some given =>
        if given ≠ zoneOffset * nanosecondsPerSecond then
          invalidValue (str "the offset does not match the time zone " ++ zone) (-1)
        else if ¬ (-maxEpochDays ≤ days ∧ days ≤ maxEpochDays) then outOfRange "the instant"
        else .ok zoneOffset
  match epochFromLocal days parsed.timeOfDay offset with
  | some instant => return ⟨instant, zone⟩
  | none => outOfRange "the instant"

end Instants

section Plain

def PlainDate.isValid (date : PlainDate) : Bool :=
  isValidIsoDate date.year date.month date.day &&
    isoDateWithinLimits (epochDaysOf date.year date.month date.day)

def PlainDate.checked (date : PlainDate) : Option PlainDate :=
  if date.isValid then some date else none

def PlainDate.epochDays (date : PlainDate) : Option Int := do
  let date ← date.checked
  return epochDaysOf date.year date.month date.day

def PlainDate.toIso8601 (date : PlainDate) : Option Text := do
  let date ← date.checked
  return formatIsoDate ⟨date.year, date.month, date.day⟩

def PlainDate.fromStr (text : Text) : Except DeserializeError PlainDate := do
  let p ← parseDateTimeString text false
  requireIsoCalendar p
  if ¬ isoDateWithinLimits (epochDaysOf p.year p.month p.day) then outOfRange "the date"
  else return ⟨p.year, p.month, p.day⟩

def PlainTime.isValid (time : PlainTime) : Bool :=
  (0 ≤ time.hour ∧ time.hour ≤ 23) ∧ (0 ≤ time.minute ∧ time.minute ≤ 59) ∧
    (0 ≤ time.second ∧ time.second ≤ 59) ∧ (0 ≤ time.millisecond ∧ time.millisecond ≤ 999) ∧
    (0 ≤ time.microsecond ∧ time.microsecond ≤ 999) ∧
    (0 ≤ time.nanosecond ∧ time.nanosecond ≤ 999)

def PlainTime.checked (time : PlainTime) : Option PlainTime :=
  if time.isValid then some time else none

def PlainTime.nanosecondsSinceMidnight (time : PlainTime) : Option Int := do
  let time ← time.checked
  return ((time.hour * 60 + time.minute) * 60 + time.second) * nanosecondsPerSecond +
    time.millisecond * 1000000 + time.microsecond * 1000 + time.nanosecond

def PlainTime.fromNanosecondsSinceMidnight (nanoseconds : Int) : PlainTime :=
  let withinDay := floorMod nanoseconds nanosecondsPerDay
  { hour := withinDay.tdiv 3600000000000
    minute := (withinDay.tdiv 60000000000).tmod 60
    second := (withinDay.tdiv nanosecondsPerSecond).tmod 60
    millisecond := (withinDay.tdiv 1000000).tmod 1000
    microsecond := (withinDay.tdiv 1000).tmod 1000
    nanosecond := withinDay.tmod 1000 }

def PlainTime.toIso8601 (time : PlainTime) : Option Text := do
  let timeOfDay ← time.nanosecondsSinceMidnight
  return formatTimeOfDay timeOfDay (-1)

def PlainTime.fromStr (text : Text) : Except DeserializeError PlainTime := do
  let p ← parseTimeString text
  requireIsoCalendar p
  return PlainTime.fromNanosecondsSinceMidnight p.timeOfDay

/-- The epoch day and the time of the day, if both and the pair are in range. -/
def PlainDateTime.parts (dateTime : PlainDateTime) : Option (Int × Int) := do
  let days ← dateTime.date.epochDays
  let timeOfDay ← dateTime.time.nanosecondsSinceMidnight
  if dateTimeWithinLimits days timeOfDay then return (days, timeOfDay) else none

def PlainDateTime.isValid (dateTime : PlainDateTime) : Bool := dateTime.parts.isSome

def PlainDateTime.toIso8601 (dateTime : PlainDateTime) : Option Text := do
  let parts ← dateTime.parts
  return formatDateTime parts.1 parts.2 (-1)

def PlainDateTime.fromStr (text : Text) : Except DeserializeError PlainDateTime := do
  let p ← parseDateTimeString text false
  requireIsoCalendar p
  let days := epochDaysOf p.year p.month p.day
  if ¬ dateTimeWithinLimits days p.timeOfDay then outOfRange "the date"
  else return ⟨⟨p.year, p.month, p.day⟩, PlainTime.fromNanosecondsSinceMidnight p.timeOfDay⟩

def PlainYearMonth.isValid (yearMonth : PlainYearMonth) : Bool :=
  (1 ≤ yearMonth.month ∧ yearMonth.month ≤ 12) ∧
    yearMonthWithinLimits yearMonth.year yearMonth.month

def PlainYearMonth.toIso8601 (yearMonth : PlainYearMonth) : Option Text :=
  if yearMonth.isValid then
    some (formatIsoYear yearMonth.year ++ byte '-' :: zeroPad 2 yearMonth.month)
  else none

def PlainYearMonth.fromStr (text : Text) : Except DeserializeError PlainYearMonth := do
  let p ← parseYearMonthString text
  requireIsoCalendar p
  if ¬ yearMonthWithinLimits p.year p.month then outOfRange "the date"
  else return ⟨p.year, p.month⟩

def PlainMonthDay.isValid (monthDay : PlainMonthDay) : Bool :=
  isValidIsoDate 1972 monthDay.month monthDay.day

def PlainMonthDay.toIso8601 (monthDay : PlainMonthDay) : Option Text :=
  if monthDay.isValid then
    some (zeroPad 2 monthDay.month ++ byte '-' :: zeroPad 2 monthDay.day)
  else none

def PlainMonthDay.fromStr (text : Text) : Except DeserializeError PlainMonthDay := do
  let p ← parseMonthDayString text
  requireIsoCalendar p
  return ⟨p.month, p.day⟩

end Plain

end Wado.Temporal
