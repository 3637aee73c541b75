/-
The ISO 8601 and RFC 9557 texts of `core:temporal`, as they are written and read.  A text is
its bytes and an offset into it a number; an i32 or i64 is a number too, those here being of
ten digits at most.
-/
import Wado.Cbor.Head
import Wado.Temporal.Calendar

namespace Wado.Temporal

open Cbor (DeserializeErrorKind)

abbrev Text := List UInt8

/-- The byte of an ASCII character. -/
def byte (c : Char) : UInt8 := UInt8.ofNat c.toNat

/-- The bytes of a text. -/
def str (s : String) : Text := s.toUTF8.data.toList

def isAsciiDigit (b : UInt8) : Bool := byte '0' ≤ b ∧ b ≤ byte '9'
def isAsciiLowercase (b : UInt8) : Bool := byte 'a' ≤ b ∧ b ≤ byte 'z'
def isAsciiUppercase (b : UInt8) : Bool := byte 'A' ≤ b ∧ b ≤ byte 'Z'
def isAsciiAlphabetic (b : UInt8) : Bool := isAsciiLowercase b ∨ isAsciiUppercase b
def isAsciiAlphanumeric (b : UInt8) : Bool := isAsciiAlphabetic b ∨ isAsciiDigit b
def toAsciiUppercase (b : UInt8) : UInt8 := if isAsciiLowercase b then b - 32 else b
def eqIgnoreAsciiCase (a b : Text) : Bool := a.map toAsciiUppercase = b.map toAsciiUppercase

structure DeserializeError where
  kind : DeserializeErrorKind
  message : Text
  /-- The offset into the text, or -1 where the failure has none. -/
  offset : Int
deriving DecidableEq

def malformed {α : Type} (message : String) (offset : Int) : Except DeserializeError α :=
  .error ⟨.malformedInput, str message, offset⟩

def invalidValue {α : Type} (message : Text) (offset : Int) : Except DeserializeError α :=
  .error ⟨.invalidValue, message, offset⟩

section Writing

def decimal (n : Nat) : Text := (Nat.toDigits 10 n).map byte

/-- A number, with zeros between its sign and its digits as far as the width asks for them. -/
def zeroPad (width : Nat) (x : Int) : Text :=
  let sign := if x < 0 then [byte '-'] else []
  let digits := decimal x.natAbs
  sign ++ List.replicate (width - (sign.length + digits.length)) (byte '0') ++ digits

def isFourDigitYear (year : Int) : Bool := 0 ≤ year ∧ year ≤ 9999

def formatIsoYear (year : Int) : Text :=
  if isFourDigitYear year then zeroPad 4 year
  else if year > 9999 then byte '+' :: zeroPad 6 year
  else byte '-' :: zeroPad 6 (-year)

def formatIsoDate (date : IsoDate) : Text :=
  formatIsoYear date.year ++ byte '-' :: zeroPad 2 date.month ++ byte '-' :: zeroPad 2 date.day

/-- The byte at an offset, or 0 past the end. -/
def byteAt (text : Text) (i : Nat) : UInt8 := text.getD i 0

/-- The length of the first `length` bytes without the zeros at their end. -/
def trimmedLength (digits : Text) : Nat → Nat
  | 0 => 0
  | length + 1 => if byteAt digits length = byte '0' then trimmedLength digits length else length +
      1

/-- A fraction of so many digits, or with a negative precision up to its last digit that is not
zero. -/
def formatFraction (nanoseconds precision : Int) : Text :=
  if precision = 0 ∨ precision < 0 ∧ nanoseconds = 0 then []
  else
    let digits := zeroPad 9 nanoseconds
    let length := if precision < 0 then trimmedLength digits 9 else precision.toNat
    byte '.' :: digits.take length

def formatTimeOfDay (timeOfDay precision : Int) : Text :=
  let secondOfDay := timeOfDay.tdiv nanosecondsPerSecond
  let fraction := formatFraction (timeOfDay.tmod nanosecondsPerSecond) precision
  zeroPad 2 (secondOfDay.tdiv 3600) ++ byte ':' :: zeroPad 2 ((secondOfDay.tmod 3600).tdiv 60) ++
    byte ':' :: zeroPad 2 (secondOfDay.tmod 60) ++ fraction

def formatDateTime (days timeOfDay precision : Int) : Text :=
  formatIsoDate (isoDateFromEpochDays days) ++ byte 'T' :: formatTimeOfDay timeOfDay precision

/-- `±HH:MM`, zero as `+00:00`. -/
def formatOffsetIdentifier (minutes : Int) : Text :=
  let sign := if minutes < 0 then byte '-' else byte '+'
  let magnitude : Int := minutes.natAbs
  sign :: zeroPad 2 (magnitude.tdiv 60) ++ byte ':' :: zeroPad 2 (magnitude.tmod 60)

end Writing

section Reading

/-- What a text says: the fields that a production supplies, its offset in nanoseconds and
its annotations. -/
structure ParsedIso where
  year : Int := 0
  month : Int := 1
  day : Int := 1
  timeOfDay : Int := 0
  hasTime : Bool := false
  utcDesignator : Bool := false
  offset : Option Int := none
  offsetHasSeconds : Bool := false
  zone : Option Text := none
  calendar : Option Text := none
  calendarCritical : Bool := false
deriving DecidableEq

/-- The offset of the first such byte at or after an offset. -/
def indexOfByte (text : Text) (b : UInt8) (start : Nat) : Option Nat :=
  if b ∈ text.drop start then some (start + (text.drop start).idxOf b) else none

def readTwoDigits (text : Text) (i : Nat) : Except DeserializeError Int :=
  let tens := byteAt text i
  let ones := byteAt text (i + 1)
  if ¬ (isAsciiDigit tens ∧ isAsciiDigit ones) then malformed "expected two digits" i
  else .ok ((tens - byte '0').toNat * 10 + (ones - byte '0').toNat)

/-- Four digits, or a sign and six. -/
def parseIsoYear (text : Text) (i : Nat) : Except DeserializeError (Int × Nat) := do
  let sign := byteAt text i
  if sign ≠ byte '+' ∧ sign ≠ byte '-' then
    let high ← readTwoDigits text i
    let low ← readTwoDigits text (i + 2)
    return (high * 100 + low, i + 4)
  let magnitude ← [0, 2, 4].foldlM
    (fun magnitude k => (magnitude * 100 + ·) <$> readTwoDigits text (i + 1 + k)) 0
  if sign = byte '-' then
    if magnitude = 0 then invalidValue (str "year -000000 is not an ISO 8601 year") i
    else return (-magnitude, i + 7)
  else return (magnitude, i + 7)

/-- A date, extended or basic, that exists. -/
def parseDate (text : Text) (start : Nat) (p : ParsedIso) :
    Except DeserializeError (Nat × ParsedIso) := do
  let (year, afterYear) ← parseIsoYear text start
  let extended := byteAt text afterYear = byte '-'
  let i := if extended then afterYear + 1 else afterYear
  let month ← readTwoDigits text i
  let i := i + 2
  if extended ∧ byteAt text i ≠ byte '-' then malformed "expected '-'" i
  else
    let i := if extended then i + 1 else i
    let day ← readTwoDigits text i
    if ¬ isValidIsoDate year month day then invalidValue (str "the date does not exist") start
    else return (i + 2, { p with year, month, day })

def parseYearMonthSpec (text : Text) (p : ParsedIso) :
    Except DeserializeError (Nat × ParsedIso) := do
  let (year, afterYear) ← parseIsoYear text 0
  let i := if byteAt text afterYear = byte '-' then afterYear + 1 else afterYear
  let month ← readTwoDigits text i
  if ¬ (1 ≤ month ∧ month ≤ 12) then invalidValue (str "month out of range") i
  else return (i + 2, { p with year, month })

/-- A month and a day, which exist in a leap year. -/
def parseMonthDaySpec (text : Text) (p : ParsedIso) :
    Except DeserializeError (Nat × ParsedIso) := do
  let i := if byteAt text 0 = byte '-' ∧ byteAt text 1 = byte '-' then 2 else 0
  let month ← readTwoDigits text i
  let i := i + 2
  let i := if byteAt text i = byte '-' then i + 1 else i
  let day ← readTwoDigits text i
  if ¬ isValidIsoDate 1972 month day then invalidValue (str "the month-day does not exist") i
  else return (i + 2, { p with month, day })

/-- What a clock reads, its range unchecked. -/
structure ClockReading where
  hour : Int
  minute : Int := 0
  second : Int := 0
  /-- The fraction of the second, in nanoseconds. -/
  fraction : Int := 0
  hasSeconds : Bool := false
  «end» : Nat
deriving DecidableEq

/-- The digits of a fraction, each worth a tenth of the one before. -/
def fractionDigits : Text → Nat → Int → Int → Except DeserializeError (Int × Nat)
  | [], j, value, _ => .ok (value, j)
  | b :: rest, j, value, scale =>
    if ¬ isAsciiDigit b then .ok (value, j)
    else if scale = 1 then malformed "more than nine fractional digits" j
    else
      fractionDigits rest (j + 1) (value + (b - byte '0').toNat * scale.tdiv 10) (scale.tdiv 10)

/-- A point or comma and one to nine digits, if they are there, as nanoseconds. -/
def parseTimeFraction (text : Text) (i : Nat) : Except DeserializeError (Int × Nat) := do
  let separator := byteAt text i
  if separator ≠ byte '.' ∧ separator ≠ byte ',' then return (0, i)
  let (value, j) ← fractionDigits (text.drop (i + 1)) (i + 1) 0 nanosecondsPerSecond
  if j = i + 1 then malformed "expected fractional digits after the separator" j
  else return (value, j)

/-- An hour, minutes if they are there and with `seconds` seconds and a fraction, all extended
or all basic. -/
def readClock (text : Text) (start : Nat) (seconds : Bool) :
    Except DeserializeError ClockReading := do
  let hour ← readTwoDigits text start
  let i := start + 2
  let extended := byteAt text i = byte ':'
  if ¬ (extended ∨ isAsciiDigit (byteAt text i)) then return { hour, «end» := i }
  let i := if extended then i + 1 else i
  let minute ← readTwoDigits text i
  let i := i + 2
  let more := if extended then decide (byteAt text i = byte ':') else isAsciiDigit (byteAt text i)
  if seconds && more then
    let i := if extended then i + 1 else i
    let second ← readTwoDigits text i
    let (fraction, after) ← parseTimeFraction text (i + 2)
    return ⟨hour, minute, second, fraction, true, after⟩
  else return { hour, minute, «end» := i }

/-- A time; a leap second reads as the one before. -/
def parseTime (text : Text) (start : Nat) (p : ParsedIso) :
    Except DeserializeError (Nat × ParsedIso) := do
  let clock ← readClock text start true
  if clock.hour > 23 ∨ clock.minute > 59 ∨ clock.second > 60 then
    invalidValue (str "the time does not exist") start
  else
    let constrainedSecond := if clock.second = 60 then 59 else clock.second
    return (clock.end, { p with
      timeOfDay := ((clock.hour * 60 + clock.minute) * 60 + constrainedSecond) *
        nanosecondsPerSecond + clock.fraction
      hasTime := true })

/-- A sign and a clock reading; the offset in nanoseconds, where it ends and whether it has
seconds. -/
def parseUtcOffset (text : Text) (start : Nat) (subMinute : Bool) :
    Except DeserializeError (Int × Nat × Bool) := do
  let sign := byteAt text start
  let clock ← readClock text (start + 1) subMinute
  if clock.hour > 23 ∨ clock.minute > 59 ∨ clock.second > 59 then
    invalidValue (str "the UTC offset is out of range") start
  else
    let magnitude := ((clock.hour * 60 + clock.minute) * 60 + clock.second) *
      nanosecondsPerSecond + clock.fraction
    return (if sign = byte '-' then -magnitude else magnitude, clock.end, clock.hasSeconds)

def parseOffsetPart (text : Text) (i : Nat) (p : ParsedIso) (allowZ : Bool) :
    Except DeserializeError (Nat × ParsedIso) := do
  let b := byteAt text i
  if b = byte 'Z' ∨ b = byte 'z' then
    if ¬ allowZ then malformed "Z names an exact time, which this type has no reading of" i
    else return (i + 1, { p with utcDesignator := true })
  else if b = byte '+' ∨ b = byte '-' then
    let (offset, stop, hasSeconds) ← parseUtcOffset text i true
    return (stop, { p with offset := some offset, offsetHasSeconds := hasSeconds })
  else return (i, p)

/-- A date, and a time and an offset if they are there: where the annotations start. -/
def parseDateTimePrefix (text : Text) (p : ParsedIso) (allowZ requireTime requireOffset : Bool) :
    Except DeserializeError (Nat × ParsedIso) := do
  let (i, p) ← parseDate text 0 p
  let separator := byteAt text i
  let (i, p) ← if (separator = byte 'T' ∨ separator = byte 't' ∨ separator = byte ' ') ∧
        isAsciiDigit (byteAt text (i + 1)) then do
      let (i, p) ← parseTime text (i + 1) p
      parseOffsetPart text i p allowZ
    else .ok (i, p)
  if requireTime ∧ ¬ p.hasTime then malformed "expected a time" i
  else if requireOffset ∧ ¬ p.utcDesignator ∧ p.offset = none then
    malformed "expected Z or a UTC offset" i
  else return (i, p)

/-- Whether a name is of components apart by `/`, each a letter, a point or an underscore and
more of these, digits, hyphens and pluses. -/
def ianaName : Text → Bool → Bool
  | [], componentStart => !componentStart
  | b :: rest, componentStart =>
    if b = byte '/' then if componentStart then false else ianaName rest true
    else
      let leading := isAsciiAlphabetic b || b = byte '.' || b = byte '_'
      if componentStart then if ¬ leading then false else ianaName rest false
      else if ¬ (leading ∨ isAsciiDigit b ∨ b = byte '-' ∨ b = byte '+') then false
      else ianaName rest false

def isIanaName (text : Text) : Bool := ianaName text true

def isTimeZoneIdentifier (text : Text) : Bool :=
  let first := byteAt text 0
  if first = byte '+' ∨ first = byte '-' then
    match parseUtcOffset text 0 false with
    | .ok read => read.2.1 = text.length
    | .error _ => false
  else isIanaName text

def isAnnotationKey (key : Text) : Bool :=
  match key with
  | [] => false
  | first :: rest => (isAsciiLowercase first || first = byte '_') && rest.all fun b =>
    isAsciiLowercase b || b = byte '_' || isAsciiDigit b || b = byte '-'

/-- Whether a value is of components apart by `-`, `inside` telling that one has begun. -/
def annotationValue : Text → Bool → Bool
  | [], inside => inside
  | b :: rest, inside =>
    if b = byte '-' then if ¬ inside then false else annotationValue rest false
    else if isAsciiAlphanumeric b then annotationValue rest true
    else false

def isAnnotationValue (value : Text) : Bool := annotationValue value false

/-- The zone annotation and the others from an offset to the end, in at most so many rounds as
there are bytes. -/
def annotations (text : Text) : Nat → Nat → Bool → ParsedIso → Except DeserializeError ParsedIso
  | 0, i, _, _ => malformed "trailing characters" i
  | fuel + 1, i, any, p =>
    if byteAt text i ≠ byte '[' then
      if i ≠ text.length then malformed "trailing characters" i else .ok p
    else
      match indexOfByte text (byte ']') (i + 1) with
      | none => malformed "unterminated annotation" i
      | some close =>
        let critical := byteAt text (i + 1) = byte '!'
        let first := if critical then i + 2 else i + 1
        let content := (text.drop first).take (close - first)
        match indexOfByte content (byte '=') 0 with
        | none =>
          if any ∨ ¬ isTimeZoneIdentifier content then
            malformed "expected a time zone annotation first" i
          else annotations text fuel (close + 1) true { p with zone := some content }
        | some equals =>
          let key := content.take equals
          let value := content.drop (equals + 1)
          if ¬ isAnnotationKey key ∨ ¬ isAnnotationValue value then
            malformed "malformed annotation" i
          else if key = str "u-ca" then
            if p.calendar = none then
              annotations text fuel (close + 1) true
                { p with calendar := some value, calendarCritical := critical }
            else if critical ∨ p.calendarCritical then
              invalidValue (str "conflicting calendar annotations") i
            else annotations text fuel (close + 1) true p
          else if critical then
            invalidValue (str "an unknown annotation is marked critical") i
          else annotations text fuel (close + 1) true p

attribute [grind =] annotations

def parseAnnotations (text : Text) (start : Nat) (p : ParsedIso) :
    Except DeserializeError ParsedIso :=
  annotations text (text.length + 1) start false p

def parseInstantString (text : Text) : Except DeserializeError ParsedIso := do
  let (i, p) ← parseDateTimePrefix text {} true true true
  parseAnnotations text i p

def parseZonedString (text : Text) : Except DeserializeError ParsedIso := do
  let (i, p) ← parseDateTimePrefix text {} true false false
  let p ← parseAnnotations text i p
  if p.zone = none then malformed "expected a time zone annotation" i
  else return p

def parseDateTimeString (text : Text) (requireTime : Bool) : Except DeserializeError ParsedIso := do
  let (i, p) ← parseDateTimePrefix text {} false requireTime false
  parseAnnotations text i p

/-- Whether a reading succeeds and ends at an offset. -/
def endsAt (read : Except DeserializeError (Nat × ParsedIso)) (i : Nat) : Bool :=
  match read with
  | .ok found => found.1 = i
  | .error _ => false

/-- A time, which a text without `T` must not read as a month and day or a year and month
too. -/
def parseBareTime (text : Text) (designated : Bool) : Except DeserializeError ParsedIso := do
  let start := if designated then 1 else 0
  let (afterTime, p) ← parseTime text start {}
  let (i, p) ← parseOffsetPart text afterTime p false
  let lead := text.take i
  if ¬ designated ∧ (endsAt (parseMonthDaySpec lead {}) i ∨ endsAt (parseYearMonthSpec lead {}) i)
  then malformed "ambiguous without a T: it also reads as a date" 0
  else parseAnnotations text i p

def parseTimeString (text : Text) : Except DeserializeError ParsedIso :=
  let designated := byteAt text 0 = byte 'T' ∨ byteAt text 0 = byte 't'
  if designated then parseBareTime text true
  else
    match parseDateTimeString text true with
    | .ok parsed => .ok parsed
    | .error _ => parseBareTime text false

/-- Reads by a production and its annotations, or as a date. -/
def parseSpecOrDate (spec : Text → ParsedIso → Except DeserializeError (Nat × ParsedIso))
    (text : Text) : Except DeserializeError ParsedIso :=
  match (do
    let (i, p) ← spec text {}
    parseAnnotations text i p) with
  | .ok p => .ok p
  | .error _ => parseDateTimeString text false

def parseYearMonthString : Text → Except DeserializeError ParsedIso :=
  parseSpecOrDate parseYearMonthSpec

def parseMonthDayString : Text → Except DeserializeError ParsedIso :=
  parseSpecOrDate parseMonthDaySpec

def requireIsoCalendar (p : ParsedIso) : Except DeserializeError Unit :=
  match p.calendar with
  | some calendar =>
    if ¬ eqIgnoreAsciiCase calendar (str "iso8601") then
      invalidValue (str "calendar \"" ++ calendar ++ str "\" is not supported; only iso8601 is")
        (-1)
    else .ok ()
  | none => .ok ()

/-- `UTC` or `±HH:MM`, however the identifier writes it. -/
def timeZoneIdentifier (text : Text) : Except DeserializeError Text := do
  let first := byteAt text 0
  if first = byte '+' ∨ first = byte '-' then
    let (offset, stop, _) ← parseUtcOffset text 0 false
    if stop ≠ text.length then malformed "expected a ±HH:MM offset" stop
    else return formatOffsetIdentifier (offset.tdiv 60000000000)
  else if ¬ isIanaName text then malformed "expected a time zone name or a ±HH:MM offset" (-1)
  else if eqIgnoreAsciiCase text (str "UTC") then return str "UTC"
  else
    invalidValue (str
      "no time zone database is bundled, so UTC is the only named time zone available") (-1)

end Reading

end Wado.Temporal
