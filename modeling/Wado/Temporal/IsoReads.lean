/-
What is written of a date, a time, an offset and a zone is read again.
-/
import Wado.ExceptSteps
import Wado.Temporal.Digits

namespace Wado.Temporal

open ExceptSteps List

/-- What a text is from an offset on. -/
def At (text : Text) (i : Nat) (rest : Text) : Prop :=
  ∃ before : Text, text = before ++ rest ∧ before.length = i

section At

variable {text rest : Text} {i : Nat}

theorem at_zero (text : Text) : At text 0 text := ⟨[], rfl, rfl⟩

theorem At.append {s : Text} (h : At text i (s ++ rest)) : At text (i + s.length) rest := by
  obtain ⟨before, rfl, rfl⟩ := h
  exact ⟨before ++ s, (append_assoc ..).symm, length_append⟩

theorem At.next {b : UInt8} (h : At text i (b :: rest)) : At text (i + 1) rest :=
  @At.append text rest i [b] h

theorem At.head {b : UInt8} (h : At text i (b :: rest)) : byteAt text i = b := by
  obtain ⟨before, rfl, rfl⟩ := h
  unfold byteAt
  simp

theorem At.stop (h : At text i []) : byteAt text i = 0 ∧ i = text.length := by
  obtain ⟨before, rfl, rfl⟩ := h
  unfold byteAt
  simp

theorem At.drop (h : At text i rest) : text.drop i = rest := by
  obtain ⟨before, rfl, rfl⟩ := h
  exact drop_left

theorem At.length_le (h : At text i rest) : i + rest.length = text.length := by
  obtain ⟨before, rfl, rfl⟩ := h
  exact length_append.symm

/-- The byte at an offset is the first one of what is there, or 0. -/
theorem At.headD (h : At text i rest) : byteAt text i = rest.headD 0 := by
  cases rest with
  | nil => exact h.stop.1
  | cons b rest => exact h.head

end At

section Reads

variable {text rest : Text} {i : Nat}

theorem readTwoDigits_eq {a b : Nat} (ha : a < 10) (hb : b < 10)
    (h : At text i (digit a :: digit b :: rest)) :
    readTwoDigits text i = .ok (a * 10 + b : Nat) := by
  unfold readTwoDigits
  dsimp only
  rw [h.head, h.next.head, digit_value ha, digit_value hb, digit_isDigit ha, digit_isDigit hb]
  rfl

theorem fixedDigits_two (n : Nat) : fixedDigits 2 n = [digit (n / 10 % 10), digit (n % 10)] := rfl

theorem readTwoDigits_fixedDigits {n : Nat} (hn : n < 100) (h : At text i
    (fixedDigits 2 n ++ rest)) :
    readTwoDigits text i = .ok n ∧ At text (i + 2) rest := by
  refine ⟨?_, h.append⟩
  rw [fixedDigits_two] at h
  rw [readTwoDigits_eq (Nat.mod_lt _ (by decide)) (Nat.mod_lt _ (by decide)) h]
  congr 2
  omega

theorem readTwoDigits_zeroPad {x : Int} (hx : 0 ≤ x) (hx' : x < 100)
    (h : At text i (zeroPad 2 x ++ rest)) :
    readTwoDigits text i = .ok x ∧ At text (i + 2) rest := by
  obtain ⟨n, rfl⟩ := Int.eq_ofNat_of_zero_le hx
  rw [zeroPad_eq (by omega)] at h
  exact readTwoDigits_fixedDigits (by omega) h

theorem fixedDigits_add (width n : Nat) :
    fixedDigits (width + 2) n = fixedDigits width (n / 100) ++ fixedDigits 2 (n % 100) := by
  have h10 : n % 100 / 10 % 10 = n / 10 % 10 := by omega
  have h1 : n % 100 % 10 = n % 10 := by omega
  have hlast : fixedDigits (width + 2) n =
      fixedDigits width (n / 10 / 10) ++ [digit (n / 10 % 10)] ++ [digit (n % 10)] := rfl
  rw [fixedDigits_two, h10, h1, hlast, Nat.div_div_eq_div_mul, append_assoc]
  rfl

/-- The year takes four digits or seven characters. -/
def yearLength (year : Int) : Nat := if isFourDigitYear year then 4 else 7

theorem isFourDigitYear_iff (year : Int) :
    isFourDigitYear year = true ↔ 0 ≤ year ∧ year ≤ 9999 := decide_eq_true_iff

theorem parseIsoYear_expanded {sign : UInt8} {n : Nat} (hn : n < 1000000)
    (hsign : sign = byte '+' ∨ sign = byte '-')
    (h : At text i (sign :: fixedDigits 6 n ++ rest)) :
    parseIsoYear text i = (if sign = byte '-' then
          if (n : Int) = 0 then invalidValue (str "year -000000 is not an ISO 8601 year") i
          else .ok (-(n : Int), i + 7)
        else .ok ((n : Int), i + 7)) ∧
      At text (i + 7) rest := by
  have hsigned : At text (i + 1) (fixedDigits 2 (n / 10000) ++ (fixedDigits 2 (n / 100 % 100) ++
      (fixedDigits 2 (n % 100) ++ rest))) := by
    rw [cons_append] at h
    have hnext := h.next
    rw [fixedDigits_add 4, fixedDigits_add 2, Nat.div_div_eq_div_mul] at hnext
    simpa only [append_assoc] using hnext
  obtain ⟨hfirst, hat⟩ := readTwoDigits_fixedDigits (by omega) hsigned
  obtain ⟨hsecond, hat⟩ := readTwoDigits_fixedDigits (by omega) hat
  obtain ⟨hthird, hat⟩ := readTwoDigits_fixedDigits (by omega) hat
  refine ⟨?_, hat⟩
  have hmagnitude : [0, 2, 4].foldlM (fun (magnitude : Int) k =>
      (magnitude * 100 + ·) <$> readTwoDigits text (i + 1 + k)) 0 = .ok (n : Int) := by
    have hvalue : (((0 : Int) * 100 + (n / 10000 : Nat)) * 100 + (n / 100 % 100 : Nat)) * 100 +
        (n % 100 : Nat) = n := by omega
    rw [← hvalue]
    simp only [foldlM_cons, foldlM_nil, Nat.add_zero, hfirst, hsecond, hthird]
    rfl
  unfold parseIsoYear
  rw [h.head, if_neg (by rcases hsign with rfl | rfl <;> decide), hmagnitude]
  rfl

theorem parseIsoYear_eq {year : Int} (hyear : -999999 ≤ year ∧ year ≤ 999999)
    (h : At text i (formatIsoYear year ++ rest)) :
    ∃ j, parseIsoYear text i = .ok (year, j) ∧ At text j rest := by
  unfold formatIsoYear at h
  split_ifs at h with hfour hlarge
  · obtain ⟨hlo, hhi⟩ := (isFourDigitYear_iff year).mp hfour
    obtain ⟨n, rfl⟩ := Int.eq_ofNat_of_zero_le hlo
    rw [zeroPad_eq (by omega), fixedDigits_add 2, append_assoc] at h
    have hbyte : byteAt text i = digit (n / 100 / 10 % 10) := h.head
    obtain ⟨hhigh, hat⟩ := readTwoDigits_fixedDigits (by omega) h
    obtain ⟨hlow, hat⟩ := readTwoDigits_fixedDigits (by omega) hat
    refine ⟨i + 4, ?_, hat⟩
    have hdigit : n / 100 / 10 % 10 < 10 := Nat.mod_lt _ (by decide)
    unfold parseIsoYear
    rw [hbyte, if_pos ⟨digit_ne hdigit (by decide), digit_ne hdigit (by decide)⟩,
      bind_of_eq_ok hhigh, bind_of_eq_ok hlow]
    have hvalue : ((n / 100 : Nat) : Int) * 100 + (n % 100 : Nat) = n := by omega
    rw [hvalue]
    rfl
  · obtain ⟨n, rfl⟩ := Int.eq_ofNat_of_zero_le (show 0 ≤ year by omega)
    rw [zeroPad_eq (by omega)] at h
    obtain ⟨hread, hat⟩ := parseIsoYear_expanded (by omega) (.inl rfl) h
    rw [if_neg (by decide)] at hread
    exact ⟨_, hread, hat⟩
  · have hneg : year < 0 := by
      rw [isFourDigitYear_iff] at hfour
      omega
    obtain ⟨n, hn⟩ := Int.eq_ofNat_of_zero_le (show 0 ≤ -year by omega)
    rw [hn, zeroPad_eq (by omega)] at h
    obtain ⟨hread, hat⟩ := parseIsoYear_expanded (by omega) (.inr rfl) h
    rw [if_pos rfl, if_neg (by omega)] at hread
    refine ⟨_, ?_, hat⟩
    rw [hread]
    congr 2
    omega

theorem parseDate_eq {date : IsoDate} {p : ParsedIso}
    (hyear : -999999 ≤ date.year ∧ date.year ≤ 999999)
    (hvalid : isValidIsoDate date.year date.month date.day = true)
    (h : At text i (formatIsoDate date ++ rest)) :
    ∃ j, parseDate text i p =
        .ok (j, { p with year := date.year, month := date.month, day := date.day }) ∧
      At text j rest := by
  have hrange : 1 ≤ date.month ∧ date.month ≤ 12 ∧ 1 ≤ date.day ∧ date.day ≤ 31 := by
    have hv := hvalid
    unfold isValidIsoDate isoDaysInMonth at hv
    rw [decide_eq_true_eq] at hv
    split_ifs at hv <;> omega
  unfold formatIsoDate at h
  simp only [append_assoc, cons_append] at h
  obtain ⟨j, hread, hat⟩ := parseIsoYear_eq hyear h
  obtain ⟨hmonth, hafter⟩ := readTwoDigits_zeroPad (by omega) (by omega) hat.next
  obtain ⟨hday, hend⟩ := readTwoDigits_zeroPad (by omega) (by omega) hafter.next
  refine ⟨_, ?_, hend⟩
  unfold parseDate
  rw [bind_of_eq_ok hread]
  dsimp only
  rw [if_pos hat.head, bind_of_eq_ok hmonth, if_neg (by rw [hafter.head]; simp),
    if_pos hat.head, bind_of_eq_ok hday, if_neg (by rw [hvalid]; simp)]
  rfl

theorem fractionDigits_eq {digits rest : Text} (j s : Nat) (value : Int)
    (hdigits : AllDigits digits) (hlength : digits.length ≤ s)
    (hrest : isAsciiDigit (rest.headD 0) = false) :
    fractionDigits (digits ++ rest) j value (10 ^ s) =
      .ok (value + (number 0 digits * 10 ^ (s - digits.length) : Nat), j + digits.length) := by
  induction digits generalizing j s value with
  | nil =>
    have hnumber : number 0 [] = 0 := rfl
    rw [nil_append, hnumber, Nat.zero_mul]
    cases rest with
    | nil =>
      unfold fractionDigits
      simp
    | cons b rest =>
      unfold fractionDigits
      rw [headD_cons] at hrest
      rw [if_pos (by rw [hrest]; simp)]
      simp
  | cons b digits ih =>
    obtain ⟨hb, hdigits⟩ := forall_mem_cons.mp hdigits
    cases s with
    | zero => exact absurd hlength (by simp)
    | succ s =>
      have hle : digits.length ≤ s := Nat.le_of_succ_le_succ hlength
      have hscale : ((10 : Int) ^ (s + 1)).tdiv 10 = 10 ^ s := by
        rw [pow_succ, Int.mul_tdiv_cancel _ (by decide)]
      have hne : (10 : Int) ^ (s + 1) ≠ 1 := by
        have hpos : 0 < (10 : Int) ^ s := Int.pow_pos (by decide)
        rw [pow_succ]
        omega
      rw [cons_append]
      unfold fractionDigits
      rw [if_neg (by rw [hb]; simp), if_neg hne, hscale, ih _ _ _ hdigits hle]
      have hpow : 10 ^ digits.length * 10 ^ (s - digits.length) = 10 ^ s := by
        rw [← Nat.pow_add, Nat.add_sub_cancel' hle]
      have hvalue : number 0 (b :: digits) * 10 ^ (s + 1 - (b :: digits).length) =
          (b - byte '0').toNat * 10 ^ s + number 0 digits * 10 ^ (s - digits.length) := by
        rw [length_cons, Nat.add_sub_add_right, ← hpow, number_cons, number_eq]
        ring
      rw [hvalue, length_cons]
      push_cast
      congr 2
      · ring
      · ring

theorem parseTimeFraction_none (h : At text i rest) (hpoint : rest.headD 0 ≠ byte '.')
    (hcomma : rest.headD 0 ≠ byte ',') : parseTimeFraction text i = .ok (0, i) := by
  unfold parseTimeFraction
  rw [h.headD]
  exact if_pos ⟨hpoint, hcomma⟩

/-- A byte that may come after a clock reading. -/
def AfterClock (b : UInt8) : Prop :=
  isAsciiDigit b = false ∧ b ≠ byte ':' ∧ b ≠ byte '.' ∧ b ≠ byte ','

theorem parseTimeFraction_eq {nanoseconds : Int} (hlo : 0 ≤ nanoseconds)
    (hhi : nanoseconds < 1000000000) (hrest : AfterClock (rest.headD 0))
    (h : At text i (formatFraction nanoseconds (-1) ++ rest)) :
    ∃ j, parseTimeFraction text i = .ok (nanoseconds, j) ∧ At text j rest := by
  obtain ⟨n, rfl⟩ := Int.eq_ofNat_of_zero_le hlo
  unfold formatFraction at h
  by_cases hzero : (n : Int) = 0
  · rw [if_pos (.inr ⟨by decide, hzero⟩)] at h
    refine ⟨i, ?_, h⟩
    rw [hzero]
    exact parseTimeFraction_none h hrest.2.2.1 hrest.2.2.2
  · rw [if_neg (by omega)] at h
    dsimp only at h
    rw [if_pos (by decide), zeroPad_eq (by omega), cons_append] at h
    have hlength := fixedDigits_length 9 n
    have htrim := take_eq_trimmed (fixedDigits 9 n) 9 (by omega)
    have hle := trimmedLength_le (fixedDigits 9 n) 9
    have hdigits : AllDigits ((fixedDigits 9 n).take (trimmedLength (fixedDigits 9 n) 9)) :=
      fun b hb => fixedDigits_allDigits 9 n b (mem_of_mem_take hb)
    have hshort : ((fixedDigits 9 n).take (trimmedLength (fixedDigits 9 n) 9)).length =
        trimmedLength (fixedDigits 9 n) 9 := by
      rw [length_take]
      omega
    rw [take_of_length_le (by omega)] at htrim
    have hvalue := number_fixedDigits 9 n
    rw [htrim, number_append, number_replicate, Nat.mod_eq_of_lt (by omega), ← hshort] at hvalue
    rw [hshort] at hvalue
    generalize trimmedLength (fixedDigits 9 n) 9 = length at *
    generalize (fixedDigits 9 n).take length = digits at *
    have hpos : length ≠ 0 := by
      rintro rfl
      obtain rfl := length_eq_zero_iff.mp hshort
      unfold number at hvalue
      omega
    refine ⟨i + 1 + digits.length, ?_, h.next.append⟩
    have hread := fractionDigits_eq (i + 1) 9 0 hdigits (by omega) hrest.1
    unfold parseTimeFraction
    rw [h.head, if_neg (by decide), h.next.drop]
    have hscale : nanosecondsPerSecond = 10 ^ 9 := rfl
    rw [hscale, bind_of_eq_ok hread]
    dsimp only
    rw [if_neg (by omega), hshort, hvalue, Int.zero_add]
    rfl

theorem readClock_time {hour minute second nanoseconds : Int} (hhour : 0 ≤ hour ∧ hour < 100)
    (hminute : 0 ≤ minute ∧ minute < 100) (hsecond : 0 ≤ second ∧ second < 100)
    (hnano : 0 ≤ nanoseconds ∧ nanoseconds < 1000000000) (hrest : AfterClock (rest.headD 0))
    (h : At text i (zeroPad 2 hour ++ byte ':' :: (zeroPad 2 minute ++ byte ':' ::
      (zeroPad 2 second ++ (formatFraction nanoseconds (-1) ++ rest))))) :
    ∃ j, readClock text i true = .ok ⟨hour, minute, second, nanoseconds, true, j⟩ ∧
      At text j rest := by
  obtain ⟨hreadHour, hat⟩ := readTwoDigits_zeroPad hhour.1 hhour.2 h
  obtain ⟨hreadMinute, hat'⟩ := readTwoDigits_zeroPad hminute.1 hminute.2 hat.next
  obtain ⟨hreadSecond, hfraction⟩ := readTwoDigits_zeroPad hsecond.1 hsecond.2 hat'.next
  obtain ⟨j, hread, hend⟩ := parseTimeFraction_eq hnano.1 hnano.2 hrest hfraction
  refine ⟨j, ?_, hend⟩
  unfold readClock
  rw [bind_of_eq_ok hreadHour]
  dsimp only
  rw [if_neg (by rw [hat.head]; simp), if_pos hat.head, bind_of_eq_ok hreadMinute,
    if_pos hat.head, hat'.head, if_pos (by decide), if_pos hat.head, bind_of_eq_ok hreadSecond,
    bind_of_eq_ok hread]
  rfl

theorem readClock_minutes {hour minute : Int} (seconds : Bool) (hhour : 0 ≤ hour ∧ hour < 100)
    (hminute : 0 ≤ minute ∧ minute < 100) (hrest : rest.headD 0 ≠ byte ':')
    (h : At text i (zeroPad 2 hour ++ byte ':' :: (zeroPad 2 minute ++ rest))) :
    readClock text i seconds = .ok ⟨hour, minute, 0, 0, false, i + 5⟩ ∧ At text (i + 5) rest := by
  obtain ⟨hreadHour, hat⟩ := readTwoDigits_zeroPad hhour.1 hhour.2 h
  obtain ⟨hreadMinute, hend⟩ := readTwoDigits_zeroPad hminute.1 hminute.2 hat.next
  refine ⟨?_, hend⟩
  unfold readClock
  rw [bind_of_eq_ok hreadHour]
  dsimp only
  rw [if_neg (by rw [hat.head]; simp), if_pos hat.head, bind_of_eq_ok hreadMinute,
    if_pos hat.head, hend.headD, decide_eq_false hrest, Bool.and_false, if_neg (by decide)]
  rfl

theorem parseTime_eq {timeOfDay : Int} {p : ParsedIso} (hlo : 0 ≤ timeOfDay)
    (hhi : timeOfDay < nanosecondsPerDay) (hrest : AfterClock (rest.headD 0))
    (h : At text i (formatTimeOfDay timeOfDay (-1) ++ rest)) :
    ∃ j, parseTime text i p = .ok (j, { p with timeOfDay, hasTime := true }) ∧ At text j rest := by
  unfold nanosecondsPerDay at hhi
  unfold formatTimeOfDay nanosecondsPerSecond at h
  dsimp only at h
  have hseconds : 0 ≤ timeOfDay / 1000000000 := by omega
  rw [tdiv_of_nonneg hlo, Int.tmod_eq_emod_of_nonneg hlo, tdiv_of_nonneg hseconds,
    Int.tmod_eq_emod_of_nonneg hseconds, tdiv_of_nonneg (by omega),
    Int.tmod_eq_emod_of_nonneg hseconds] at h
  simp only [append_assoc, cons_append] at h
  obtain ⟨j, hread, hend⟩ := readClock_time (by omega) (by omega) (by omega) (by omega) hrest h
  refine ⟨j, ?_, hend⟩
  unfold parseTime
  rw [bind_of_eq_ok hread]
  dsimp only
  rw [if_neg (by omega), if_neg (by omega)]
  have hvalue : ((timeOfDay / 1000000000 / 3600 * 60 + timeOfDay / 1000000000 % 3600 / 60) * 60 +
      timeOfDay / 1000000000 % 60) * nanosecondsPerSecond + timeOfDay % 1000000000 =
      timeOfDay := by
    unfold nanosecondsPerSecond
    omega
  rw [hvalue]
  rfl

theorem parseUtcOffset_eq {minutes : Int} (subMinute : Bool) (hrange : minutes.natAbs < 1440)
    (hrest : rest.headD 0 ≠ byte ':') (h : At text i (formatOffsetIdentifier minutes ++ rest)) :
    parseUtcOffset text i subMinute = .ok (minutes * 60000000000, i + 6, false) ∧
      At text (i + 6) rest := by
  unfold formatOffsetIdentifier at h
  dsimp only at h
  have hnonneg : 0 ≤ (minutes.natAbs : Int) := by omega
  rw [tdiv_of_nonneg hnonneg, Int.tmod_eq_emod_of_nonneg hnonneg] at h
  simp only [append_assoc, cons_append] at h
  obtain ⟨hread, hend⟩ := readClock_minutes subMinute (by omega) (by omega) hrest
    h.next
  refine ⟨?_, hend⟩
  unfold parseUtcOffset
  rw [bind_of_eq_ok hread]
  dsimp only
  rw [if_neg (by omega), h.head]
  unfold nanosecondsPerSecond
  split_ifs with hneg hsign hsign
  · have hvalue : -((((minutes.natAbs : Int) / 60 * 60 + (minutes.natAbs : Int) % 60) * 60 + 0) *
        1000000000 + 0) = minutes * 60000000000 := by omega
    rw [hvalue]
    rfl
  · exact absurd rfl hsign
  · exact absurd hsign (by decide)
  · have hvalue : (((minutes.natAbs : Int) / 60 * 60 + (minutes.natAbs : Int) % 60) * 60 + 0) *
        1000000000 + 0 = minutes * 60000000000 := by omega
    rw [hvalue]
    rfl

end Reads

end Wado.Temporal
