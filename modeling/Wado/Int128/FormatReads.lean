/-
The digits that are written, and that parsing them gives the integer back.
-/
import Wado.Int128.Parse

namespace Wado

open Words Numerals List Option

/-! ## The place for the digits -/

/-- The bytes of a place that nothing is written in yet. -/
def zeros (n : Nat) : List UInt8 := List.replicate n 0

theorem length_zeros (n : Nat) : (zeros n).length = n := length_replicate ..

theorem zeros_add (m n : Nat) (after : List UInt8) :
    zeros (m + n) ++ after = zeros m ++ (zeros n ++ after) := by
  rw [zeros, replicate_add, append_assoc]
  rfl

namespace Formatter

variable (f : Formatter)

theorem push_push (s t : List UInt8) : (f.push s).push t = f.push (s ++ t) := by
  simp [push]

theorem writeSign_eq (f : Formatter) (isNegative : Bool) :
    ∃ text, f.writeSign isNegative = f.push text := by
  unfold writeSign
  split_ifs
  · exact ⟨_, rfl⟩
  · exact ⟨_, rfl⟩
  · exact ⟨[], by simp [push]⟩

/-- A place of so many bytes at an offset. -/
def Reserved (f g : Formatter) (offset n : Nat) : Prop :=
  ∃ before after, g = { f with buf := before ++ (zeros n ++ after) } ∧ offset = before.length

theorem reserved_push (text : List UInt8) (n : Nat) :
    Reserved f ((f.push text).reserveUninit n).1 ((f.push text).reserveUninit n).2 n :=
  ⟨f.buf ++ text, [], by simp [reserveUninit, push, zeros], rfl⟩

theorem Reserved.push {f g : Formatter} {offset n : Nat} (h : Reserved f g offset n)
    (text : List UInt8) : Reserved f (g.push text) offset n := by
  obtain ⟨before, after, rfl, rfl⟩ := h
  exact ⟨before, after ++ text, by simp [Formatter.push], rfl⟩

theorem prepareIntWrite_reserved (isNegative : Bool) (altPrefix : List UInt8)
    (n : Nat) : Reserved f (f.prepareIntWrite isNegative altPrefix n).1
      (f.prepareIntWrite isNegative altPrefix n).2 n := by
  -- Whatever is written before the place is pushed.
  have hbefore : ∀ (g : Formatter) (b : Prop) [Decidable b], (∃ text, g = f.push text) →
      ∃ text, (if b then (g.writeSign isNegative).push altPrefix else g.writeSign isNegative) =
        f.push text := by
    rintro g b hb ⟨text, rfl⟩
    obtain ⟨sign, hsign⟩ := writeSign_eq (f.push text) isNegative
    simp only [hsign, push_push]
    split_ifs
    · exact ⟨_, rfl⟩
    · exact ⟨_, rfl⟩
  have hself : ∃ text, f = f.push text := ⟨[], by simp [push]⟩
  unfold prepareIntWrite
  dsimp only
  generalize (if f.alternate = true then (altPrefix.length : Int) else 0) = prefixLen
  generalize (if (isNegative || f.signPlus) = true then (1 : Int) else 0) + prefixLen + n = content
  obtain ⟨text, htext⟩ := hbefore f (prefixLen > 0) hself
  rw [htext]
  by_cases hwide : f.width ≤ 0 ∨ content ≥ f.width
  · rw [if_pos hwide]
    exact f.reserved_push text n
  · rw [if_neg hwide]
    by_cases hzero : f.zeroPad = true
    · rw [if_pos hzero]
      unfold writeCharN
      rw [push_push]
      exact f.reserved_push _ n
    · rw [if_neg hzero]
      cases f.align with
      | left => exact (f.reserved_push text n).push _
      | center =>
        obtain ⟨padded, hpadded⟩ := hbefore (f.writeCharN f.fill ((f.width - content) / 2))
          (prefixLen > 0) ⟨_, rfl⟩
        dsimp only
        rw [hpadded]
        exact (f.reserved_push padded n).push _
      | right =>
        obtain ⟨padded, hpadded⟩ := hbefore (f.writeCharN f.fill (f.width - content))
          (prefixLen > 0) ⟨_, rfl⟩
        dsimp only
        rw [hpadded]
        exact f.reserved_push padded n

end Formatter

/-! ## Writing bytes -/

theorem setByte_eq (before after : List UInt8) (b value : UInt8) :
    setByte (before ++ b :: after) before.length value = some (before ++ value :: after) := by
  have hrange : 0 ≤ (before.length : Int) ∧
      (before.length : Int) < ((before ++ b :: after).length : Int) := by
    rw [length_append, length_cons]
    omega
  rw [setByte, if_pos hrange, Int.toNat_natCast, set_append_right _ _ (Nat.le_refl _),
    Nat.sub_self, set_cons_zero]

/-- The character of a decimal digit. -/
def decimalChar (d : Nat) : UInt8 := UInt8.ofNat (48 + d)

theorem writeDecimalFrom_eq (before : List UInt8) :
    ∀ (n : Nat) (place after : List UInt8) (t : UInt64), place.length = n →
      writeDecimalFrom (before ++ (place ++ after)) before.length t n =
        some (before ++ (fixed decimalChar 10 n t.toNat ++ after))
  | 0, place, after, t, hlength => by
    cases length_eq_zero_iff.mp hlength
    rfl
  | 1, place, after, t, hlength => by
    obtain ⟨b, rfl⟩ := length_eq_one_iff.mp hlength
    rw [writeDecimalFrom, singleton_append, setByte_eq]
    rfl
  | n + 2, place, after, t, hlength => by
    obtain ⟨rest, a, b, rfl⟩ : ∃ rest a b, place = rest ++ [a, b] := by
      rcases eq_nil_or_concat place with rfl | ⟨rest, b, rfl⟩
      · cases hlength
      · rcases eq_nil_or_concat rest with rfl | ⟨rest, a, rfl⟩
        · simp at hlength
        · exact ⟨rest, a, b, by simp⟩
    have hrest : rest.length = n := by simpa using hlength
    have hones := setByte_eq (before ++ (rest ++ [a])) after b
    have htens := fun v => setByte_eq (before ++ rest) (v :: after) a
    have hq : (t / 100).toNat = t.toNat / 100 := UInt64.toNat_div t 100
    have hpair : (t - t / 100 * 100).toNat = t.toNat % 100 := by
      have hproduct : (t / 100 * 100).toNat = t.toNat / 100 * 100 := by
        rw [toNat_mul_of_lt (y := 100) (by
          rw [hq]
          exact Nat.lt_of_le_of_lt (Nat.div_mul_le_self _ _) t.toNat_lt), hq]
        rfl
      rw [Words.toNat_sub_of_le (by omega), hproduct]
      omega
    have honesByte : 48 + t.toNat % 100 - t.toNat % 100 / 10 * 10 = 48 + t.toNat % 10 := by
      omega
    have htensByte : t.toNat % 100 / 10 = t.toNat / 10 % 10 := by omega
    have hnext := writeDecimalFrom_eq before n rest
      (decimalChar (t.toNat / 10 % 10) :: decimalChar (t.toNat % 10) :: after) (t / 100) hrest
    have honesAt : (before.length : Int) + n + 1 = (before ++ (rest ++ [a])).length := by
      simp only [length_append, length_singleton, hrest]
      omega
    have htensAt : (before.length : Int) + n = (before ++ rest).length := by
      rw [length_append, hrest]
      omega
    have honesSplit : before ++ (rest ++ [a, b] ++ after) =
        before ++ (rest ++ [a]) ++ b :: after := by simp
    have htensSplit : ∀ v, before ++ (rest ++ [a]) ++ v :: after =
        before ++ rest ++ a :: v :: after := by simp
    have hdigits : fixed decimalChar 10 (n + 2) t.toNat = fixed decimalChar 10 n (t / 100).toNat ++
        [decimalChar (t.toNat / 10 % 10), decimalChar (t.toNat % 10)] := by
      rw [hq, fixed, fixed, Nat.div_div_eq_div_mul, append_assoc]
      rfl
    rw [writeDecimalFrom, hpair, honesByte, htensByte, honesSplit, honesAt, hones,
      bind_eq_bind, bind_some, htensSplit, htensAt, htens, bind_some,
      append_assoc before]
    refine hnext.trans ?_
    rw [hdigits, append_assoc]
    rfl

/-- A group of digits written in the part of the place after other digits. -/
theorem writeDecimalDigits_eq {before text place after : List UInt8} {offset : Int} {n : Nat}
    (t : UInt64) (hoffset : offset = before.length + text.length) (hplace : place.length = n) :
    writeDecimalDigits (before ++ (text ++ (place ++ after))) offset t n =
      some (before ++ (text ++ (fixed decimalChar 10 n t.toNat ++ after))) := by
  have hlength : offset = (before ++ text).length := by
    rw [hoffset, length_append]
    omega
  rw [← append_assoc, ← append_assoc before, hlength]
  exact writeDecimalFrom_eq (before ++ text) n place after t hplace

/-- Digits that stand in the place prepared for so many. -/
def Formatter.DigitsWritten (f : Formatter) (isNegative : Bool) (altPrefix digits : List UInt8)
    (g : Formatter) : Prop :=
  ∃ before after, f.prepareIntWrite isNegative altPrefix digits.length =
      ({ f with buf := before ++ (zeros digits.length ++ after) }, before.length) ∧
    g = { f with buf := before ++ (digits ++ after) }

theorem digitOf_decimalChar : ∀ d < 10, digitOf 10 (decimalChar d) = some d := by decide

/-- The digits of a count hold the word. -/
theorem lt_pow_countDigitsU64 (val : UInt64) :
    val.toNat < 10 ^ countDigitsU64 val ∧ 0 < countDigitsU64 val := by
  have hval := val.toNat_lt
  unfold countDigitsU64
  simp only [UInt64.lt_iff_toNat_lt, UInt64.toNat_ofNat]
  split_ifs <;> exact ⟨by omega, by decide⟩

namespace U128

theorem toNat_chunk : chunk.toNat = 10 ^ 19 := rfl

theorem chunk_ne_zero : chunk ≠ zero := by decide

theorem toNat_of_lt {x : U128} (h : x.toNat < 2 ^ 64) : x.low.toNat = x.toNat := by
  unfold toNat at h ⊢
  omega

/-- The groups of nineteen digits put together. -/
def OfChunks (x : U128) (top mid bottom : UInt64) (chunks : Nat) : Prop :=
  chunks = 1 ∧ x.toNat = top.toNat ∨
    chunks = 2 ∧ bottom.toNat < 10 ^ 19 ∧ x.toNat = top.toNat * 10 ^ 19 + bottom.toNat ∨
    chunks = 3 ∧ mid.toNat < 10 ^ 19 ∧ bottom.toNat < 10 ^ 19 ∧
      x.toNat = (top.toNat * 10 ^ 19 + mid.toNat) * 10 ^ 19 + bottom.toNat

theorem decimalChunks_eq (x : U128) : ∃ top mid bottom chunks,
    x.decimalChunks = some (top, mid, bottom, chunks) ∧ x.OfChunks top mid bottom chunks := by
  by_cases hhigh : x.high = 0
  · refine ⟨x.low, 0, 0, 1, if_neg (not_not.mpr hhigh), .inl ⟨rfl, ?_⟩⟩
    rw [toNat, hhigh]
    exact Nat.zero_add _
  · have hx := x.toNat_lt
    obtain ⟨q, r, hrun, hq, hr⟩ := divRem_exact x chunk chunk_ne_zero
    rw [toNat_chunk] at hq hr
    have hrLow : r.low.toNat = x.toNat % 10 ^ 19 := by
      rw [toNat_of_lt (by omega), hr]
    rw [decimalChunks, if_pos hhigh, hrun, bind_eq_bind, bind_some]
    dsimp only
    by_cases hge : q.ge chunk = true
    · obtain ⟨q2, r2, hrun2, hq2, hr2⟩ := divRem_exact q chunk chunk_ne_zero
      rw [toNat_chunk] at hq2 hr2
      have hq2Low : q2.low.toNat = x.toNat / 10 ^ 19 / 10 ^ 19 := by
        rw [toNat_of_lt (by omega), hq2, hq]
      have hr2Low : r2.low.toNat = x.toNat / 10 ^ 19 % 10 ^ 19 := by
        rw [toNat_of_lt (by omega), hr2, hq]
      rw [if_pos hge, hrun2]
      refine ⟨q2.low, r2.low, r.low, 3, rfl, .inr (.inr ⟨rfl, by omega, by omega, by omega⟩)⟩
    · have hlt : q.toNat < 10 ^ 19 := by
        rw [ge_iff, toNat_chunk] at hge
        omega
      have hqLow : q.low.toNat = x.toNat / 10 ^ 19 := by
        rw [toNat_of_lt (by omega), hq]
      rw [if_neg hge]
      exact ⟨q.low, 0, r.low, 2, rfl, .inr (.inl ⟨rfl, by omega, by omega⟩)⟩

/-- The decimal digits that are written stand for the value. -/
theorem fmtDecimalMagnitude_eq (x : U128) (f : Formatter) (isNeg : Bool) : ∃ digits g,
    x.fmtDecimalMagnitude f isNeg = some g ∧ f.DigitsWritten isNeg [] digits g ∧ digits ≠ [] ∧
      digitsValue 10 digits = some x.toNat := by
  obtain ⟨top, mid, bottom, chunks, hchunks, hof⟩ := x.decimalChunks_eq
  obtain ⟨hfits, hpos⟩ := lt_pow_countDigitsU64 top
  have hnonempty : ∀ s, fixed decimalChar 10 (countDigitsU64 top) top.toNat ++ s ≠ [] := by
    intro s h
    have hlength := congrArg List.length h
    rw [length_append, length_fixed, length_nil] at hlength
    omega
  obtain ⟨before, after, hplace, hoffset⟩ :=
    f.prepareIntWrite_reserved isNeg [] (countDigitsU64 top + (chunks - 1) * 19)
  have hprepare : f.prepareIntWrite isNeg [] (countDigitsU64 top + (chunks - 1) * 19) =
      ({ f with buf := before ++ (zeros (countDigitsU64 top + (chunks - 1) * 19) ++ after) },
        before.length) := Prod.ext hplace hoffset
  rw [fmtDecimalMagnitude, hchunks, bind_eq_bind, bind_some]
  dsimp only
  rw [hprepare]
  dsimp only
  generalize countDigitsU64 top = topDigits at *
  have htop := numeral_fixed (by decide) digitOf_decimalChar 0 topDigits top.toNat
  rw [Nat.zero_mul, Nat.zero_add, Nat.mod_eq_of_lt hfits] at htop
  have hgroup : ∀ (m : Nat) {t : UInt64}, t.toNat < 10 ^ 19 →
      numeral (digitOf 10) 10 m (fixed decimalChar 10 19 t.toNat) =
        some (m * 10 ^ 19 + t.toNat) := by
    intro m t ht
    have h := numeral_fixed (by decide) digitOf_decimalChar m 19 t.toNat
    rwa [Nat.mod_eq_of_lt ht] at h
  rcases hof with ⟨rfl, hvalue⟩ | ⟨rfl, hbottom, hvalue⟩ | ⟨rfl, hmid, hbottom, hvalue⟩
  · refine ⟨fixed decimalChar 10 topDigits top.toNat, _, ?_, ⟨before, after, ?_, rfl⟩, ?_, ?_⟩
    · have htopWrite := @writeDecimalDigits_eq before [] (zeros topDigits) after before.length
        topDigits top (by simp) (length_zeros _)
      rw [if_neg (by decide), bind_eq_bind, bind_some, if_neg (by decide),
        bind_some]
      exact congrArg (fun o : Option (List UInt8) => o.bind fun arr => some { f with buf := arr })
        htopWrite
    · rw [length_fixed]
      exact hprepare
    · simpa using hnonempty []
    · rw [digitsValue, htop, hvalue]
  · refine ⟨fixed decimalChar 10 topDigits top.toNat ++ fixed decimalChar 10 19 bottom.toNat, _,
      ?_, ⟨before, after, ?_, rfl⟩, hnonempty _, ?_⟩
    · have hbottomWrite := @writeDecimalDigits_eq before (zeros topDigits) (zeros 19) after
        (before.length + (topDigits + 19 : Nat) - 19) 19 bottom (by rw [length_zeros]; omega)
        (length_zeros _)
      have htopWrite := @writeDecimalDigits_eq before [] (zeros topDigits)
        (fixed decimalChar 10 19 bottom.toNat ++ after) before.length topDigits top (by simp)
        (length_zeros _)
      have hcount : topDigits + (2 - 1) * 19 = topDigits + 19 := rfl
      rw [if_neg (by decide), bind_eq_bind, bind_some, if_pos (by decide), hcount,
        zeros_add, hbottomWrite, bind_some, append_assoc]
      exact congrArg (fun o : Option (List UInt8) => o.bind fun arr => some { f with buf := arr })
        htopWrite
    · rw [length_append, length_fixed, length_fixed]
      exact hprepare
    · rw [digitsValue, numeral_append, htop, bind_some, hgroup _ hbottom, hvalue]
  · refine ⟨fixed decimalChar 10 topDigits top.toNat ++ (fixed decimalChar 10 19 mid.toNat ++
      fixed decimalChar 10 19 bottom.toNat), _, ?_, ⟨before, after, ?_, rfl⟩, hnonempty _, ?_⟩
    · have hmidWrite := @writeDecimalDigits_eq before (zeros topDigits) (zeros 19)
        (zeros 19 ++ after) (before.length + (topDigits + 38 : Nat) - 38) 19 mid
        (by rw [length_zeros]; omega) (length_zeros _)
      have hbottomWrite := @writeDecimalDigits_eq before
        (zeros topDigits ++ fixed decimalChar 10 19 mid.toNat) (zeros 19) after
        (before.length + (topDigits + 38 : Nat) - 19) 19 bottom
        (by rw [length_append, length_zeros, length_fixed]; omega) (length_zeros _)
      have htopWrite := @writeDecimalDigits_eq before [] (zeros topDigits)
        (fixed decimalChar 10 19 mid.toNat ++ (fixed decimalChar 10 19 bottom.toNat ++ after))
        before.length topDigits top (by simp) (length_zeros _)
      have hcount : topDigits + (3 - 1) * 19 = topDigits + 38 := rfl
      have hzeros : zeros (topDigits + 38) ++ after =
          zeros topDigits ++ (zeros 19 ++ (zeros 19 ++ after)) := by
        rw [zeros_add, zeros_add 19 19]
      rw [append_assoc, append_assoc] at hbottomWrite
      rw [if_pos rfl, hcount, hzeros, hmidWrite, bind_eq_bind, bind_some,
        if_pos (by decide), hbottomWrite, bind_some, append_assoc, append_assoc]
      exact congrArg (fun o : Option (List UInt8) => o.bind fun arr => some { f with buf := arr })
        htopWrite
    · rw [length_append, length_append, length_fixed, length_fixed, length_fixed]
      exact hprepare
    · rw [digitsValue, numeral_append, htop, bind_some, numeral_append, hgroup _ hmid,
        bind_some, hgroup _ hbottom, hvalue]

end U128

end Wado
