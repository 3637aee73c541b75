/-
The encodings of a head: which bytes `readHead` accepts, and that `writeHead`
writes the shortest of them.
-/
import Wado.Cbor.Head
import Wado.BigEndian
import Wado.ExceptSteps
import Mathlib.Tactic.IntervalCases

namespace Wado.Cbor

open ExceptSteps List BigEndian

/-- The bytes of a head after its initial byte, by additional information. -/
def argWidth (ai : Nat) : Nat :=
  if ai = ai1Byte then 1
  else if ai = ai2Byte then 2
  else if ai = ai4Byte then 4
  else if ai = ai8Byte then 8
  else 0

/-- The encodings of a head. -/
inductive HeadBytes : Head → List UInt8 → Prop where
  | inline (major arg : Nat) (hmajor : major < 8) (harg : arg < 24) :
      HeadBytes ⟨major, arg, arg, false⟩ [UInt8.ofNat (major * 32 + arg)]
  | sized (major ai : Nat) (bytes : List UInt8) (hmajor : major < 8) (hai : 24 ≤ ai)
      (hai' : ai ≤ 27) (hlength : bytes.length = argWidth ai) :
      HeadBytes ⟨major, ai, BigEndian.value bytes, false⟩
        (UInt8.ofNat (major * 32 + ai) :: bytes)
  | indefinite (major : Nat) (hmajor : major < 8) (hsized : major ≠ 0 ∧ major ≠ 1 ∧ major ≠ 6) :
      HeadBytes ⟨major, 31, 0, true⟩ [UInt8.ofNat (major * 32 + 31)]

variable {head : Head} {bytes : List UInt8}

theorem HeadBytes.major_lt (h : HeadBytes head bytes) :
    head.major < 8 := by
  cases h <;> assumption

theorem HeadBytes.length_pos (h : HeadBytes head bytes) :
    0 < bytes.length := by
  cases h <;> simp

theorem argWidth_le (ai : Nat) : argWidth ai ≤ 8 := by
  unfold argWidth
  split_ifs <;> decide

theorem HeadBytes.arg_lt (h : HeadBytes head bytes) :
    head.arg < 2 ^ 64 := by
  cases h with
  | inline major arg hmajor harg => exact Nat.lt_trans harg (by decide)
  | sized major ai bytes hmajor hai hai' hlength =>
    have hle : 256 ^ bytes.length ≤ 256 ^ 8 := by
      apply Nat.pow_le_pow_right (by decide)
      rw [hlength]
      exact argWidth_le ai
    exact Nat.lt_of_lt_of_le (value_lt bytes) hle
  | indefinite major hmajor hsized => exact Nat.two_pow_pos 64

/-- The initial byte splits into the major type and the additional information. -/
theorem initialByte_split (major ai : Nat) (hmajor : major < 8) (hai : ai < 32) :
    (UInt8.ofNat (major * 32 + ai)).toNat >>> 5 = major ∧
      (UInt8.ofNat (major * 32 + ai)).toNat &&& 0x1f = ai := by
  have hlt : major * 32 + ai < 256 := by omega
  have htoNat : (UInt8.ofNat (major * 32 + ai)).toNat = major * 32 + ai := by
    rw [UInt8.toNat_ofNat', Nat.mod_eq_of_lt hlt]
  rw [htoNat]
  constructor
  · rw [Nat.shiftRight_eq_div_pow]
    omega
  · show (major * 32 + ai) &&& (2 ^ 5 - 1) = ai
    rw [Nat.and_two_pow_sub_one_eq_mod]
    omega

theorem initialByte_join (b : UInt8) :
    UInt8.ofNat (b.toNat >>> 5 * 32 + (b.toNat &&& 0x1f)) = b := by
  have hand : b.toNat &&& 0x1f = b.toNat % 32 := Nat.and_two_pow_sub_one_eq_mod b.toNat 5
  have hjoin : b.toNat >>> 5 * 32 + (b.toNat &&& 0x1f) = b.toNat := by
    rw [hand, Nat.shiftRight_eq_div_pow]
    omega
  rw [hjoin, UInt8.ofNat_toNat]

theorem initialByte_bounds (b : UInt8) : b.toNat >>> 5 < 8 ∧ b.toNat &&& 0x1f < 32 := by
  have hb := b.toNat_lt
  have hand : b.toNat &&& 0x1f = b.toNat % 32 := Nat.and_two_pow_sub_one_eq_mod b.toNat 5
  rw [hand, Nat.shiftRight_eq_div_pow]
  omega

variable {b : UInt8}

/-- The initial byte of a head. -/
theorem HeadBytes.first (h : HeadBytes head (b :: bytes)) :
    b.toNat >>> 5 = head.major ∧ b.toNat &&& 0x1f = head.ai := by
  cases h with
  | inline major arg hmajor harg => exact initialByte_split major arg hmajor (by omega)
  | sized major ai bytes hmajor hai hai' hlength =>
    exact initialByte_split major ai hmajor (by omega)
  | indefinite major hmajor hsized => exact initialByte_split major 31 hmajor (by omega)

variable {ai : Nat}

namespace CborDeserializer

@[simp] theorem after_zero (self : CborDeserializer) : self.after 0 = self := by
  simp [after]

@[simp] theorem after_after (m n : Nat) (self : CborDeserializer) :
    (self.after m).after n = self.after (m + n) := by
  simp only [after, drop_drop, Nat.add_assoc]

section

variable (n : Nat)
include n

section

variable (self : CborDeserializer)
include self

@[simp] theorem rest_after :
    (self.after n).rest = self.rest.drop n := rfl

@[simp] theorem pos_after :
    (self.after n).pos = self.pos + n := rfl

@[simp] theorem depth_after :
    (self.after n).depth = self.depth := rfl

@[simp] theorem maxDepth_after :
    (self.after n).maxDepth = self.maxDepth := rfl

@[simp] theorem strict_after :
    (self.after n).strict = self.strict := rfl

@[simp] theorem reads_after :
    (self.after n).reads = self.reads := rfl

end

end

variable {self : CborDeserializer} {bytes next : List UInt8}

theorem rest_after_append
    (h : self.rest = bytes ++ next) : (self.after bytes.length).rest = next := by
  rw [rest_after, h, drop_left]

variable {self s : CborDeserializer}

theorem nextByte_eq_ok :
    self.nextByte = .ok (b, s) ↔ ∃ next, self.rest = b :: next ∧ s = self.after 1 := by
  unfold nextByte
  cases hrest : self.rest with
  | nil => simp
  | cons c next =>
    constructor
    · intro h
      cases h
      exact ⟨next, rfl, rfl⟩
    · rintro ⟨_, hcons, rfl⟩
      cases hcons
      rfl

theorem peekByte_eq_ok :
    self.peekByte = .ok b ↔ ∃ next, self.rest = b :: next := by
  unfold peekByte
  cases hrest : self.rest with
  | nil => simp
  | cons c next =>
    constructor
    · intro h
      cases h
      exact ⟨next, rfl⟩
    · rintro ⟨_, hcons⟩
      cases hcons
      rfl

theorem foldl_or_eq (v : Nat) (bytes : List UInt8) :
    bytes.foldl (fun v b => v <<< 8 ||| b.toNat) v =
      bytes.foldl (fun v b => v * 256 + b.toNat) v := by
  induction bytes generalizing v with
  | nil => rfl
  | cons b bytes ih =>
    have hor : v <<< 8 ||| b.toNat = v * 256 + b.toNat := by
      rw [← Nat.shiftLeft_add_eq_or_of_lt (b := b.toNat) (i := 8) b.toNat_lt, Nat.shiftLeft_eq]
    rw [foldl_cons, foldl_cons, hor]
    exact ih _

theorem readBe_eq_ok {n v : Nat} : self.readBe n = .ok (v, s) ↔
      ∃ bytes next, self.rest = bytes ++ next ∧ bytes.length = n ∧
        v = value bytes ∧ s = self.after n := by
  unfold readBe
  by_cases hn : n > self.rest.length
  · rw [if_pos hn]
    constructor
    · intro h
      cases h
    · rintro ⟨bytes, next, hrest, hlength, _, _⟩
      rw [hrest, length_append] at hn
      omega
  · rw [if_neg hn, foldl_or_eq]
    constructor
    · intro h
      cases h
      refine ⟨self.rest.take n, self.rest.drop n, (take_append_drop n _).symm, ?_, rfl, rfl⟩
      rw [length_take]
      omega
    · rintro ⟨bytes, next, hrest, rfl, rfl, rfl⟩
      rw [hrest, take_left]
      rfl

theorem readArg_inline (h : ¬ (ai1Byte ≤ ai ∧ ai ≤ ai8Byte))
    (self : CborDeserializer) : self.readArg ai = .ok (ai, self) ∧ argWidth ai = 0 := by
  simp only [ai1Byte, ai8Byte] at h
  have h24 : ai ≠ 24 := by omega
  have h25 : ai ≠ 25 := by omega
  have h26 : ai ≠ 26 := by omega
  have h27 : ai ≠ 27 := by omega
  simp [readArg, argWidth, ai1Byte, ai2Byte, ai4Byte, ai8Byte, h24, h25, h26, h27]

theorem readArg_sized (h : ai1Byte ≤ ai ∧ ai ≤ ai8Byte)
    (self : CborDeserializer) : self.readArg ai = self.readBe (argWidth ai) := by
  have hcases : ai = 24 ∨ ai = 25 ∨ ai = 26 ∨ ai = 27 := by
    simp only [ai1Byte, ai8Byte] at h
    omega
  rcases hcases with rfl | rfl | rfl | rfl
  · simp only [readArg, argWidth, ai1Byte, if_true, nextByte, readBe]
    cases hrest : self.rest with
    | nil => rfl
    | cons b next =>
      have hlength : ¬ 1 > (b :: next).length := by simp
      rw [if_neg hlength]
      show Except.ok (b.toNat, self.after 1) = Except.ok (0 <<< 8 ||| b.toNat, self.after 1)
      simp
  · rfl
  · rfl
  · rfl

/-- A head's argument is the big-endian number in the bytes after its initial
byte, or the additional information itself. -/
theorem readArg_eq_ok {ai v : Nat} : self.readArg ai = .ok (v, s) ↔
      ∃ bytes next, self.rest = bytes ++ next ∧ bytes.length = argWidth ai ∧
        v = (if ai1Byte ≤ ai ∧ ai ≤ ai8Byte then value bytes else ai) ∧
        s = self.after (argWidth ai) := by
  by_cases h : ai1Byte ≤ ai ∧ ai ≤ ai8Byte
  · rw [readArg_sized h, readBe_eq_ok]
    simp only [if_pos h]
  · obtain ⟨hread, hwidth⟩ := readArg_inline h self
    rw [hread, hwidth]
    simp only [if_neg h, length_eq_zero_iff, after_zero]
    constructor
    · intro heq
      cases heq
      exact ⟨[], self.rest, rfl, rfl, rfl, rfl⟩
    · rintro ⟨_, _, _, _, rfl, rfl⟩
      rfl

/-- What `readHead` does after an initial byte of a major type with an additional
information. -/
def headRest (major ai : Nat) (self : CborDeserializer) :
    Except DeserializeError (Head × CborDeserializer) :=
  if ai1Byte ≤ ai ∧ ai ≤ ai8Byte then do
    let (v, self) ← self.readArg ai
    return (⟨major, ai, v, false⟩, self)
  else if ai = aiIndefinite then
    if major = majorUint ∨ major = majorNint ∨ major = majorTag then
      .error ⟨.malformedInput, (self.pos : Int) - 1⟩
    else return (⟨major, ai, 0, true⟩, self)
  else if 28 ≤ ai ∧ ai ≤ 30 then .error ⟨.malformedInput, (self.pos : Int) - 1⟩
  else return (⟨major, ai, ai, false⟩, self)

variable {next : List UInt8}

theorem readHead_cons (h : self.rest = b :: next) :
    self.readHead = headRest (b.toNat >>> 5) (b.toNat &&& 0x1f) (self.after 1) :=
  bind_of_eq_ok (nextByte_eq_ok.mpr ⟨next, h, rfl⟩)

theorem headRest_sound {major ai : Nat} (hmajor : major < 8) (hai : ai < 32)
    (h : headRest major ai self = .ok (head, s)) :
    ∃ bytes next, self.rest = bytes ++ next ∧
      HeadBytes head (UInt8.ofNat (major * 32 + ai) :: bytes) ∧ s = self.after bytes.length := by
  unfold headRest at h
  split_ifs at h with hsized hindef hno hreserved
  · obtain ⟨⟨v, s'⟩, harg, hpure⟩ := bind_eq_ok.mp h
    cases hpure
    obtain ⟨bytes, next, hrest, hlength, hv, rfl⟩ := readArg_eq_ok.mp harg
    rw [if_pos hsized] at hv
    rw [hv, ← hlength]
    exact ⟨bytes, next, hrest, .sized major ai bytes hmajor hsized.1 hsized.2 hlength, rfl⟩
  · cases h
    rw [hindef]
    refine ⟨[], self.rest, rfl, .indefinite major hmajor ?_, (after_zero self).symm⟩
    simp only [majorUint, majorNint, majorTag] at hno
    omega
  · cases h
    have hinline : ai < 24 := by
      simp only [ai1Byte, ai8Byte, aiIndefinite] at hsized hindef
      omega
    exact ⟨[], self.rest, rfl, .inline major ai hmajor hinline, (after_zero self).symm⟩

theorem headRest_complete
    (h : HeadBytes head (b :: bytes)) (hrest : self.rest = bytes ++ next) :
    headRest (b.toNat >>> 5) (b.toNat &&& 0x1f) self = .ok (head, self.after bytes.length) := by
  cases h with
  | inline major arg hmajor harg =>
    obtain ⟨hhigh, hlow⟩ := initialByte_split major arg hmajor (by omega)
    have hsized : ¬ (24 ≤ arg ∧ arg ≤ 27) := by omega
    have hindef : arg ≠ 31 := by omega
    have hreserved : ¬ (28 ≤ arg ∧ arg ≤ 30) := by omega
    rw [hhigh, hlow, headRest]
    simp only [ai1Byte, ai8Byte, aiIndefinite, if_neg hsized, if_neg hindef, if_neg hreserved]
    rw [length_nil, after_zero]
    rfl
  | sized major ai bytes hmajor hai hai' hlength =>
    obtain ⟨hhigh, hlow⟩ := initialByte_split major ai hmajor (by omega)
    have harg : self.readArg ai = .ok (value bytes, self.after bytes.length) := by
      apply readArg_eq_ok.mpr
      refine ⟨bytes, next, hrest, hlength, ?_, by rw [hlength]⟩
      rw [if_pos ⟨hai, hai'⟩]
    rw [hhigh, hlow, headRest, if_pos ⟨hai, hai'⟩, bind_of_eq_ok harg]
    rfl
  | indefinite major hmajor hsized =>
    obtain ⟨hhigh, hlow⟩ := initialByte_split major 31 hmajor (by decide)
    have hallowed : ¬ (major = majorUint ∨ major = majorNint ∨ major = majorTag) := by
      simp only [majorUint, majorNint, majorTag]
      omega
    have hsized : ¬ (ai1Byte ≤ 31 ∧ 31 ≤ ai8Byte) := by decide
    have hindef : 31 = aiIndefinite := rfl
    rw [hhigh, hlow, headRest, if_neg hsized, if_pos hindef, if_neg hallowed]
    rw [length_nil, after_zero]
    rfl

/-- A definite head is its argument after its initial byte. -/
theorem readHead_of_definite (h : self.rest = b :: next) (hai : b.toNat &&& 0x1f ≤ ai8Byte) :
    self.readHead = (self.after 1).readArg (b.toNat &&& 0x1f) >>= fun arg =>
        .ok (⟨b.toNat >>> 5, b.toNat &&& 0x1f, arg.1, false⟩, arg.2) := by
  rw [readHead_cons h, headRest]
  generalize b.toNat &&& 0x1f = ai at hai
  by_cases hsized : ai1Byte ≤ ai ∧ ai ≤ ai8Byte
  · rw [if_pos hsized]
    rfl
  · have hinline : ai < 24 := by
      simp only [ai1Byte, ai8Byte] at hsized hai
      omega
    have hindef : ¬ ai = aiIndefinite := by
      simp only [aiIndefinite]
      omega
    rw [if_neg hsized, if_neg hindef, if_neg (by omega),
      bind_of_eq_ok (readArg_inline hsized (self.after 1)).1]
    rfl

/-- `readHead` accepts the encodings of heads, and passes over one. -/
theorem readHead_eq_ok : self.readHead = .ok (head, s) ↔
      ∃ bytes next, self.rest = bytes ++ next ∧ HeadBytes head bytes ∧
        s = self.after bytes.length := by
  constructor
  · intro h
    obtain ⟨⟨b, s'⟩, hbyte, _⟩ := bind_eq_ok.mp h
    obtain ⟨next, hrest, _⟩ := nextByte_eq_ok.mp hbyte
    obtain ⟨hmajor, hai⟩ := initialByte_bounds b
    rw [readHead_cons hrest] at h
    obtain ⟨bytes, next', hnext, hbytes, rfl⟩ := headRest_sound hmajor hai h
    rw [initialByte_join] at hbytes
    rw [rest_after, hrest, drop_one, tail_cons] at hnext
    refine ⟨b :: bytes, next', ?_, hbytes, ?_⟩
    · rw [hrest, hnext, cons_append]
    · rw [after_after, length_cons, Nat.add_comm]
  · rintro ⟨bytes, next, hrest, hbytes, rfl⟩
    cases bytes with
    | nil => exact absurd hbytes.length_pos (by simp)
    | cons b bytes =>
      rw [cons_append] at hrest
      have hnext : (self.after 1).rest = bytes ++ next := by
        rw [rest_after, hrest, drop_one, tail_cons]
      rw [readHead_cons hrest, headRest_complete hbytes hnext, after_after, length_cons,
        Nat.add_comm]

end CborDeserializer

/-- The additional information of the shortest head with an argument. -/
def headAi (arg : Nat) : Nat :=
  if arg < 24 then arg
  else if arg ≤ 0xff then ai1Byte
  else if arg ≤ 0xffff then ai2Byte
  else if arg ≤ 0xffffffff then ai4Byte
  else ai8Byte

theorem pushBe_eq_digits (value n : Nat) : pushBe value n = digits value n := by
  induction n with
  | zero => rfl
  | succ n ih =>
    rw [pushBe, digits, ih, Nat.shiftRight_eq_div_pow, Nat.mul_comm n 8, Nat.pow_mul]

theorem shiftLeft_or_eq (major ai : Nat) (hai : ai < 32) :
    major <<< 5 ||| ai = major * 32 + ai := by
  rw [← Nat.shiftLeft_add_eq_or_of_lt hai, Nat.shiftLeft_eq]

theorem headBytes_pushBe {major ai arg : Nat} (hmajor : major < 8) (hai : 24 ≤ ai)
    (hai' : ai ≤ 27) (harg : arg < 256 ^ argWidth ai) :
    HeadBytes ⟨major, ai, arg, false⟩ (UInt8.ofNat (major <<< 5 ||| ai) :: pushBe arg
      (argWidth ai)) := by
  have h := HeadBytes.sized major ai (pushBe arg (argWidth ai)) hmajor hai hai'
    (by rw [pushBe_eq_digits, length_digits])
  rw [pushBe_eq_digits, value_digits_of_lt harg] at h
  rw [shiftLeft_or_eq major ai (by omega), pushBe_eq_digits]
  exact h

/-- `writeHead` writes an encoding of a head with its argument. -/
theorem headBytes_writeHead {major arg : Nat} (hmajor : major < 8) (harg : arg < 2 ^ 64) :
    HeadBytes ⟨major, headAi arg, arg, false⟩ (writeHead major arg) := by
  simp only [writeHead, headAi]
  split_ifs with h24 h1 h2 h4
  · rw [shiftLeft_or_eq major arg (by omega)]
    exact .inline major arg hmajor h24
  · have hone : [UInt8.ofNat arg] = pushBe arg 1 := by simp [pushBe]
    rw [hone]
    apply headBytes_pushBe hmajor (by decide) (by decide)
    show arg < 256
    omega
  · apply headBytes_pushBe hmajor (by decide) (by decide)
    show arg < 256 ^ 2
    omega
  · apply headBytes_pushBe hmajor (by decide) (by decide)
    show arg < 256 ^ 4
    omega
  · apply headBytes_pushBe hmajor (by decide) (by decide)
    exact harg

theorem length_pushBe (value n : Nat) : (pushBe value n).length = n := by
  rw [pushBe_eq_digits, length_digits]

theorem argWidth_of_lt (h : ai < 24) : argWidth ai = 0 := by
  have h24 : ai ≠ 24 := by omega
  have h25 : ai ≠ 25 := by omega
  have h26 : ai ≠ 26 := by omega
  have h27 : ai ≠ 27 := by omega
  simp [argWidth, ai1Byte, ai2Byte, ai4Byte, ai8Byte, h24, h25, h26, h27]

theorem argWidth_headAi (arg : Nat) : argWidth (headAi arg) = if arg < 24 then 0
      else if arg ≤ 0xff then 1
      else if arg ≤ 0xffff then 2
      else if arg ≤ 0xffffffff then 4
      else 8 := by
  unfold headAi
  split_ifs with h24
  · exact argWidth_of_lt h24
  · rfl
  · rfl
  · rfl
  · rfl

theorem length_writeHead (major arg : Nat) :
    (writeHead major arg).length = 1 + argWidth (headAi arg) := by
  rw [argWidth_headAi]
  simp only [writeHead]
  split_ifs <;> rfl

/-- An argument that fits in `n` bytes is written in no more. -/
theorem argWidth_headAi_le {arg n : Nat} (hn : n = 1 ∨ n = 2 ∨ n = 4 ∨ n = 8)
    (h : arg < 256 ^ n) : argWidth (headAi arg) ≤ n := by
  rw [argWidth_headAi]
  rcases hn with rfl | rfl | rfl | rfl
  · have h1 : arg < 256 := h
    split_ifs <;> omega
  · have h2 : arg < 65536 := h
    split_ifs <;> omega
  · have h4 : arg < 4294967296 := h
    split_ifs <;> omega
  · split_ifs <;> decide

/-- No encoding of a head with an argument is shorter than what `writeHead`
writes. -/
theorem writeHead_shortest (h : HeadBytes head bytes)
    (hdefinite : head.indef = false) : (writeHead head.major head.arg).length ≤ bytes.length := by
  rw [length_writeHead]
  cases h with
  | inline major arg hmajor harg =>
    show 1 + argWidth (headAi arg) ≤ 1
    rw [argWidth_headAi, if_pos harg]
  | sized major ai bytes hmajor hai hai' hlength =>
    have hwidth : argWidth ai = 1 ∨ argWidth ai = 2 ∨ argWidth ai = 4 ∨ argWidth ai = 8 := by
      have hcases : ai = 24 ∨ ai = 25 ∨ ai = 26 ∨ ai = 27 := by omega
      rcases hcases with rfl | rfl | rfl | rfl <;> decide
    have hvalue := value_lt bytes
    rw [hlength] at hvalue
    rw [length_cons, hlength, Nat.add_comm]
    exact Nat.succ_le_succ (argWidth_headAi_le hwidth hvalue)
  | indefinite major hmajor hsized => cases hdefinite

end Wado.Cbor
