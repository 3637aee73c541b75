/-
Reading integers: every integer type is read from all encodings of an integer, and
from nothing else.
-/
import Wado.Cbor.IntBytes

namespace Wado.Cbor

open ExceptSteps List BigEndian

namespace CborDeserializer

variable {head : Head} {self s : CborDeserializer}

theorem readBignum_sound {tags next : List UInt8} {mag : Nat}
    (hrest : self.rest = tags ++ next)
    (htags : Untagged isPassthroughTag head tags) (hmajor : head.major = majorTag)
    (htag : head.arg = tagBignumPos ∨ head.arg = tagBignumNeg)
    (hmag : (self.after tags.length).readBignumMag = .ok (mag, s)) :
    ∃ bytes next, self.rest = bytes ++ next ∧ IntBytes (bignumOf head.arg mag) bytes ∧
      s = self.after bytes.length := by
  obtain ⟨body, bytes, chunks, string, next', hrest', hbytes, hbody, hstring, hwidth, rfl, rfl⟩ :=
    readBignumMag_eq_ok.mp hmag
  rw [rest_after_append hrest] at hrest'
  refine ⟨tags ++ (bytes ++ string), next', ?_, ?_, ?_⟩
  · rw [hrest, hrest']
    simp only [append_assoc]
  · exact .bignum htags hmajor htag hbytes hbody hstring (.inl hwidth)
  · rw [after_after, ← length_append]

variable {v : Int}

/-- What a signed integer is read from encodes it. -/
theorem readSignedI128_sound (h : self.readSignedI128 = .ok (v, s)) :
    ∃ bytes next, self.rest = bytes ++ next ∧ IntBytes v bytes ∧ s = self.after bytes.length := by
  obtain ⟨⟨head, s₁⟩, hread, h⟩ := bind_eq_ok.mp h
  obtain ⟨tags, next, hrest, htags, rfl⟩ := readUntagged_eq_ok.mp hread
  dsimp only at h
  split_ifs at h with huint hnint hpos hneg
  · cases h
    exact ⟨tags, next, hrest, .uint htags huint, rfl⟩
  · cases h
    exact ⟨tags, next, hrest, .nint htags hnint, rfl⟩
  · obtain ⟨⟨mag, s₂⟩, hmag, h⟩ := bind_eq_ok.mp h
    have hbignum := readBignum_sound hrest htags hpos.1 (.inl hpos.2) hmag
    rw [hpos.2] at hbignum
    dsimp only at h
    split_ifs at h with hmax
    cases h
    exact hbignum
  · obtain ⟨⟨mag, s₂⟩, hmag, h⟩ := bind_eq_ok.mp h
    have hbignum := readBignum_sound hrest htags hneg.1 (.inr hneg.2) hmag
    rw [hneg.2] at hbignum
    dsimp only at h
    split_ifs at h with hmax
    cases h
    exact hbignum

/-- What an unsigned integer is read from encodes it. -/
theorem readUnsignedU128_sound (h : self.readUnsignedU128 = .ok (v, s)) :
    ∃ bytes next, self.rest = bytes ++ next ∧ IntBytes v bytes ∧ s = self.after bytes.length := by
  obtain ⟨⟨head, s₁⟩, hread, h⟩ := bind_eq_ok.mp h
  obtain ⟨tags, next, hrest, htags, rfl⟩ := readUntagged_eq_ok.mp hread
  dsimp only at h
  split_ifs at h with huint hnint hpos hneg
  · cases h
    exact ⟨tags, next, hrest, .uint htags huint, rfl⟩
  · obtain ⟨⟨mag, s₂⟩, hmag, h⟩ := bind_eq_ok.mp h
    have hbignum := readBignum_sound hrest htags hpos.1 (.inl hpos.2) hmag
    rw [hpos.2] at hbignum
    cases h
    exact hbignum

section

variable (h : self.readUntagged isPassthroughTag = .ok (head, s))
include h

/-- The branch of `readSignedI128` after the head. -/
theorem readSignedI128_of_head :
    self.readSignedI128 = if head.major = majorUint then .ok ((head.arg : Int), s)
      else if head.major = majorNint then .ok (-1 - (head.arg : Int), s)
      else if head.major = majorTag ∧ head.arg = tagBignumPos then
        s.readBignumMag >>= fun mag =>
          if mag.1 ≤ i128Max then .ok ((mag.1 : Int), mag.2) else .error ⟨.overflow, mag.2.pos⟩
      else if head.major = majorTag ∧ head.arg = tagBignumNeg then
        s.readBignumMag >>= fun mag =>
          if mag.1 ≤ i128Max then .ok (-1 - (mag.1 : Int), mag.2) else .error ⟨.overflow, mag.2.pos⟩
      else .error ⟨.unexpectedType, s.pos⟩ := by
  rw [readSignedI128, bind_of_eq_ok h]
  rfl

theorem readUnsignedU128_of_head :
    self.readUnsignedU128 = if head.major = majorUint then .ok ((head.arg : Int), s)
      else if head.major = majorNint then .error ⟨.overflow, s.pos⟩
      else if head.major = majorTag ∧ head.arg = tagBignumPos then
        s.readBignumMag >>= fun mag => .ok ((mag.1 : Int), mag.2)
      else if head.major = majorTag ∧ head.arg = tagBignumNeg then .error ⟨.overflow, s.pos⟩
      else .error ⟨.unexpectedType, s.pos⟩ := by
  rw [readUnsignedU128, bind_of_eq_ok h]
  rfl

end

/-- What a reader of integers does at an encoding of `v`, its range being from
`low` to `high`: it reads `v`, or overflows. -/
def ReadsInt (low high : Int) (read : Reader Int) : Prop :=
  ∀ (v : Int) (bytes next : List UInt8) (self : CborDeserializer), IntBytes v bytes →
    self.rest = bytes ++ next →
      (low ≤ v ∧ v ≤ high → read self = .ok (v, self.after bytes.length)) ∧
        (¬ (low ≤ v ∧ v ≤ high) → ∃ offset, read self = .error ⟨.overflow, offset⟩)

variable {self : CborDeserializer}

theorem readBignum_complete {body : Head} {tags bytes string next : List UInt8}
    {chunks : List (List UInt8)}
    (hrest : self.rest = tags ++ (bytes ++ string) ++ next) (hbytes : HeadBytes body bytes)
    (hmajor : body.major = majorBytes)
    (hstring : StringBody majorBytes body.arg body.indef chunks string)
    (hwidth : chunks.flatten.length ≤ 16 ∨ 2 ^ 128 ≤ value chunks.flatten) :
    value chunks.flatten < 2 ^ 128 ∧ (self.after tags.length).readBignumMag =
        .ok (value chunks.flatten, self.after (tags ++ (bytes ++ string)).length) ∨
      2 ^ 128 ≤ value chunks.flatten ∧
        ∃ offset, (self.after tags.length).readBignumMag = .error ⟨.overflow, offset⟩ := by
  rw [append_assoc] at hrest
  have hrest' := rest_after_append hrest
  by_cases hshort : chunks.flatten.length ≤ 16
  · left
    constructor
    · exact Nat.lt_of_lt_of_le (value_lt _) (Nat.pow_le_pow_right (by decide) hshort)
    · rw [length_append, ← after_after]
      exact readBignumMag_eq_ok.mpr
        ⟨body, bytes, chunks, string, next, hrest', hbytes, hmajor, hstring, hshort, rfl, rfl⟩
  · right
    exact ⟨hwidth.resolve_left hshort,
      readBignumMag_wide hrest' hbytes hmajor hstring (Nat.lt_of_not_le hshort)⟩

/-- A magnitude that is checked against the largest `i128`. -/
theorem bignum_checked {mag : Nat} {low high : Int}
    (hmag : mag < 2 ^ 128 ∧ self.readBignumMag = .ok (mag, s) ∨
      2 ^ 128 ≤ mag ∧ ∃ offset, self.readBignumMag = .error ⟨.overflow, offset⟩)
    (number : Nat → Int) (hrange : (mag ≤ i128Max ↔ low ≤ number mag ∧ number mag ≤ high)) :
    let read := self.readBignumMag >>= fun mag =>
      if mag.1 ≤ i128Max then .ok (number mag.1, mag.2) else .error ⟨.overflow, mag.2.pos⟩
    (low ≤ number mag ∧ number mag ≤ high → read = .ok (number mag, s)) ∧
      (¬ (low ≤ number mag ∧ number mag ≤ high) → ∃ offset, read = .error ⟨.overflow, offset⟩) := by
  intro read
  rw [← hrange]
  rcases hmag with ⟨_, hmag⟩ | ⟨hwide, offset, hmag⟩
  · have hread : read = if mag ≤ i128Max then .ok (number mag, s) else .error ⟨.overflow, s.pos⟩ :=
      bind_of_eq_ok hmag
    rw [hread]
    constructor
    · intro hle
      exact if_pos hle
    · intro hno
      exact ⟨_, if_neg hno⟩
  · constructor
    · intro hle
      simp only [i128Max] at hle
      omega
    · intro _
      exact ⟨offset, bind_of_eq_error hmag⟩

theorem readsInt_readSignedI128 : ReadsInt (-2 ^ 127) (2 ^ 127 - 1) readSignedI128 := by
  intro v bytes next self h hrest
  cases h with
  | uint htags hmajor =>
    have harg := htags.arg_lt
    rw [readSignedI128_of_head (readUntagged_eq_ok.mpr ⟨_, _, hrest, htags, rfl⟩), if_pos hmajor]
    constructor
    · intro _
      rfl
    · intro hno
      omega
  | nint htags hmajor =>
    have harg := htags.arg_lt
    have huint : ¬ majorNint = majorUint := by decide
    rw [readSignedI128_of_head (readUntagged_eq_ok.mpr ⟨_, _, hrest, htags, rfl⟩), hmajor,
      if_neg huint, if_pos rfl]
    constructor
    · intro _
      rfl
    · intro hno
      omega
  | bignum htags hmajor htag hbytes hbody hstring hwidth =>
    rename_i head body tags bytes string chunks
    have hread := readUntagged_eq_ok.mpr
      ⟨tags, _, (hrest.trans (append_assoc _ _ _)), htags, rfl⟩
    have huint : ¬ majorTag = majorUint := by decide
    have hnint : ¬ majorTag = majorNint := by decide
    have hmag := readBignum_complete hrest hbytes hbody hstring hwidth
    generalize value chunks.flatten = mag at hmag
    rw [readSignedI128_of_head hread, hmajor, if_neg huint, if_neg hnint]
    rcases htag with htag | htag
    · have hnumber : bignumOf head.arg mag = mag := by rw [htag]; rfl
      rw [if_pos ⟨rfl, htag⟩, hnumber]
      exact bignum_checked hmag (fun mag => (mag : Int)) (by simp only [i128Max]; omega)
    · have hnumber : bignumOf head.arg mag = -1 - (mag : Int) := by rw [htag]; rfl
      have hpos : ¬ (majorTag = majorTag ∧ head.arg = tagBignumPos) := by rw [htag]; decide
      rw [if_neg hpos, if_pos ⟨rfl, htag⟩, hnumber]
      exact bignum_checked hmag (fun mag => -1 - (mag : Int)) (by simp only [i128Max]; omega)

theorem readsInt_readUnsignedU128 : ReadsInt 0 (2 ^ 128 - 1) readUnsignedU128 := by
  intro v bytes next self h hrest
  cases h with
  | uint htags hmajor =>
    have harg := htags.arg_lt
    rw [readUnsignedU128_of_head (readUntagged_eq_ok.mpr ⟨_, _, hrest, htags, rfl⟩), if_pos hmajor]
    constructor
    · intro _
      rfl
    · intro hno
      omega
  | nint htags hmajor =>
    have huint : ¬ majorNint = majorUint := by decide
    rw [readUnsignedU128_of_head (readUntagged_eq_ok.mpr ⟨_, _, hrest, htags, rfl⟩), hmajor,
      if_neg huint, if_pos rfl]
    constructor
    · intro hrange
      omega
    · intro _
      exact ⟨_, rfl⟩
  | bignum htags hmajor htag hbytes hbody hstring hwidth =>
    rename_i head body tags bytes string chunks
    have hread := readUntagged_eq_ok.mpr
      ⟨tags, _, (hrest.trans (append_assoc _ _ _)), htags, rfl⟩
    have huint : ¬ majorTag = majorUint := by decide
    have hnint : ¬ majorTag = majorNint := by decide
    have hmag := readBignum_complete hrest hbytes hbody hstring hwidth
    generalize value chunks.flatten = mag at hmag
    rw [readUnsignedU128_of_head hread, hmajor, if_neg huint, if_neg hnint]
    rcases htag with htag | htag
    · have hnumber : bignumOf head.arg mag = mag := by rw [htag]; rfl
      rw [if_pos ⟨rfl, htag⟩, hnumber]
      rcases hmag with ⟨hfits, hmag⟩ | ⟨hwide, offset, hmag⟩
      · rw [bind_of_eq_ok hmag]
        constructor
        · intro _
          rfl
        · intro hno
          omega
      · constructor
        · intro hrange
          omega
        · intro _
          exact ⟨offset, bind_of_eq_error hmag⟩
    · have hnumber : bignumOf head.arg mag = -1 - (mag : Int) := by rw [htag]; rfl
      have hpos : ¬ (majorTag = majorTag ∧ head.arg = tagBignumPos) := by rw [htag]; decide
      rw [if_neg hpos, if_pos ⟨rfl, htag⟩, hnumber]
      constructor
      · intro hrange
        omega
      · intro _
        exact ⟨_, rfl⟩

variable {passes : Nat → Bool} {b : UInt8} {next : List UInt8}

/-- Reading a definite head at once, and looking through tags, find the same. -/
theorem readUntagged_of_readArg {arg : Nat} (hrest : self.rest = b :: next)
    (hmajor : b.toNat >>> 5 ≠ majorTag) (hai : b.toNat &&& 0x1f ≤ ai8Byte)
    (harg : (self.after 1).readArg (b.toNat &&& 0x1f) = .ok (arg, s)) :
    self.readUntagged passes = .ok (⟨b.toNat >>> 5, b.toNat &&& 0x1f, arg, false⟩, s) := by
  rw [readUntagged_of_definite hrest hmajor hai, bind_of_eq_ok harg]

theorem readUntagged_of_readArg_error {e : DeserializeError}
    (hrest : self.rest = b :: next) (hmajor : b.toNat >>> 5 ≠ majorTag)
    (hai : b.toNat &&& 0x1f ≤ ai8Byte)
    (harg : (self.after 1).readArg (b.toNat &&& 0x1f) = .error e) :
    self.readUntagged passes = .error e := by
  rw [readUntagged_of_definite hrest hmajor hai, bind_of_eq_error harg]

/-- The fast path of `deserializeSigned` decodes as the slow path does. -/
theorem deserializeSigned_eq (max : Nat) (self : CborDeserializer) : deserializeSigned max self =
      self.readSignedI128 >>= fun read =>
        if -1 - (max : Int) ≤ read.1 ∧ read.1 ≤ max then .ok read
        else .error ⟨.overflow, self.pos⟩ := by
  cases hrest : self.rest with
  | nil =>
    have hpeek : self.peekByte = .error self.eof := by rw [peekByte, hrest]
    rw [deserializeSigned, bind_of_eq_error hpeek, readSignedI128,
      bind_of_eq_error (readUntagged_of_nil hrest)]
    rfl
  | cons b next =>
    rw [deserializeSigned, bind_of_eq_ok (peekByte_of_rest hrest)]
    dsimp only
    by_cases hfast : b.toNat &&& 0x1f ≤ ai8Byte ∧
        (b.toNat >>> 5 = majorUint ∨ b.toNat >>> 5 = majorNint)
    · have hmajor : b.toNat >>> 5 ≠ majorTag := by
        rcases hfast.2 with h | h
        · rw [h]
          decide
        · rw [h]
          decide
      rw [if_pos hfast]
      cases harg : (self.after 1).readArg (b.toNat &&& 0x1f) with
      | error e =>
        rw [readSignedI128,
          bind_of_eq_error (readUntagged_of_readArg_error hrest hmajor hfast.1 harg)]
        rfl
      | ok arg =>
        obtain ⟨arg, s⟩ := arg
        rw [bind_of_eq_ok rfl,
          readSignedI128_of_head (readUntagged_of_readArg hrest hmajor hfast.1 harg)]
        dsimp only
        rcases hfast.2 with h | h
        · rw [if_pos h, if_pos h]
          have hrange : arg ≤ max ↔ -1 - (max : Int) ≤ arg ∧ (arg : Int) ≤ max := by omega
          rw [bind_of_eq_ok rfl]
          simp only [hrange]
          rfl
        · have huint : ¬ b.toNat >>> 5 = majorUint := by
            rw [h]
            decide
          have hrange : arg ≤ max ↔
              -1 - (max : Int) ≤ -1 - (arg : Int) ∧ -1 - (arg : Int) ≤ max := by omega
          rw [if_neg huint, if_neg huint, if_pos h, bind_of_eq_ok rfl]
          simp only [hrange]
          rfl
    · rw [if_neg hfast]
      rfl

/-- The fast path of an unsigned integer decodes as the slow path does, `fits`
being what it checks of the argument and `high` the largest value. -/
theorem unsigned_fast (hrest : self.rest = b :: next)
    (hfast : b.toNat &&& 0x1f ≤ ai8Byte ∧ b.toNat >>> 5 = majorUint) (high : Int) :
    self.readUnsignedU128 >>= (fun read =>
        if read.1 > high then .error ⟨.overflow, self.pos⟩ else .ok read) =
      (self.after 1).readArg (b.toNat &&& 0x1f) >>= fun arg =>
        if (arg.1 : Int) ≤ high then .ok ((arg.1 : Int), arg.2)
        else .error ⟨.overflow, self.pos⟩ := by
  have hmajor : b.toNat >>> 5 ≠ majorTag := by
    rw [hfast.2]
    decide
  cases harg : (self.after 1).readArg (b.toNat &&& 0x1f) with
  | error e =>
    rw [readUnsignedU128,
      bind_of_eq_error (readUntagged_of_readArg_error hrest hmajor hfast.1 harg)]
    rfl
  | ok arg =>
    obtain ⟨arg, s⟩ := arg
    rw [readUnsignedU128_of_head (readUntagged_of_readArg hrest hmajor hfast.1 harg),
      if_pos hfast.2, bind_of_eq_ok rfl, bind_of_eq_ok rfl]
    dsimp only
    by_cases hle : (arg : Int) ≤ high
    · rw [if_pos hle, if_neg (by omega)]
    · rw [if_neg hle, if_pos (by omega)]

theorem deserializeU32_eq (self : CborDeserializer) : deserializeU32 self =
      self.readUnsignedU128 >>= fun read =>
        if read.1 > 2 ^ 32 - 1 then .error ⟨.overflow, self.pos⟩ else .ok read := by
  cases hrest : self.rest with
  | nil =>
    have hpeek : self.peekByte = .error self.eof := by rw [peekByte, hrest]
    rw [deserializeU32, bind_of_eq_error hpeek, readUnsignedU128,
      bind_of_eq_error (readUntagged_of_nil hrest)]
    rfl
  | cons b next =>
    rw [deserializeU32, bind_of_eq_ok (peekByte_of_rest hrest)]
    dsimp only
    by_cases hfast : b.toNat &&& 0x1f ≤ ai8Byte ∧ b.toNat >>> 5 = majorUint
    · rw [if_pos hfast, unsigned_fast hrest hfast]
      congr 1
      funext arg
      have hrange : arg.1 ≤ 2 ^ 32 - 1 ↔ (arg.1 : Int) ≤ 2 ^ 32 - 1 := by omega
      simp only [hrange]
      rfl
    · rw [if_neg hfast]
      rfl

theorem deserializeU64_eq (self : CborDeserializer) : deserializeU64 self =
      self.readUnsignedU128 >>= fun read =>
        if read.1 > u64Max then .error ⟨.overflow, self.pos⟩ else .ok read := by
  cases hrest : self.rest with
  | nil =>
    have hpeek : self.peekByte = .error self.eof := by rw [peekByte, hrest]
    rw [deserializeU64, bind_of_eq_error hpeek, readUnsignedU128,
      bind_of_eq_error (readUntagged_of_nil hrest)]
    rfl
  | cons b next =>
    rw [deserializeU64, bind_of_eq_ok (peekByte_of_rest hrest)]
    dsimp only
    by_cases hfast : b.toNat &&& 0x1f ≤ ai8Byte ∧ b.toNat >>> 5 = majorUint
    · rw [if_pos hfast, unsigned_fast hrest hfast]
      cases harg : (self.after 1).readArg (b.toNat &&& 0x1f) with
      | error e => rfl
      | ok arg =>
        obtain ⟨arg, s⟩ := arg
        have hhead := readHead_of_definite hrest hfast.1
        rw [bind_of_eq_ok harg] at hhead
        obtain ⟨bytes, next', _, hbytes, _⟩ := readHead_eq_ok.mp hhead
        have hle : (arg : Int) ≤ u64Max := by
          have hlt : arg < 2 ^ 64 := hbytes.arg_lt
          simp only [u64Max]
          omega
        rw [bind_of_eq_ok rfl, bind_of_eq_ok rfl]
        dsimp only
        rw [if_pos hle]
        rfl
    · rw [if_neg hfast]
      rfl

section Checked

variable {low high low' high' : Int} {read checked : Reader Int}

/-- What checks the range of an integer that another reader has read. -/
structure Checks (low high : Int) (read checked : Reader Int) : Prop where
  error {self : CborDeserializer} {e : DeserializeError} (h : read self = .error e) :
    checked self = .error e
  inside {self s : CborDeserializer} {v : Int} (h : read self = .ok (v, s))
    (hrange : low ≤ v ∧ v ≤ high) : checked self = .ok (v, s)
  outside {self s : CborDeserializer} {v : Int} (h : read self = .ok (v, s))
    (hrange : ¬ (low ≤ v ∧ v ≤ high)) : ∃ offset, checked self = .error ⟨.overflow, offset⟩

theorem Checks.readsInt (h : Checks low high read checked) (hread : ReadsInt low' high' read)
    (hlow : low' ≤ low) (hhigh : high ≤ high') : ReadsInt low high checked := by
  intro v bytes next self hbytes hrest
  obtain ⟨hinside, houtside⟩ := hread v bytes next self hbytes hrest
  by_cases hwide : low' ≤ v ∧ v ≤ high'
  · exact ⟨h.inside (hinside hwide), h.outside (hinside hwide)⟩
  · constructor
    · intro hrange
      omega
    · intro _
      obtain ⟨offset, herror⟩ := houtside hwide
      exact ⟨offset, h.error herror⟩

theorem Checks.sound (h : Checks low high read checked)
    (hok : checked self = .ok (v, s)) : read self = .ok (v, s) ∧ low ≤ v ∧ v ≤ high := by
  cases hread : read self with
  | error e =>
    rw [h.error hread] at hok
    cases hok
  | ok got =>
    obtain ⟨v', s'⟩ := got
    by_cases hrange : low ≤ v' ∧ v' ≤ high
    · rw [h.inside hread hrange] at hok
      cases hok
      exact ⟨rfl, hrange⟩
    · obtain ⟨offset, herror⟩ := h.outside hread hrange
      rw [herror] at hok
      cases hok

theorem checks_deserializeSigned (max : Nat) :
    Checks (-1 - (max : Int)) max readSignedI128 (deserializeSigned max) where
  error h := by rw [deserializeSigned_eq, bind_of_eq_error h]
  inside h hrange := by
    rw [deserializeSigned_eq, bind_of_eq_ok h]
    exact if_pos hrange
  outside h hrange := by
    rw [deserializeSigned_eq, bind_of_eq_ok h]
    exact ⟨_, if_neg hrange⟩

end Checked

/-- What is read from an encoding of an integer lies in the reader's range. -/
theorem ReadsInt.range {low high : Int} {read : Reader Int} (h : ReadsInt low high read)
    {bytes next : List UInt8} (hrest : self.rest = bytes ++ next) (hbytes : IntBytes v bytes)
    (hok : read self = .ok (v, s)) : low ≤ v ∧ v ≤ high := by
  by_contra hno
  obtain ⟨offset, herror⟩ := (h v bytes next self hbytes hrest).2 hno
  rw [herror] at hok
  cases hok

theorem readUnsignedU128_range
    (h : self.readUnsignedU128 = .ok (v, s)) : 0 ≤ v ∧ v ≤ 2 ^ 128 - 1 := by
  obtain ⟨bytes, next, hrest, hbytes, _⟩ := readUnsignedU128_sound h
  exact readsInt_readUnsignedU128.range hrest hbytes h

/-- An unsigned integer that is checked against its largest value alone. -/
theorem checks_unsigned {high : Int} {checked : Reader Int}
    (heq : ∀ self : CborDeserializer, checked self = self.readUnsignedU128 >>= fun read =>
      if read.1 > high then .error ⟨.overflow, self.pos⟩ else .ok read) :
    Checks 0 high readUnsignedU128 checked where
  error h := by rw [heq, bind_of_eq_error h]
  inside h hrange := by
    rw [heq, bind_of_eq_ok h]
    exact if_neg (by omega)
  outside h hrange := by
    have hpos := (readUnsignedU128_range h).1
    rw [heq, bind_of_eq_ok h]
    exact ⟨_, if_pos (by omega)⟩

theorem checks_deserializeNarrow (t : IntTy) (wide : Reader Int) :
    Checks t.min t.max wide (deserializeNarrow t wide) where
  error h := by rw [deserializeNarrow, bind_of_eq_error h]
  inside h hrange := by
    rw [deserializeNarrow, bind_of_eq_ok h]
    exact if_neg (by omega)
  outside h hrange := by
    rw [deserializeNarrow, bind_of_eq_ok h]
    exact ⟨_, if_pos (by omega)⟩

theorem checks_deserializeI32 :
    Checks (-2 ^ 31) (2 ^ 31 - 1) readSignedI128 deserializeI32 := by
  have hlow : -1 - ((2 ^ 31 - 1 : Nat) : Int) = -2 ^ 31 := by decide
  have hhigh : ((2 ^ 31 - 1 : Nat) : Int) = 2 ^ 31 - 1 := by decide
  rw [← hlow, ← hhigh]
  exact checks_deserializeSigned (2 ^ 31 - 1)

theorem checks_deserializeI64 :
    Checks (-2 ^ 63) (2 ^ 63 - 1) readSignedI128 deserializeI64 := by
  have hlow : -1 - ((2 ^ 63 - 1 : Nat) : Int) = -2 ^ 63 := by decide
  have hhigh : ((2 ^ 63 - 1 : Nat) : Int) = 2 ^ 63 - 1 := by decide
  rw [← hlow, ← hhigh]
  exact checks_deserializeSigned (2 ^ 63 - 1)

theorem checks_deserializeU32 : Checks 0 (2 ^ 32 - 1) readUnsignedU128 deserializeU32 :=
  checks_unsigned deserializeU32_eq

theorem checks_deserializeU64 : Checks 0 (2 ^ 64 - 1) readUnsignedU128 deserializeU64 :=
  checks_unsigned deserializeU64_eq

theorem readsInt_deserializeI32 : ReadsInt (-2 ^ 31) (2 ^ 31 - 1) deserializeI32 :=
  checks_deserializeI32.readsInt readsInt_readSignedI128 (by decide) (by decide)

theorem readsInt_deserializeU32 : ReadsInt 0 (2 ^ 32 - 1) deserializeU32 :=
  checks_deserializeU32.readsInt readsInt_readUnsignedU128 (by decide) (by decide)

/-- An integer of any type is read from all of its encodings, or overflows. -/
theorem readsInt_deserializeInt (t : IntTy) : ReadsInt t.min t.max (deserializeInt t) := by
  have hnarrow (t : IntTy) (wide : Reader Int) := checks_deserializeNarrow t wide
  cases t with
  | i8 => exact (hnarrow .i8 _).readsInt readsInt_deserializeI32 (by decide) (by decide)
  | i16 => exact (hnarrow .i16 _).readsInt readsInt_deserializeI32 (by decide) (by decide)
  | i32 => exact readsInt_deserializeI32
  | i64 => exact checks_deserializeI64.readsInt readsInt_readSignedI128 (by decide) (by decide)
  | u8 => exact (hnarrow .u8 _).readsInt readsInt_deserializeU32 (by decide) (by decide)
  | u16 => exact (hnarrow .u16 _).readsInt readsInt_deserializeU32 (by decide) (by decide)
  | u32 => exact readsInt_deserializeU32
  | u64 => exact checks_deserializeU64.readsInt readsInt_readUnsignedU128 (by decide) (by decide)
  | i128 => exact readsInt_readSignedI128
  | u128 => exact readsInt_readUnsignedU128

/-- What an integer of a type is read from encodes it, and the type has it. -/
theorem deserializeInt_sound {t : IntTy} (h : deserializeInt t self = .ok (v, s)) :
    ∃ bytes next, self.rest = bytes ++ next ∧ IntBytes v bytes ∧
      s = self.after bytes.length ∧ t.min ≤ v ∧ v ≤ t.max := by
  have hsigned (h : self.readSignedI128 = .ok (v, s)) := readSignedI128_sound h
  have hunsigned (h : self.readUnsignedU128 = .ok (v, s)) := readUnsignedU128_sound h
  have hbytes : ∃ bytes next, self.rest = bytes ++ next ∧ IntBytes v bytes ∧
      s = self.after bytes.length := by
    cases t with
    | i8 | i16 =>
      exact hsigned (checks_deserializeI32.sound ((checks_deserializeNarrow _ _).sound h).1).1
    | i32 => exact hsigned (checks_deserializeI32.sound h).1
    | i64 => exact hsigned (checks_deserializeI64.sound h).1
    | u8 | u16 =>
      exact hunsigned (checks_deserializeU32.sound ((checks_deserializeNarrow _ _).sound h).1).1
    | u32 => exact hunsigned (checks_deserializeU32.sound h).1
    | u64 => exact hunsigned (checks_deserializeU64.sound h).1
    | i128 => exact hsigned h
    | u128 => exact hunsigned h
  obtain ⟨bytes, next, hrest, hbytes, hs⟩ := hbytes
  exact ⟨bytes, next, hrest, hbytes, hs, (readsInt_deserializeInt t).range hrest hbytes h⟩

end CborDeserializer

end Wado.Cbor
