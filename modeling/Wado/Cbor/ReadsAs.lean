/-
What a reader makes of the bytes that a serializer wrote: the scalars.
-/
import Wado.Cbor.Boundary
import Wado.Cbor.ScalarRead

namespace Wado

namespace Cbor

open ExceptSteps CborDeserializer List BigEndian

/-- A limit of `maxDepth` leaves room for `nesting` levels more.  The largest `i32` is no
limit at all. -/
def Room (depth maxDepth : Int) (nesting : Nat) : Prop :=
  2 ^ 31 - 1 ≤ maxDepth ∨ 0 ≤ depth ∧ depth + nesting ≤ maxDepth

/-- `s` comes of `start` by reading `bytes`, the input before `next`. -/
structure Passed (start s : CborDeserializer) (bytes next : List UInt8) : Prop where
  rest : s.rest = next
  pos : s.pos = start.pos + bytes.length
  maxDepth : s.maxDepth = start.maxDepth

/-- At `bytes`, the reader returns `v`, and reads no more than them. -/
def ReadsAs {α : Type} (read : Reader α) (nesting : Nat) (bytes : List UInt8) (v : α) : Prop :=
  ∀ (self : CborDeserializer) (next : List UInt8), self.rest = bytes ++ next →
    Room self.depth self.maxDepth nesting → ∃ s, read self = .ok (v, s) ∧ Passed self s bytes next

theorem passed_after {self : CborDeserializer} {bytes next : List UInt8}
    (hrest : self.rest = bytes ++ next) : Passed self (self.after bytes.length) bytes next :=
  ⟨rest_after_append hrest, rfl, rfl⟩

theorem Passed.trans {self s t : CborDeserializer} {bytes bytes' next next' : List UInt8}
    (h : Passed self s bytes next) (h' : Passed s t bytes' next') :
    Passed self t (bytes ++ bytes') next' := by
  refine ⟨h'.rest, ?_, h'.maxDepth.trans h.maxDepth⟩
  rw [h'.pos, h.pos, length_append, Nat.add_assoc]

theorem level_le (depth : Int) : level depth ≤ 2 ^ 31 - 1 := by
  unfold level
  omega

variable {depth maxDepth : Int}

/-- Room for a level more is room for it at that level. -/
theorem Room.deeper {nesting : Nat} (h : Room depth maxDepth (nesting + 1)) :
    level depth ≤ maxDepth ∧ Room (level depth) maxDepth nesting := by
  by_cases hbig : 2 ^ 31 - 1 ≤ maxDepth
  · exact ⟨(level_le depth).trans hbig, .inl hbig⟩
  · obtain ⟨hpos, hle⟩ := h.resolve_left hbig
    have hlevel : level depth = depth + 1 := by
      unfold level
      omega
    rw [hlevel]
    exact ⟨by omega, .inr ⟨by omega, by omega⟩⟩

theorem Room.mono {nesting nesting' : Nat}
    (h : Room depth maxDepth nesting) (hle : nesting' ≤ nesting) :
    Room depth maxDepth nesting' := by
  rcases h with h | ⟨hpos, h⟩
  · exact .inl h
  · exact .inr ⟨hpos, by omega⟩

variable {v : Int} {bytes : List UInt8}

section Written

theorem untagged_writeHead {passes : Nat → Bool} {major arg : Nat} (hmajor : major < 8)
    (hno : major ≠ majorTag) (harg : arg < 2 ^ 64) :
    Untagged passes ⟨major, headAi arg, arg, false⟩ (writeHead major arg) :=
  .head (headBytes_writeHead hmajor harg) fun htag => hno htag.1

theorem value_stripZeros (n : Nat) (bytes : List UInt8) :
    value (stripZeros n bytes) = value bytes := by
  induction n generalizing bytes with
  | zero => rfl
  | succ n ih =>
    cases bytes with
    | nil => rfl
    | cons b bytes =>
      rw [stripZeros]
      split_ifs with hzero
      · rw [ih, hzero, value_cons]
        simp
      · rfl

theorem length_stripZeros_le (n : Nat) (bytes : List UInt8) :
    (stripZeros n bytes).length ≤ bytes.length := by
  induction n generalizing bytes with
  | zero => exact Nat.le_refl _
  | succ n ih =>
    cases bytes with
    | nil => exact Nat.le_refl _
    | cons b bytes =>
      rw [stripZeros]
      split_ifs with hzero
      · exact (ih bytes).trans (Nat.le_succ _)
      · exact Nat.le_refl _

/-- A bignum is written as an encoding of its number. -/
theorem intBytes_writeBignum {tag mag : Nat} (htag : tag = tagBignumPos ∨ tag = tagBignumNeg)
    (hmag : mag < 2 ^ 128) : IntBytes (bignumOf tag mag) (writeBignum tag mag) := by
  have htagHead : HeadBytes ⟨majorTag, headAi tag, tag, false⟩ (writeHead majorTag tag) := by
    apply headBytes_writeHead (by decide)
    rcases htag with rfl | rfl <;> decide
  have hstop : ¬ (majorTag = majorTag ∧ isPassthroughTag tag = true) := by
    rcases htag with rfl | rfl <;> decide
  have hwords : value (pushBe (mag / 2 ^ 64) 8 ++ pushBe (mag % 2 ^ 64) 8) = mag := by
    rw [value_append, length_pushBe, pushBe_eq_digits, pushBe_eq_digits,
      value_digits_of_lt (by omega), value_digits_of_lt (by omega)]
    omega
  have hvalue := (value_stripZeros 15 (pushBe (mag / 2 ^ 64) 8 ++ pushBe (mag % 2 ^ 64) 8)).trans
    hwords
  have hlength := length_stripZeros_le 15 (pushBe (mag / 2 ^ 64) 8 ++ pushBe (mag % 2 ^ 64) 8)
  rw [length_append, length_pushBe, length_pushBe] at hlength
  unfold writeBignum
  dsimp only
  generalize stripZeros 15 (pushBe (mag / 2 ^ 64) 8 ++ pushBe (mag % 2 ^ 64) 8) = bytes at *
  have hbytes : HeadBytes ⟨majorBytes, headAi bytes.length, bytes.length, false⟩
      (writeHead majorBytes bytes.length) :=
    headBytes_writeHead (by decide) (by omega)
  have h := IntBytes.bignum (.head htagHead hstop) rfl htag hbytes rfl (.definite rfl)
    (.inl (by simpa using hlength))
  rw [flatten_singleton, hvalue] at h
  rw [append_assoc]
  exact h

theorem intBytes_uint (h : 0 ≤ v ∧ v < 2 ^ 64) :
    IntBytes v (writeHead majorUint v.toNat) := by
  have hv : ((v.toNat : Nat) : Int) = v := Int.toNat_of_nonneg h.1
  have hhead : Untagged isPassthroughTag ⟨majorUint, headAi v.toNat, v.toNat, false⟩
      (writeHead majorUint v.toNat) :=
    untagged_writeHead (by decide) (by decide) (by omega)
  have hbytes := IntBytes.uint hhead rfl
  rw [hv] at hbytes
  exact hbytes

theorem intBytes_nint (h : -2 ^ 64 ≤ v ∧ v < 0) :
    IntBytes v (writeHead majorNint (-1 - v).toNat) := by
  have hv : -1 - (((-1 - v).toNat : Nat) : Int) = v := by omega
  have hhead : Untagged isPassthroughTag ⟨majorNint, headAi (-1 - v).toNat, (-1 - v).toNat, false⟩
      (writeHead majorNint (-1 - v).toNat) :=
    untagged_writeHead (by decide) (by decide) (by omega)
  have hbytes := IntBytes.nint hhead rfl
  rw [hv] at hbytes
  exact hbytes

theorem intBytes_bignumPos (h : 0 ≤ v ∧ v < 2 ^ 128) :
    IntBytes v (writeBignum tagBignumPos v.toNat) := by
  have hbytes := intBytes_writeBignum (.inl rfl : tagBignumPos = tagBignumPos ∨ _)
    (by omega : v.toNat < 2 ^ 128)
  have hv : bignumOf tagBignumPos v.toNat = v := Int.toNat_of_nonneg h.1
  rw [hv] at hbytes
  exact hbytes

theorem intBytes_bignumNeg (h : -2 ^ 128 ≤ v ∧ v < 0) :
    IntBytes v (writeBignum tagBignumNeg (-1 - v).toNat) := by
  have hbytes := intBytes_writeBignum (.inr rfl : _ ∨ tagBignumNeg = tagBignumNeg)
    (by omega : (-1 - v).toNat < 2 ^ 128)
  have hv : bignumOf tagBignumNeg (-1 - v).toNat = v := by
    show -1 - (((-1 - v).toNat : Nat) : Int) = v
    omega
  rw [hv] at hbytes
  exact hbytes

/-- What an integer is written as: a head where its magnitude is a `u64`, and a bignum
else. -/
inductive Written (v : Int) : List UInt8 → Prop where
  | uint (h : 0 ≤ v ∧ v < 2 ^ 64) : Written v (writeHead majorUint v.toNat)
  | nint (h : -2 ^ 64 ≤ v ∧ v < 0) : Written v (writeHead majorNint (-1 - v).toNat)
  | pos (h : 2 ^ 64 ≤ v ∧ v < 2 ^ 128) : Written v (writeBignum tagBignumPos v.toNat)
  | neg (h : -2 ^ 128 ≤ v ∧ v < -2 ^ 64) : Written v (writeBignum tagBignumNeg (-1 - v).toNat)

theorem written_writeIntI64 (h : -2 ^ 64 ≤ v ∧ v < 2 ^ 64) :
    Written v (writeIntI64 v) := by
  unfold writeIntI64
  split_ifs with hsign
  · exact .uint ⟨hsign, h.2⟩
  · exact .nint ⟨h.1, by omega⟩

theorem written_writeIntI128 (h : -2 ^ 127 ≤ v ∧ v ≤ 2 ^ 127 - 1) :
    Written v (writeIntI128 v) := by
  have hmax : u64Max = 2 ^ 64 - 1 := rfl
  unfold writeIntI128
  by_cases hsign : v ≥ 0
  · rw [if_pos hsign]
    dsimp only
    by_cases hsmall : v.toNat ≤ u64Max
    · rw [if_pos hsmall]
      exact .uint ⟨hsign, by omega⟩
    · rw [if_neg hsmall]
      exact .pos ⟨by omega, by omega⟩
  · rw [if_neg hsign]
    dsimp only
    by_cases hsmall : (-1 - v).toNat ≤ u64Max
    · rw [if_pos hsmall]
      exact .nint ⟨by omega, by omega⟩
    · rw [if_neg hsmall]
      exact .neg ⟨by omega, by omega⟩

theorem written_writeIntU128 (h : 0 ≤ v ∧ v ≤ 2 ^ 128 - 1) :
    Written v (writeIntU128 v) := by
  have hmax : u64Max = 2 ^ 64 - 1 := rfl
  unfold writeIntU128
  by_cases hsmall : v.toNat ≤ u64Max
  · rw [if_pos hsmall]
    exact .uint ⟨h.1, by omega⟩
  · rw [if_neg hsmall]
    exact .pos ⟨by omega, by omega⟩

theorem IntTy.written (t : IntTy) (h : t.min ≤ v ∧ v ≤ t.max) :
    Written v (t.write v) := by
  cases t with
  | i8 | i16 | i32 | i64 =>
    simp only [IntTy.min, IntTy.max] at h
    exact written_writeIntI64 ⟨by omega, by omega⟩
  | u8 | u16 | u32 | u64 =>
    simp only [IntTy.min, IntTy.max] at h
    exact .uint ⟨by omega, by omega⟩
  | i128 => exact written_writeIntI128 h
  | u128 => exact written_writeIntU128 h

/-- An integer of a type is written as an encoding of it. -/
theorem Written.intBytes (h : Written v bytes) :
    IntBytes v bytes := by
  cases h with
  | uint h => exact intBytes_uint h
  | nint h => exact intBytes_nint h
  | pos h => exact intBytes_bignumPos ⟨by omega, h.2⟩
  | neg h => exact intBytes_bignumNeg ⟨h.1, by omega⟩

/-- The bytes of a string are those of no other. -/
theorem tryFromUtf8_utf8 (s : String) : tryFromUtf8 (utf8 s) = some s := by
  have hbytes : (⟨(utf8 s).toArray⟩ : ByteArray) = s.toByteArray := rfl
  rw [tryFromUtf8, hbytes, String.fromUTF8?, dif_pos s.isValidUTF8]
  rfl

theorem utf8_injective {s t : String} (h : utf8 s = utf8 t) : s = t := by
  have hs := tryFromUtf8_utf8 s
  rw [h, tryFromUtf8_utf8] at hs
  exact (Option.some.inj hs).symm

end Written

section Scalars

theorem readsAs_int (t : IntTy) (hbytes : IntBytes v bytes) (h : t.min ≤ v ∧ v ≤ t.max) :
    ReadsAs (readScalar (deserializeInt t) (.int t)) 0 bytes (.int t v) := by
  intro self next hrest _
  have hread := (readsInt_deserializeInt t v bytes next self hbytes hrest).1 h
  exact ⟨_, bind_of_eq_ok hread, passed_after hrest⟩

theorem readsAs_bool (v : Bool) :
    ReadsAs (readScalar deserializeBool .bool) 0 (writeBool v) (.bool v) := by
  intro self next hrest _
  have hread : deserializeBool self = .ok (v, self.after 1) := by
    cases v with
    | false =>
      rw [deserializeBool, bind_of_eq_ok (peekByte_of_rest hrest), if_pos rfl]
      rfl
    | true =>
      rw [deserializeBool, bind_of_eq_ok (peekByte_of_rest hrest), if_neg (by decide), if_pos rfl]
      rfl
  have hlength : (writeBool v).length = 1 := by
    cases v <;> rfl
  have hpassed := passed_after hrest
  rw [hlength] at hpassed
  exact ⟨_, bind_of_eq_ok hread, hpassed⟩

theorem readsAs_text {s : String} (h : (utf8 s).length < 2 ^ 31) :
    ReadsAs deserializeString 0 (writeText s) s := by
  intro self next hrest _
  refine ⟨_, deserializeString_eq_ok.mpr ?_, passed_after hrest⟩
  refine ⟨_, writeHead majorText (utf8 s).length, [utf8 s], utf8 s, next, hrest,
    untagged_writeHead (by decide) (by decide) (by omega), rfl, .definite rfl, ?_, rfl⟩
  simp [takeText, tryFromUtf8_utf8]

theorem readsAs_bytes (h : bytes.length < 2 ^ 31) :
    ReadsAs deserializeBytes 0 (writeBytes bytes) bytes := by
  intro self next hrest _
  refine ⟨_, deserializeBytes_eq_ok.mpr ?_, passed_after hrest⟩
  exact ⟨_, writeHead majorBytes bytes.length, [bytes], bytes, next, hrest,
    untagged_writeHead (by decide) (by decide) (by omega), rfl, .definite rfl, by simp, rfl⟩

theorem readsAs_scalar {α : Type} {read : Reader α} {nesting : Nat} {v : α}
    (h : ReadsAs read nesting bytes v) (value : α → Value) :
    ReadsAs (readScalar read value) nesting bytes (value v) := by
  intro self next hrest hroom
  obtain ⟨s, hread, hpassed⟩ := h self next hrest hroom
  exact ⟨s, bind_of_eq_ok hread, hpassed⟩

/-- A null is absent, and so is an option that holds none. -/
theorem isNull_initNull {self : CborDeserializer} {next : List UInt8}
    (hrest : self.rest = [initNull] ++ next) : self.isNull = .ok (true, self.after 1) := by
  rw [isNull, isNullFrom, bind_of_eq_ok (peekByte_of_rest hrest), if_neg (by decide),
    if_pos (by decide)]
  rfl

theorem readsAs_unit : ReadsAs readUnit 0 [initNull] .null := by
  intro self next hrest _
  exact ⟨_, bind_of_eq_ok (isNull_initNull hrest), passed_after hrest⟩

theorem readsAs_absent (read : Reader Value) (nesting : Nat) :
    ReadsAs (readOption read) nesting [initNull] .null := by
  intro self next hrest _
  exact ⟨_, bind_of_eq_ok (isNull_initNull hrest), passed_after hrest⟩

/-- Bytes at which there is no null: they start with no tag that is looked through, nor
with a null. -/
def Present (bytes : List UInt8) : Prop :=
  ∀ (self : CborDeserializer) (next : List UInt8), self.rest = bytes ++ next →
    self.isNull = .ok (false, self)

theorem readsAs_present {read : Reader Value} {nesting : Nat} {v : Value}
    (hpresent : Present bytes) (h : ReadsAs read nesting bytes v) :
    ReadsAs (readOption read) nesting bytes v := by
  intro self next hrest hroom
  obtain ⟨s, hread, hpassed⟩ := h self next hrest hroom
  exact ⟨s, (bind_of_eq_ok (hpresent self next hrest)).trans hread, hpassed⟩

/-- A head that is no tag and no simple value starts bytes at which there is no null. -/
theorem present_writeHead {major arg : Nat} (hmajor : major < 7) (harg : arg < 2 ^ 64)
    (hno : major = majorTag → isPassthroughTag arg = false) (body : List UInt8) :
    Present (writeHead major arg ++ body) := by
  intro self next hrest
  have hbytes := headBytes_writeHead (show major < 8 by omega) harg
  rw [append_assoc] at hrest
  generalize writeHead major arg = head at hbytes hrest
  obtain ⟨b, tail, rfl⟩ := exists_cons_of_length_pos hbytes.length_pos
  have hfirst : b.toNat >>> 5 = major := hbytes.first.1
  have hpeek := peekByte_of_rest hrest
  rw [isNull, isNullFrom, bind_of_eq_ok hpeek]
  by_cases htag : major = majorTag
  · have hread := readHead_eq_ok.mpr ⟨_, _, hrest, hbytes, rfl⟩
    rw [hfirst, if_pos htag, bind_of_eq_ok hread]
    dsimp only
    rw [hno htag, if_neg Bool.false_ne_true]
    rfl
  · have hnull : ¬ (b = initNull ∨ b = initUndefined) := by
      rintro (rfl | rfl)
      · have h7 : (7 : Nat) = major := hfirst
        omega
      · have h7 : (7 : Nat) = major := hfirst
        omega
    rw [hfirst, if_neg htag, if_neg hnull]
    rfl

theorem present_writeBool (b : Bool) : Present (writeBool b) := by
  intro self next hrest
  cases b with
  | false =>
    rw [isNull, isNullFrom, bind_of_eq_ok (peekByte_of_rest hrest), if_neg (by decide),
      if_neg (by decide)]
    rfl
  | true =>
    rw [isNull, isNullFrom, bind_of_eq_ok (peekByte_of_rest hrest), if_neg (by decide),
      if_neg (by decide)]
    rfl

end Scalars

end Cbor

end Wado

/-
What a reader makes of the bytes that a serializer wrote: the containers.
-/

namespace Wado

namespace Cbor

open ExceptSteps CborDeserializer

/-- The bytes of the entries of an array or a map. -/
def joined {α : Type} (parts : List (List UInt8 × α)) : List UInt8 :=
  (parts.map (·.1)).flatten

@[simp] theorem joined_nil {α : Type} : joined ([] : List (List UInt8 × α)) = [] := rfl

@[simp] theorem joined_cons {α : Type} (part : List UInt8 × α) (parts : List (List UInt8 × α)) :
    joined (part :: parts) = part.1 ++ joined parts := rfl

theorem Passed.refl {self : CborDeserializer} {next : List UInt8} (h : self.rest = next) :
    Passed self self [] next :=
  ⟨h, rfl, rfl⟩

theorem beginContainer_writeHead {major n : Nat} (hmajor : major = majorArray ∨ major = majorMap)
    (hn : n < 2 ^ 31) {self : CborDeserializer} {next : List UInt8}
    (hrest : self.rest = writeHead major n ++ next) (hlevel : level self.depth ≤ self.maxDepth) :
    self.beginContainer major =
      .ok (⟨n, false, level self.depth⟩, self.after (writeHead major n).length) := by
  have hcontainer : major < 8 ∧ major ≠ majorTag := by
    rcases hmajor with rfl | rfl <;> decide
  have hread : self.readUntagged (· = tagSelfDescribed) = _ :=
    readUntagged_eq_ok.mpr ⟨_, next, hrest,
      untagged_writeHead hcontainer.1 hcontainer.2 (by omega), rfl⟩
  have hdepth : (self.after (writeHead major n).length).innerDepth = .ok (level self.depth) :=
    deeper_eq_ok.mpr ⟨rfl, hlevel⟩
  rw [beginContainer, bind_of_eq_ok hread]
  dsimp only
  rw [if_neg (not_not.mpr rfl), bind_of_eq_ok hdepth, if_neg Bool.false_ne_true, asI64,
    if_pos (by omega)]
  rfl

/-- What is left of a definite container with `n` entries to go. -/
def Opened.Left (opened : Opened) (n : Nat) : Prop :=
  opened.indef = false ∧ opened.remaining = n

variable {seq : CborSeqAccess}

section Sequences

variable {element : Reader Value} {nesting : Nat}

theorem nextElement_readsAs {n : Nat} {bytes next : List UInt8} {v : Value}
    (hleft : seq.opened.Left (n + 1)) (helement : ReadsAs element nesting bytes v)
    (hrest : seq.de.rest = bytes ++ next) (hroom : Room seq.opened.depth seq.de.maxDepth nesting) :
    ∃ seq', seq.nextElement element = .ok (some v, seq') ∧ seq'.opened.Left n ∧
      seq'.opened.depth = seq.opened.depth ∧ seq'.done = seq.done ∧
      Passed seq.de seq'.de bytes next := by
  obtain ⟨s, hread, hpassed⟩ := helement { seq.de with depth := seq.opened.depth } next hrest hroom
  let opened := { seq.opened with remaining := seq.opened.remaining - 1 }
  have hend : seq.atEnd = .ok (false, { seq with opened := opened }) := by
    have hstep : seq.de.containerStep seq.opened.remaining seq.opened.indef =
      .ok (false, seq.de) := by
      rw [containerStep, hleft.1, if_neg Bool.false_ne_true, hleft.2, decide_eq_false (by omega)]
    rw [CborSeqAccess.atEnd, bind_of_eq_ok hstep]
    dsimp only
    rw [if_neg Bool.false_ne_true, if_pos (by rw [hleft.1]; exact Bool.false_ne_true)]
    rfl
  refine ⟨{ seq with de := s, opened := opened }, ?_, ⟨hleft.1, ?_⟩, rfl, rfl,
    ⟨hpassed.rest, hpassed.pos, hpassed.maxDepth⟩⟩
  · rw [CborSeqAccess.nextElement, bind_of_eq_ok hend]
    dsimp only
    rw [if_neg Bool.false_ne_true, bind_of_eq_ok hread]
    rfl
  · show seq.opened.remaining - 1 = n
    rw [hleft.2]
    omega

theorem nextElement_end (hleft : seq.opened.Left 0) :
    seq.nextElement element = .ok (none, { seq with done := true }) := by
  have hend : seq.atEnd = .ok (true, { seq with done := true }) := by
    have hstep : seq.de.containerStep seq.opened.remaining seq.opened.indef =
      .ok (true, seq.de) := by
      rw [containerStep, hleft.1, if_neg Bool.false_ne_true, hleft.2, decide_eq_true (by omega)]
    rw [CborSeqAccess.atEnd, bind_of_eq_ok hstep]
    rfl
  rw [CborSeqAccess.nextElement, bind_of_eq_ok hend]
  rfl

variable {parts : List (List UInt8 × Value)}

theorem drainSeq_readsAs
    (hparts : ∀ part ∈ parts, ReadsAs element nesting part.1 part.2) {fuel : Nat}
    (hfuel : parts.length < fuel) {next : List UInt8}
    (hleft : seq.opened.Left parts.length) (hrest : seq.de.rest = joined parts ++ next)
    (hroom : Room seq.opened.depth seq.de.maxDepth nesting) :
    ∃ seq', drainSeq element fuel seq = .ok (parts.map (·.2), seq') ∧ seq'.done = true ∧
      Passed seq.de seq'.de (joined parts) next := by
  induction parts generalizing fuel seq with
  | nil =>
    cases fuel with
    | zero => exact absurd hfuel (Nat.not_lt_zero _)
    | succ fuel =>
      refine ⟨{ seq with done := true }, ?_, rfl, .refl hrest⟩
      rw [drainSeq, bind_of_eq_ok (nextElement_end hleft)]
      rfl
  | cons part parts ih =>
    cases fuel with
    | zero => exact absurd hfuel (Nat.not_lt_zero _)
    | succ fuel =>
      obtain ⟨hpart, hparts'⟩ := List.forall_mem_cons.mp hparts
      rw [joined_cons, List.append_assoc] at hrest
      obtain ⟨seq₁, hnext, hleft₁, hdepth, _, hpassed⟩ :=
        nextElement_readsAs hleft hpart hrest hroom
      rw [← hdepth, ← hpassed.maxDepth] at hroom
      obtain ⟨seq', hdrain, hdone, hpassed'⟩ :=
        ih hparts' (Nat.lt_of_succ_lt_succ hfuel) hleft₁ hpassed.rest hroom
      refine ⟨seq', ?_, hdone, hpassed.trans hpassed'⟩
      rw [drainSeq, bind_of_eq_ok hnext]
      dsimp only
      rw [bind_of_eq_ok hdrain]
      rfl

/-- The end of an array that the head's count has brought its reader to. -/
theorem close_readsAs (hleft : seq.done = true ∨ seq.opened.Left 0) :
    seq.close = .ok seq.de := by
  unfold CborSeqAccess.close
  by_cases hdone : seq.done = true
  · rw [if_pos hdone]
  · obtain ⟨hindef, hremaining⟩ := hleft.resolve_left hdone
    rw [if_neg hdone, if_neg (by rw [hindef]; exact Bool.false_ne_true), if_neg (by omega)]

theorem beginSeq_readsAs {self : CborDeserializer} {n : Nat} {next : List UInt8}
    (hn : n < 2 ^ 31) (hrest : self.rest = writeHead majorArray n ++ next)
    (hroom : Room self.depth self.maxDepth (nesting + 1)) :
    ∃ seq, self.beginSeq = .ok seq ∧ seq.opened.Left n ∧
      Room seq.opened.depth seq.de.maxDepth nesting ∧
      Passed self seq.de (writeHead majorArray n) next := by
  obtain ⟨hlevel, hroom'⟩ := hroom.deeper
  have hopen := beginContainer_writeHead (.inl rfl) hn hrest hlevel
  exact ⟨_, bind_of_eq_ok hopen, ⟨rfl, rfl⟩, hroom', passed_after hrest⟩

/-- The elements of an array, one after the other. -/
theorem readsAs_list (hparts : ∀ part ∈ parts, ReadsAs element nesting part.1 part.2)
    (hlength : parts.length < 2 ^ 31) :
    ReadsAs (readList element) (nesting + 1) (writeHead majorArray parts.length ++ joined parts)
      (.seq (parts.map (·.2))) := by
  intro self next hrest hroom
  rw [List.append_assoc] at hrest
  obtain ⟨seq, hbegin, hleft, hroom', hhead⟩ := beginSeq_readsAs hlength hrest hroom
  have hfuel : parts.length < loopFuel seq.opened seq.de := by
    rw [loopFuel, hleft.1, hleft.2]
    exact Nat.lt_succ_self _
  obtain ⟨seq', hdrain, hdone, hpassed⟩ := drainSeq_readsAs hparts hfuel hleft hhead.rest hroom'
  refine ⟨note self .elements (parts.map (·.2)).length seq'.de, ?_, ?_⟩
  · rw [readList, bind_of_eq_ok hbegin, bind_of_eq_ok hdrain]
    dsimp only
    rw [bind_of_eq_ok (close_readsAs (.inl hdone))]
    rfl
  · have htrans := hhead.trans hpassed
    exact ⟨htrans.rest, htrans.pos, htrans.maxDepth⟩

end Sequences

/-- What an element's reader makes of its bytes. -/
abbrev Element := Reader Value × List UInt8 × Value

variable {parts : List Element}

theorem readElements_readsAs {nesting : Nat}
    (hparts : ∀ part ∈ parts, ReadsAs part.1 nesting part.2.1 part.2.2)
    {next : List UInt8} (hleft : seq.opened.Left parts.length)
    (hrest : seq.de.rest = joined (parts.map (·.2)) ++ next)
    (hroom : Room seq.opened.depth seq.de.maxDepth nesting) :
    ∃ seq', readElements (parts.map (·.1)) seq = .ok (parts.map (·.2.2), seq') ∧
      seq'.opened.Left 0 ∧ Passed seq.de seq'.de (joined (parts.map (·.2))) next := by
  induction parts generalizing seq with
  | nil => exact ⟨seq, rfl, hleft, .refl hrest⟩
  | cons part parts ih =>
    obtain ⟨hpart, hparts'⟩ := List.forall_mem_cons.mp hparts
    rw [List.map_cons, joined_cons, List.append_assoc] at hrest
    obtain ⟨seq₁, hnext, hleft₁, hdepth, _, hpassed⟩ :=
      nextElement_readsAs hleft hpart hrest hroom
    rw [← hdepth, ← hpassed.maxDepth] at hroom
    obtain ⟨seq', hread, hleft', hpassed'⟩ := ih hparts' hleft₁ hpassed.rest hroom
    refine ⟨seq', ?_, hleft', hpassed.trans hpassed'⟩
    rw [List.map_cons, readElements, bind_of_eq_ok hnext]
    dsimp only
    rw [bind_of_eq_ok hread]
    rfl

/-- The elements of a tuple, each read as its own type. -/
theorem readsAs_tuple {nesting : Nat}
    (hparts : ∀ part ∈ parts, ReadsAs part.1 nesting part.2.1 part.2.2)
    (hlength : parts.length < 2 ^ 31) :
    ReadsAs (readTuple (parts.map (·.1))) (nesting + 1)
      (writeHead majorArray parts.length ++ joined (parts.map (·.2)))
      (.seq (parts.map (·.2.2))) := by
  intro self next hrest hroom
  rw [List.append_assoc] at hrest
  obtain ⟨seq, hbegin, hleft, hroom', hhead⟩ := beginSeq_readsAs hlength hrest hroom
  obtain ⟨seq', hread, hleft', hpassed⟩ := readElements_readsAs hparts hleft hhead.rest hroom'
  refine ⟨note self .elements (parts.map (·.2.2)).length seq'.de, ?_, ?_⟩
  · rw [readTuple, bind_of_eq_ok hbegin, bind_of_eq_ok hread]
    dsimp only
    rw [bind_of_eq_ok (close_readsAs (.inr hleft'))]
    rfl
  · have htrans := hhead.trans hpassed
    exact ⟨htrans.rest, htrans.pos, htrans.maxDepth⟩

end Cbor

end Wado
