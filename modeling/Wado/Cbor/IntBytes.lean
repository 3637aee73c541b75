/-
The encodings of an integer, and the magnitude of a bignum.
-/
import Wado.Cbor.Item

namespace Wado.Cbor

open ExceptSteps List BigEndian

/-- The number that a bignum's tag makes of its magnitude. -/
def bignumOf (tag mag : Nat) : Int := if tag = tagBignumNeg then -1 - (mag : Int) else mag

/-- The encodings of an integer: a head of any width, or a bignum of any
chunking, under passthrough tags.  A bignum of more than 16 bytes counts only where
its leading zeros are not what makes it so long. -/
inductive IntBytes : Int → List UInt8 → Prop where
  | uint {head : Head} {tags : List UInt8} (htags : Untagged isPassthroughTag head tags)
      (hmajor : head.major = majorUint) : IntBytes head.arg tags
  | nint {head : Head} {tags : List UInt8} (htags : Untagged isPassthroughTag head tags)
      (hmajor : head.major = majorNint) : IntBytes (-1 - (head.arg : Int)) tags
  | bignum {head body : Head} {tags bytes string : List UInt8} {chunks : List (List UInt8)}
      (htags : Untagged isPassthroughTag head tags) (hmajor : head.major = majorTag)
      (htag : head.arg = tagBignumPos ∨ head.arg = tagBignumNeg) (hbytes : HeadBytes body bytes)
      (hbody : body.major = majorBytes)
      (hstring : StringBody majorBytes body.arg body.indef chunks string)
      (hwidth : chunks.flatten.length ≤ 16 ∨ 2 ^ 128 ≤ BigEndian.value chunks.flatten) :
      IntBytes (bignumOf head.arg (BigEndian.value chunks.flatten)) (tags ++ (bytes ++ string))

/-- A head under a tag that is none of `passes` is reached through all tags. -/
theorem Untagged.all_tag {passes : Nat → Bool} {tag head : Head} {tags bytes : List UInt8}
    (h : Untagged passes tag tags) (htag : tag.major = majorTag) (hbytes : HeadBytes head bytes)
    (hmajor : head.major ≠ majorTag) : Untagged (fun _ => true) head (tags ++ bytes) := by
  induction h with
  | head htagBytes hstop =>
    exact .tag htagBytes htag rfl (.head hbytes fun hboth => hmajor hboth.1)
  | tag htagBytes htag' hpasses hrest ih =>
    rw [append_assoc]
    exact .tag htagBytes htag' rfl (ih htag)

variable {bytes : List UInt8}

/-- An encoding of an integer is one item. -/
theorem IntBytes.item {v : Int} (h : IntBytes v bytes)
    (maxDepth depth : Int) : Item maxDepth depth bytes := by
  cases h with
  | uint htags hmajor => exact .int (htags.all (by rw [hmajor]; decide)) (.inl hmajor)
  | nint htags hmajor => exact .int (htags.all (by rw [hmajor]; decide)) (.inr hmajor)
  | bignum htags hmajor htag hbytes hbody hstring hwidth =>
    rw [← append_assoc]
    apply Item.string (htags.all_tag hmajor hbytes (by rw [hbody]; decide)) (.inl hbody)
    rw [hbody]
    exact hstring

theorem or_shiftLeft_eq {lo b k : Nat} (hlo : 2 ^ (k + 8) ∣ lo) (hb : b < 256) :
    lo ||| b <<< k = lo + b * 2 ^ k := by
  obtain ⟨q, rfl⟩ := hlo
  have hlt : b <<< k < 2 ^ (k + 8) := by
    rw [Nat.shiftLeft_eq, Nat.pow_add, Nat.mul_comm (2 ^ k)]
    exact Nat.mul_lt_mul_of_pos_right hb (Nat.two_pow_pos k)
  have hshift : 2 ^ (k + 8) * q = q <<< (k + 8) := by
    rw [Nat.shiftLeft_eq, Nat.mul_comm]
  rw [hshift, ← Nat.shiftLeft_add_eq_or_of_lt hlt, Nat.shiftLeft_eq b]

theorem pow_256_eq (n : Nat) : 256 ^ n = 2 ^ (n * 8) := by
  rw [Nat.mul_comm, Nat.pow_mul]

namespace CborDeserializer

theorem bignumWords_low (hlength : bytes.length ≤ 8) {lo hi : Nat}
    (hlo : 256 ^ bytes.length ∣ lo) :
    bignumWords bytes lo hi = (lo + value bytes, hi) := by
  induction bytes generalizing lo with
  | nil => rfl
  | cons b bytes ih =>
    rw [length_cons] at hlength hlo
    have hpow : 256 ^ (bytes.length + 1) = 2 ^ (bytes.length * 8 + 8) := by
      rw [pow_256_eq, Nat.succ_mul]
    have hor := or_shiftLeft_eq (hpow ▸ hlo) b.toNat_lt
    have hdvd : 256 ^ bytes.length ∣ lo + b.toNat * 256 ^ bytes.length := by
      apply Nat.dvd_add
      · exact Nat.dvd_trans (Nat.pow_dvd_pow 256 (Nat.le_succ _)) hlo
      · exact Nat.dvd_mul_left _ _
    rw [bignumWords, if_pos (by omega), hor, ← pow_256_eq, ih (by omega) hdvd, value_cons,
      Nat.add_assoc]

theorem bignumWords_high {xs ys : List UInt8} (hxs : xs.length ≤ 8) (hys : ys.length = 8)
    {hi : Nat} (hhi : 256 ^ xs.length ∣ hi) :
    bignumWords (xs ++ ys) 0 hi = bignumWords ys 0 (hi + value xs) := by
  induction xs generalizing hi with
  | nil => rfl
  | cons b xs ih =>
    rw [length_cons] at hxs hhi
    have hpow : 256 ^ (xs.length + 1) = 2 ^ (xs.length * 8 + 8) := by
      rw [pow_256_eq, Nat.succ_mul]
    have hor := or_shiftLeft_eq (hpow ▸ hhi) b.toNat_lt
    have hdvd : 256 ^ xs.length ∣ hi + b.toNat * 256 ^ xs.length := by
      apply Nat.dvd_add
      · exact Nat.dvd_trans (Nat.pow_dvd_pow 256 (Nat.le_succ _)) hhi
      · exact Nat.dvd_mul_left _ _
    have hlength : (xs ++ ys).length = xs.length + 8 := by rw [length_append, hys]
    rw [cons_append, bignumWords, hlength, if_neg (by omega), Nat.add_sub_cancel, hor,
      ← pow_256_eq, ih (by omega) hdvd,
      value_cons, Nat.add_assoc]

/-- The two words of a bignum make up its magnitude. -/
theorem bignumWords_value (hlength : bytes.length ≤ 16) :
    (bignumWords bytes 0 0).2 * 2 ^ 64 + (bignumWords bytes 0 0).1 = value bytes := by
  by_cases hshort : bytes.length ≤ 8
  · rw [bignumWords_low hshort (Nat.dvd_zero _)]
    simp
  · have hsplit := take_append_drop (bytes.length - 8) bytes
    have hys : (bytes.drop (bytes.length - 8)).length = 8 := by
      rw [length_drop]
      omega
    have hxs : (bytes.take (bytes.length - 8)).length ≤ 8 := by
      rw [length_take]
      omega
    generalize bytes.take (bytes.length - 8) = xs at hsplit hxs
    generalize bytes.drop (bytes.length - 8) = ys at hsplit hys
    rw [← hsplit, bignumWords_high hxs hys (Nat.dvd_zero _),
      bignumWords_low (Nat.le_of_eq hys) (Nat.dvd_zero _), value_append, hys]
    simp

/-- A bignum's magnitude, after its tag. -/
theorem readBignumMag_eq_ok {mag : Nat} {self s : CborDeserializer} :
    self.readBignumMag = .ok (mag, s) ↔
      ∃ body bytes chunks string next, self.rest = bytes ++ string ++ next ∧
        HeadBytes body bytes ∧ body.major = majorBytes ∧
        StringBody majorBytes body.arg body.indef chunks string ∧ chunks.flatten.length ≤ 16 ∧
        mag = value chunks.flatten ∧ s = self.after (bytes ++ string).length := by
  constructor
  · intro h
    obtain ⟨⟨body, s₁⟩, hhead, h⟩ := bind_eq_ok.mp h
    dsimp only at h
    split_ifs at h with hmajor
    obtain ⟨⟨content, s₂⟩, hstring, h⟩ := bind_eq_ok.mp h
    dsimp only at h
    split_ifs at h with hwidth
    cases h
    obtain ⟨bytes, next, hrest, hbytes, rfl⟩ := readHead_eq_ok.mp hhead
    obtain ⟨chunks, string, next', hrest', hbody, rfl, rfl⟩ := readBytesBody_eq_ok.mp hstring
    rw [rest_after_append hrest] at hrest'
    refine ⟨body, bytes, chunks, string, next', ?_, hbytes, not_not.mp hmajor, hbody, ?_, ?_, ?_⟩
    · rw [hrest, hrest', append_assoc]
    · omega
    · exact bignumWords_value (by omega)
    · rw [after_after, length_append]
  · rintro ⟨body, bytes, chunks, string, next, hrest, hbytes, hmajor, hbody, hwidth, rfl, rfl⟩
    rw [append_assoc] at hrest
    have hhead := readHead_eq_ok.mpr ⟨bytes, _, hrest, hbytes, rfl⟩
    have hstring := readBytesBody_eq_ok.mpr
      ⟨chunks, string, next, rest_after_append hrest, hbody, rfl, rfl⟩
    rw [readBignumMag, bind_of_eq_ok hhead]
    dsimp only
    rw [if_neg (not_not.mpr hmajor), bind_of_eq_ok hstring]
    dsimp only
    rw [if_neg (by omega), after_after, ← length_append, ← bignumWords_value hwidth]
    rfl

/-- A bignum of more than 16 bytes overflows. -/
theorem readBignumMag_wide {body : Head} {bytes string next : List UInt8}
    {chunks : List (List UInt8)} {self : CborDeserializer}
    (hrest : self.rest = bytes ++ string ++ next) (hbytes : HeadBytes body bytes)
    (hmajor : body.major = majorBytes)
    (hbody : StringBody majorBytes body.arg body.indef chunks string)
    (hwidth : 16 < chunks.flatten.length) :
    ∃ offset, self.readBignumMag = .error ⟨.overflow, offset⟩ := by
  rw [append_assoc] at hrest
  have hhead := readHead_eq_ok.mpr ⟨bytes, _, hrest, hbytes, rfl⟩
  have hstring := readBytesBody_eq_ok.mpr
    ⟨chunks, string, next, rest_after_append hrest, hbody, rfl, rfl⟩
  rw [readBignumMag, bind_of_eq_ok hhead]
  dsimp only
  rw [if_neg (not_not.mpr hmajor), bind_of_eq_ok hstring]
  dsimp only
  rw [if_pos hwidth]
  exact ⟨_, rfl⟩

end CborDeserializer

end Wado.Cbor
