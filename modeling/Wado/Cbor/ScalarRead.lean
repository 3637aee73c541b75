/-
What strings, booleans and nulls are read from.
-/
import Wado.Cbor.Item

namespace Wado.Cbor

open ExceptSteps List

namespace CborDeserializer

/-- The fast path of a text string reads as the loop through tags does. -/
theorem deserializeString_eq (self : CborDeserializer) : deserializeString self =
      self.readUntagged isPassthroughTag >>= fun got =>
        if got.1.major = majorText then got.2.readTextBody got.1.arg got.1.indef
        else .error ⟨.unexpectedType, got.2.pos⟩ := by
  cases hrest : self.rest with
  | nil =>
    have hpeek : self.peekByte = .error self.eof := by rw [peekByte, hrest]
    rw [deserializeString, bind_of_eq_error hpeek, bind_of_eq_error (readUntagged_of_nil hrest)]
  | cons b next =>
    rw [deserializeString, bind_of_eq_ok (peekByte_of_rest hrest)]
    by_cases hfast : b.toNat >>> 5 = majorText ∧ b.toNat &&& 0x1f ≤ ai8Byte
    · have hmajor : b.toNat >>> 5 ≠ majorTag := by
        rw [hfast.1]
        decide
      rw [if_pos hfast, readUntagged_of_definite hrest hmajor hfast.2]
      cases (self.after 1).readArg (b.toNat &&& 0x1f) with
      | error e => rfl
      | ok arg =>
        show arg.2.readDefiniteText arg.1 =
          if b.toNat >>> 5 = majorText then arg.2.readTextBody arg.1 false else _
        rw [if_pos hfast.1]
        rfl
    · rw [if_neg hfast]

variable {self s : CborDeserializer}

/-- A text string is read from a head and a body that spells it. -/
theorem deserializeString_eq_ok {text : String} :
    deserializeString self = .ok (text, s) ↔
      ∃ head tags chunks body next, self.rest = tags ++ body ++ next ∧
        Untagged isPassthroughTag head tags ∧ head.major = majorText ∧
        StringBody majorText head.arg head.indef chunks body ∧
        chunks.foldlM takeText "" = some text ∧ s = self.after (tags ++ body).length := by
  rw [deserializeString_eq, bind_eq_ok]
  constructor
  · rintro ⟨⟨head, s₁⟩, hread, h⟩
    obtain ⟨tags, next, hrest, htags, rfl⟩ := readUntagged_eq_ok.mp hread
    dsimp only at h
    split_ifs at h with hmajor
    obtain ⟨chunks, body, next', hrest', hbody, hfold, rfl⟩ := readTextBody_eq_ok.mp h
    rw [rest_after_append hrest] at hrest'
    refine ⟨head, tags, chunks, body, next', ?_, htags, hmajor, hbody, hfold, ?_⟩
    · rw [hrest, hrest', append_assoc]
    · rw [after_after, ← length_append]
  · rintro ⟨head, tags, chunks, body, next, hrest, htags, hmajor, hbody, hfold, rfl⟩
    rw [append_assoc] at hrest
    refine ⟨⟨head, self.after tags.length⟩, readUntagged_eq_ok.mpr ⟨tags, _, hrest, htags, rfl⟩, ?_⟩
    dsimp only
    rw [if_pos hmajor, readTextBody_eq_ok]
    refine ⟨chunks, body, next, rest_after_append hrest, hbody, hfold, ?_⟩
    rw [after_after, ← length_append]

/-- A byte string is read from a head under any tags and a body that holds it. -/
theorem deserializeBytes_eq_ok {bytes : List UInt8} :
    deserializeBytes self = .ok (bytes, s) ↔
      ∃ head tags chunks body next, self.rest = tags ++ body ++ next ∧
        Untagged (fun _ => true) head tags ∧ head.major = majorBytes ∧
        StringBody majorBytes head.arg head.indef chunks body ∧ chunks.flatten = bytes ∧
        s = self.after (tags ++ body).length := by
  rw [deserializeBytes, bind_eq_ok]
  constructor
  · rintro ⟨⟨head, s₁⟩, hread, h⟩
    obtain ⟨tags, next, hrest, htags, rfl⟩ := readUntagged_eq_ok.mp hread
    dsimp only at h
    split_ifs at h with hmajor
    obtain ⟨chunks, body, next', hrest', hbody, hbytes, rfl⟩ := readBytesBody_eq_ok.mp h
    rw [rest_after_append hrest] at hrest'
    refine ⟨head, tags, chunks, body, next', ?_, htags, hmajor, hbody, hbytes, ?_⟩
    · rw [hrest, hrest', append_assoc]
    · rw [after_after, ← length_append]
  · rintro ⟨head, tags, chunks, body, next, hrest, htags, hmajor, hbody, hbytes, rfl⟩
    rw [append_assoc] at hrest
    refine ⟨⟨head, self.after tags.length⟩, readUntagged_eq_ok.mpr ⟨tags, _, hrest, htags, rfl⟩, ?_⟩
    dsimp only
    rw [if_pos hmajor, readBytesBody_eq_ok]
    refine ⟨chunks, body, next, rest_after_append hrest, hbody, hbytes, ?_⟩
    rw [after_after, ← length_append]

/-- A simple value of one byte. -/
theorem untagged_simple {passes : Nat → Bool} {arg : Nat} (harg : arg < 24) :
    Untagged passes ⟨majorSimple, arg, arg, false⟩ [UInt8.ofNat (majorSimple * 32 + arg)] :=
  .head (.inline majorSimple arg (by decide) harg) fun htag =>
    (by decide : ¬ majorSimple = majorTag) htag.1

/-- A boolean is read from a simple value. -/
theorem deserializeBool_sound {v : Bool} (h : deserializeBool self = .ok (v, s)) :
    ∃ head tags next, self.rest = tags ++ next ∧ Untagged isPassthroughTag head tags ∧
      head.major = majorSimple ∧ head.indef = false ∧ s = self.after tags.length := by
  obtain ⟨b, hpeek, h⟩ := bind_eq_ok.mp h
  obtain ⟨next, hrest⟩ := peekByte_eq_ok.mp hpeek
  by_cases hfalse : b = initFalse
  · rw [if_pos hfalse] at h
    cases h
    rw [hfalse] at hrest
    exact ⟨_, _, next, hrest, untagged_simple (by decide : simpleFalse < 24), rfl, rfl, rfl⟩
  · by_cases htrue : b = initTrue
    · rw [if_neg hfalse, if_pos htrue] at h
      cases h
      rw [htrue] at hrest
      exact ⟨_, _, next, hrest, untagged_simple (by decide : simpleTrue < 24), rfl, rfl, rfl⟩
    · rw [if_neg hfalse, if_neg htrue] at h
      obtain ⟨⟨head, s₁⟩, hread, h⟩ := bind_eq_ok.mp h
      obtain ⟨tags, next', hrest', htags, rfl⟩ := readUntagged_eq_ok.mp hread
      dsimp only at h
      split_ifs at h with hsimple hsimple'
      · cases h
        have hindef := htags.definite_of_ai (by rw [hsimple.2]; decide)
        exact ⟨head, tags, next', hrest', htags, hsimple.1, hindef, rfl⟩
      · cases h
        have hindef := htags.definite_of_ai (by rw [hsimple'.2]; decide)
        exact ⟨head, tags, next', hrest', htags, hsimple'.1, hindef, rfl⟩

/-- Where there is no null, the input is left as it was. -/
theorem isNullFrom_sound {saved : CborDeserializer} {fuel : Nat} {absent : Bool}
    (h : isNullFrom saved fuel self = .ok (absent, s)) :
    absent = false ∧ s = saved ∨ absent = true ∧ ∃ head tags next, self.rest = tags ++ next ∧
        Untagged isPassthroughTag head tags ∧ head.major = majorSimple ∧ head.indef = false ∧
        s = self.after tags.length := by
  induction fuel generalizing self with
  | zero => cases h
  | succ fuel ih =>
    obtain ⟨b, hpeek, h⟩ := bind_eq_ok.mp h
    obtain ⟨next, hrest⟩ := peekByte_eq_ok.mp hpeek
    split_ifs at h with htag hnull
    · obtain ⟨⟨head, s₁⟩, hread, h⟩ := bind_eq_ok.mp h
      dsimp only at h
      split_ifs at h with hpasses
      · obtain ⟨bytes, next', hrest', hbytes, rfl⟩ := readHead_eq_ok.mp hread
        rcases ih h with hno | ⟨habsent, head', tags, next'', hrest'', htags, hmajor, hindef, rfl⟩
        · exact .inl hno
        · rw [rest_after_append hrest'] at hrest''
          refine .inr ⟨habsent, head', bytes ++ tags, next'', ?_, ?_, hmajor, hindef, ?_⟩
          · rw [hrest', hrest'', append_assoc]
          · apply Untagged.tag hbytes _ hpasses htags
            obtain ⟨c, tail, rfl⟩ := exists_cons_of_length_pos hbytes.length_pos
            rw [hrest', cons_append] at hrest
            rw [← hbytes.first.1, (List.cons.inj hrest).1]
            exact htag
          · rw [after_after, ← length_append]
      · cases h
        exact .inl ⟨rfl, rfl⟩
    · cases h
      rcases hnull with rfl | rfl
      · exact .inr ⟨rfl, _, _, next, hrest, untagged_simple (by decide : simpleNull < 24), rfl,
          rfl, rfl⟩
      · exact .inr ⟨rfl, _, _, next, hrest, untagged_simple (by decide : simpleUndefined < 24),
          rfl, rfl, rfl⟩
    · cases h
      exact .inl ⟨rfl, rfl⟩

theorem isNull_false (h : self.isNull = .ok (false, s)) : s = self := by
  rcases isNullFrom_sound h with ⟨_, hs⟩ | ⟨habsent, _⟩
  · exact hs
  · cases habsent

/-- A null is read from a simple value. -/
theorem isNull_true (h : self.isNull = .ok (true, s)) :
    ∃ head tags next, self.rest = tags ++ next ∧ Untagged isPassthroughTag head tags ∧
      head.major = majorSimple ∧ head.indef = false ∧ s = self.after tags.length := by
  rcases isNullFrom_sound h with ⟨habsent, _⟩ | ⟨_, hnull⟩
  · cases habsent
  · exact hnull

end CborDeserializer

end Wado.Cbor
