/-
Both serializers and the deserializer, over a whole input.
-/
import Wado.Cbor.Reorder

namespace Wado.Cbor

open ExceptSteps CborDeserializer

/-- `from_bytes` of what is written of a value gives it back, where the limit leaves
room for its containers. -/
theorem ReadsAs.fromBytes {read : Reader Value} {nesting : Nat} {bytes : List UInt8} {v : Value}
    (h : ReadsAs read nesting bytes v) (strict : Bool) {maxDepth : Int}
    (hmax : nesting ≤ maxDepth) :
    ∃ s, Cbor.fromBytes read bytes strict maxDepth = .ok (v, s) ∧ s.pos = bytes.length := by
  have hrest : (⟨bytes, 0, 0, maxDepth, strict, []⟩ : CborDeserializer).rest = bytes ++ [] :=
    (List.append_nil bytes).symm
  obtain ⟨s, hread, hpassed⟩ := h _ _ hrest (.inr ⟨Int.le_refl 0, by simpa using hmax⟩)
  refine ⟨s, ?_, ?_⟩
  · rw [Cbor.fromBytes, bind_of_eq_ok hread]
    dsimp only
    rw [if_neg (not_not.mpr hpassed.rest)]
    rfl
  · rw [hpassed.pos]
    exact Nat.zero_add _

theorem serialize_readsAs {t : Ty} {v : Value} (hfits : t.Fits v) (hkeys : v.DistinctKeys) :
    ReadsAs t.reader v.nesting v.serialize v :=
  Value.serializes_serialize.readsAs t v hfits hkeys

theorem canonical_readsAs {t : Ty} {v : Value} (hfits : t.Fits v) (hkeys : v.Distinct) :
    ReadsAs t.reader v.nesting v.canonical v.sorted :=
  Value.serializes_canonical.readsAs t v hfits (hkeys.sorted v)

/-- Decoding gives back what either serializer wrote of a value of the type, the
canonical one up to the order of maps, and takes its bytes and no more; and every
encoding of an integer is read at every integer type as that integer, or overflows. -/
theorem codec_round_trips : (∀ (t : Ty) (v : Value), t.Fits v → v.DistinctKeys →
      ReadsAs t.reader v.nesting v.serialize v ∧
        ∀ (strict : Bool) (maxDepth : Int), v.nesting ≤ maxDepth →
          ∃ s, fromBytes t.reader v.serialize strict maxDepth = .ok (v, s)) ∧
    (∀ (t : Ty) (v : Value), t.Fits v → v.Distinct →
      v.Equiv v.sorted ∧ ReadsAs t.reader v.nesting v.canonical v.sorted ∧
        ∀ (strict : Bool) (maxDepth : Int), v.nesting ≤ maxDepth →
          ∃ s, fromBytes t.reader v.canonical strict maxDepth = .ok (v.sorted, s)) ∧
    ∀ (t : IntTy) (v : Int) (bytes next : List UInt8) (self : CborDeserializer),
      IntBytes v bytes → self.rest = bytes ++ next →
        (t.min ≤ v ∧ v ≤ t.max → deserializeInt t self = .ok (v, self.after bytes.length)) ∧
          (¬ (t.min ≤ v ∧ v ≤ t.max) →
            ∃ offset, deserializeInt t self = .error ⟨.overflow, offset⟩) := by
  refine ⟨?_, ?_, ?_⟩
  · intro t v hfits hkeys
    have hread := serialize_readsAs hfits hkeys
    refine ⟨hread, ?_⟩
    intro strict maxDepth hmax
    obtain ⟨s, hbytes, _⟩ := hread.fromBytes strict hmax
    exact ⟨s, hbytes⟩
  · intro t v hfits hkeys
    have hread := canonical_readsAs hfits hkeys
    refine ⟨v.equiv_sorted, hread, ?_⟩
    intro strict maxDepth hmax
    obtain ⟨s, hbytes, _⟩ := hread.fromBytes strict hmax
    exact ⟨s, hbytes⟩
  · intro t v bytes next self hbytes hrest
    exact readsInt_deserializeInt t v bytes next self hbytes hrest

/-- A map from names to lists, written in no order. -/
def sampleMap : Value :=
  .map [(.text "b", .seq [.int .i128 (-2 ^ 100)]), (.text "a", .seq [])]

theorem codec_round_trips_sampleMap :
    (∃ s, fromBytes (Ty.map .text (.list (.int .i128))).reader sampleMap.serialize true 100 =
      .ok (sampleMap, s)) ∧
    (∃ s, fromBytes (Ty.map .text (.list (.int .i128))).reader sampleMap.canonical true 100 =
      .ok (sampleMap.sorted, s)) ∧
    deserializeInt .u8 ⟨[0xc2, 0x42, 0, 7, 1], 0, 0, 100, true, []⟩ =
      .ok (7, ⟨[1], 4, 0, 100, true, []⟩) := by
  obtain ⟨hserialize, hcanonical, hint⟩ := codec_round_trips
  have hfits : (Ty.map .text (.list (.int .i128))).Fits sampleMap := by
    simp [sampleMap, Ty.Fits, IntTy.min, IntTy.max]
    decide
  have hkeys : sampleMap.DistinctKeys := by
    simp [sampleMap, Value.DistinctKeys, Value.Everywhere, Value.everyEntry, Value.everyElem,
      KeysDiffer, Value.same]
  have hdistinct : sampleMap.Distinct := by
    simp [sampleMap, Value.Distinct, Value.Everywhere, Value.everyEntry, Value.everyElem,
      Value.Equiv]
  have hbytes : IntBytes 7 [0xc2, 0x42, 0, 7] :=
    @IntBytes.bignum ⟨6, 2, 2, false⟩ ⟨2, 2, 2, false⟩ [0xc2] [0x42] [0, 7] [[0, 7]]
      (.head (.inline 6 2 (by decide) (by decide)) (by decide)) rfl (.inl rfl)
      (.inline 2 2 (by decide) (by decide)) rfl (.definite rfl) (.inl (by decide))
  refine ⟨(hserialize _ _ hfits hkeys).2 true 100 (by decide),
    (hcanonical _ _ hfits hdistinct).2.2 true 100 (by decide), ?_⟩
  exact (hint .u8 7 [0xc2, 0x42, 0, 7] [1] ⟨[0xc2, 0x42, 0, 7, 1], 0, 0, 100, true, []⟩ hbytes
    rfl).1 (by decide)

/-- A list in a list, and so on. -/
def nestedList : Nat → Ty × Value
  | 0 => (.list .unit, .seq [])
  | n + 1 => (.list (nestedList n).1, .seq [(nestedList n).2])

/-- The wire name of both fields. -/
def repeatedName : Ty := .struct [("a", .bool, none), ("a", .bool, none)]

/-- Zero, as a bignum of 17 bytes. -/
def paddedZero : List UInt8 := 0xc2 :: 0x51 :: List.replicate 17 0

/-- Two maps of the same entries, as the keys of a map. -/
def mapKeys : Value :=
  .map [(.map [(.int .u8 1, .null), (.int .u8 2, .null)], .null),
    (.map [(.int .u8 2, .null), (.int .u8 1, .null)], .null)]

theorem mergeSort_pair {α : Type} (le : α → α → Bool) (a b : α) :
    [a, b].mergeSort le = if le a b then [a, b] else [b, a] := by
  rw [List.mergeSort]
  simp [List.MergeSort.Internal.splitInTwo, List.merge]

theorem canonical_mapKeys : mapKeys.canonical =
    [0xa2, 0xa2, 1, 0xf6, 2, 0xf6, 0xf6, 0xa2, 1, 0xf6, 2, 0xf6, 0xf6] := by
  simp only [mapKeys, Value.canonical, Value.canonicalEntries, Value.emitSortedMap, mergeSort_pair]
  decide

/-- A value that is nested deeper than the limit, or whose struct has a name twice, or
whose map has keys that the canonical order makes equal, is not read back; nor is an integer
from a bignum of more than 16 bytes. -/
theorem codec_round_trips_wrong :
    (fromBytes (nestedList 100).1.reader (nestedList 100).2.serialize true 100).toOption = none ∧
    (fromBytes repeatedName.reader (Value.struct [("a", .bool true), ("a", .bool true)]).serialize
      true 100).toOption = none ∧
    (fromBytes (Ty.map (.map (.int .u8) .unit) .unit).reader mapKeys.canonical true 100).toOption =
      none ∧
    BigEndian.value (List.replicate 17 0) = 0 ∧
    (deserializeInt .u64 ⟨paddedZero, 0, 0, 100, true, []⟩).toOption = none := by
  refine ⟨?_, ?_, ?_, ?_, ?_⟩
  · decide +kernel
  · decide
  · rw [canonical_mapKeys]
    decide +kernel
  · decide
  · decide

end Wado.Cbor
