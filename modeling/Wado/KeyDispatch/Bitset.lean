/-
Offsets from a least key, taken with the wrap-around of a width: a value of the type is
below the length of a window exactly when it lies in the window, at its own place.
-/
import Wado.KeyDispatch.Keys
import Mathlib.Data.Finset.Card

namespace Wado.KeyDispatch

open List

section Offset

variable {w : Nat}

/-- The offset of a value from the least key, in `w` bits. -/
def offsetBits (w : Nat) (value least : Int) : BitVec w :=
  BitVec.ofInt w value - BitVec.ofInt w least

theorem offsetBits_toNat (value least : Int) :
    ((offsetBits w value least).toNat : Int) = (value - least) % (2 ^ w : Nat) := by
  have hpos : (0 : Int) < (2 ^ w : Nat) := by exact_mod_cast Nat.two_pow_pos w
  have hsub : offsetBits w value least = BitVec.ofInt w (value - least) := by
    rw [offsetBits, Int.sub_eq_add_neg, BitVec.ofInt_add, BitVec.ofInt_neg, BitVec.sub_eq_add_neg]
  rw [hsub, BitVec.toNat_ofInt, Int.toNat_of_nonneg (Int.emod_nonneg _ hpos.ne')]

/-- The values between `lo` and `hi` fit the width. -/
def Spans (w : Nat) (lo hi : Int) : Prop := hi - lo < (2 ^ w : Nat)

/-- A window of `length` values from `least`, inside a type the width holds: an offset
falls in it just when the value does. -/
theorem offsetBits_lt_iff {lo hi least value : Int} {length : Nat} (hspans : Spans w lo hi)
    (hleast : lo ≤ least) (hlast : least + length ≤ hi + 1) (hlo : lo ≤ value)
    (hhi : value ≤ hi) :
    (offsetBits w value least).toNat < length ↔ least ≤ value ∧ value < least + length := by
  have hoffset := @offsetBits_toNat w value least
  rw [Spans] at hspans
  by_cases hbelow : least ≤ value
  · rw [Int.emod_eq_of_lt (by omega) (by omega)] at hoffset
    omega
  · rw [← Int.add_emod_right, Int.emod_eq_of_lt (by omega) (by omega)] at hoffset
    omega

/-- In the window the offset is the value's place. -/
theorem offsetBits_eq {lo hi least value : Int} (hspans : Spans w lo hi) (hleast : lo ≤ least)
    (hvalue : least ≤ value) (hhi : value ≤ hi) :
    ((offsetBits w value least).toNat : Int) = value - least := by
  rw [Spans] at hspans
  rw [offsetBits_toNat, Int.emod_eq_of_lt (by omega) (by omega)]

end Offset

/-- Whether the type's values are held in 64 bits. -/
def ScrutineeType.isWide : ScrutineeType → Bool
  | .i64 | .u64 => true
  | _ => false

variable {t : ScrutineeType}

theorem spans_wide (h : t.isWide = true) : Spans 64 t.bounds.1 t.bounds.2 := by
  cases t with
  | i64 => simp only [Spans, ScrutineeType.bounds]; omega
  | u64 => simp only [Spans, ScrutineeType.bounds]; omega
  | _ => cases h

theorem spans_narrow (h : t.isWide = false) :
    Spans 32 t.bounds.1 t.bounds.2 := by
  cases t with
  | enum last =>
    have := last.isLt
    simp only [Spans, ScrutineeType.bounds]
    omega
  | i64 => cases h
  | u64 => cases h
  | _ => simp only [Spans, ScrutineeType.bounds]; omega

theorem bounds_around_zero (t : ScrutineeType) : t.bounds.1 ≤ 0 ∧ 0 ≤ t.bounds.2 := by
  cases t with
  | enum last =>
    simp only [ScrutineeType.bounds]
    omega
  | _ => simp only [ScrutineeType.bounds]; omega

section Window

variable {t : ScrutineeType}

def leastKey (spans : List ArmSpan) : Int := spans.foldl (fun least span => min least span.lo)
    i64Max

def greatestKey (spans : List ArmSpan) : Int :=
  spans.foldl (fun greatest span => max greatest span.hi) i64Min

variable {spans : List ArmSpan}

theorem foldl_min_le {start : Int} :
    spans.foldl (fun least span => min least span.lo) start ≤ start ∧
      ∀ span ∈ spans, spans.foldl (fun least span => min least span.lo) start ≤ span.lo := by
  induction spans generalizing start with
  | nil => exact ⟨le_rfl, fun span hspan => absurd hspan not_mem_nil⟩
  | cons span spans ih =>
    obtain ⟨hstart, hspans⟩ := @ih (min start span.lo)
    rw [foldl_cons]
    refine ⟨hstart.trans (min_le_left _ _), forall_mem_cons.mpr ⟨?_, hspans⟩⟩
    exact hstart.trans (min_le_right _ _)

theorem le_foldl_max {start : Int} :
    start ≤ spans.foldl (fun greatest span => max greatest span.hi) start ∧
      ∀ span ∈ spans, span.hi ≤ spans.foldl (fun greatest span => max greatest span.hi) start := by
  induction spans generalizing start with
  | nil => exact ⟨le_rfl, fun span hspan => absurd hspan not_mem_nil⟩
  | cons span spans ih =>
    obtain ⟨hstart, hspans⟩ := @ih (max start span.hi)
    rw [foldl_cons]
    refine ⟨(le_max_left _ _).trans hstart, forall_mem_cons.mpr ⟨?_, hspans⟩⟩
    exact (le_max_right _ _).trans hstart

variable {bound start : Int}

theorem le_foldl_min (hstart : bound ≤ start) (hspans : ∀ span ∈ spans, bound ≤ span.lo) :
    bound ≤ spans.foldl (fun least span => min least span.lo) start := by
  induction spans generalizing start with
  | nil => exact hstart
  | cons span spans ih =>
    rw [forall_mem_cons] at hspans
    exact ih (le_min hstart hspans.1) hspans.2

theorem foldl_max_le (hstart : start ≤ bound) (hspans : ∀ span ∈ spans, span.hi ≤ bound) :
    spans.foldl (fun greatest span => max greatest span.hi) start ≤ bound := by
  induction spans generalizing start with
  | nil => exact hstart
  | cons span spans ih =>
    rw [forall_mem_cons] at hspans
    exact ih (max_le hstart hspans.1) hspans.2

/-- The window from the least to the greatest key lies in the type, around every span. -/
theorem window_fits (hfits : ∀ span ∈ spans, SpanFits t span.lo span.hi) :
    t.bounds.1 ≤ leastKey spans ∧ greatestKey spans ≤ t.bounds.2 ∧
      ∀ span ∈ spans, leastKey spans ≤ span.lo ∧ span.hi ≤ greatestKey spans := by
  obtain ⟨hzero, hzero'⟩ := bounds_around_zero t
  refine ⟨le_foldl_min (hzero.trans (by decide)) fun span hspan => (hfits span hspan).1,
    foldl_max_le ((by decide : i64Min ≤ 0).trans hzero') fun span hspan => (hfits span hspan).2.2,
    fun span hspan => ⟨foldl_min_le.2 span hspan, le_foldl_max.2 span hspan⟩⟩

/-- A value no span covers, or covered inside the window. -/
theorem firstSpan_eq_none {value : Int}
    (hwindow : ∀ span ∈ spans, leastKey spans ≤ span.lo ∧ span.hi ≤ greatestKey spans)
    (h : ¬ (leastKey spans ≤ value ∧ value ≤ greatestKey spans)) :
    firstSpan spans value = none := by
  rw [firstSpan, Option.map_eq_none_iff, List.find?_eq_none]
  intro span hspan hcovers
  rw [ArmSpan.covers, Bool.and_eq_true, decide_eq_true_eq, decide_eq_true_eq] at hcovers
  obtain ⟨hlo, hhi⟩ := hwindow span hspan
  exact h ⟨hlo.trans hcovers.1, hcovers.2.trans hhi⟩

end Window

/-- `lo..=hi`. -/
def keysBetween (lo hi : Int) : List Int :=
  (List.range (hi + 1 - lo).toNat).map fun k : Nat => lo + k

@[simp] theorem mem_keysBetween {lo hi key : Int} :
    key ∈ keysBetween lo hi ↔ lo ≤ key ∧ key ≤ hi := by
  rw [keysBetween, mem_map]
  constructor
  · rintro ⟨k, hk, rfl⟩
    rw [mem_range] at hk
    omega
  · rintro ⟨hlo, hhi⟩
    exact ⟨(key - lo).toNat, mem_range.mpr (by omega), by omega⟩

end Wado.KeyDispatch

/-
A match as a set test: the members as a mask of words over the window they span, and
the branch-free test of a value against it.
-/

namespace Wado.KeyDispatch

/-- Below this many members a compare cascade is as cheap as the mask test. -/
def bitsetMinMembers : Nat := 4

/-- Words the mask may span. -/
def bitsetMaxWords : Nat := 4

structure Bitset where
  min : Int
  /-- Values from `min` the words cover. -/
  range : Nat
  /-- Empty when every value in the range is a member: the range compare alone answers. -/
  words : List (BitVec 64)
  /-- What a value outside the set yields; a member yields the opposite. -/
  default : Bool
  deriving DecidableEq

section Analyze

variable (isMember : Nat → Option Bool)

/-- The window before a single value is walked.  Only a member widens it. -/
def memberWindow : List ArmSpan → Int → Int → Option (Int × Int)
  | [], least, greatest => some (least, greatest)
  | span :: spans, least, greatest =>
    match isMember span.arm with
    | none => none
    | some false => memberWindow spans least greatest
    | some true =>
      let least := min least span.lo
      let greatest := max greatest span.hi
      if 64 * bitsetMaxWords ≤ (greatest - least).natAbs then none
      else memberWindow spans least greatest

/-- Bitmaps over the window.  `seen` is what makes it first-match-wins. -/
structure Bitmaps where
  seen : List (BitVec 64)
  words : List (BitVec 64)
  members : Nat

/-- `words[offset / 64] |= 1 << (offset % 64)`. -/
def setBit (words : List (BitVec 64)) (offset : Nat) : List (BitVec 64) :=
  words.modify (offset / 64) fun word => word ||| BitVec.twoPow 64 (offset % 64)

/-- `words[offset / 64] & (1 << (offset % 64)) != 0`. -/
def hasBit (words : List (BitVec 64)) (offset : Nat) : Bool :=
  (words[offset / 64]?.getD 0 &&& BitVec.twoPow 64 (offset % 64)) != 0

def Bitmaps.visit (member : Bool) (maps : Bitmaps) (offset : Nat) : Bitmaps :=
  if hasBit maps.seen offset then maps
  else if member then ⟨setBit maps.seen offset, setBit maps.words offset, maps.members + 1⟩
  else ⟨setBit maps.seen offset, maps.words, maps.members⟩

def visitSpan (least greatest : Int) (maps : Bitmaps) (span : ArmSpan) : Option Bitmaps :=
  (isMember span.arm).map fun member =>
    (keysBetween (max span.lo least) (min span.hi greatest)).foldl
      (fun maps key => maps.visit member (key - least).natAbs) maps

def visitSpans (least greatest : Int) : List ArmSpan → Bitmaps → Option Bitmaps
  | [], maps => some maps
  | span :: spans, maps =>
    (visitSpan isMember least greatest maps span).bind (visitSpans least greatest spans)

def analyzeBitset (spans : List ArmSpan) (default : Bool) : Option Bitset :=
  match memberWindow isMember spans i64Max i64Min with
  | none => none
  | some (least, greatest) =>
    if greatest < least then none
    else
      let range := (greatest - least).natAbs + 1
      let empty := List.replicate ((range + 63) / 64) 0
      match visitSpans isMember least greatest spans ⟨empty, empty, 0⟩ with
      | none => none
      | some maps =>
        if maps.members < bitsetMinMembers then none
        else some ⟨least, range, if maps.members = range then [] else maps.words, default⟩

end Analyze

section Rules

variable {β : Type} (constBool : β → Option Bool)

/-- A set test whose arms each yield a constant.  A match without a wildcard is
exhaustive, so nothing reads its default. -/
def analyzeConstantArms (arms : List (ArmData β)) : Option Bitset :=
  match armSpans arms with
  | none => none
  | some (spans, wildcard) =>
    let default := match wildcard with
      | some i => arms[i]?.bind fun arm => constBool arm.body
      | none => some false
    default.bind fun default =>
      analyzeBitset (fun arm => (arms[arm]?.bind fun arm => constBool arm.body).map (· != default))
        spans default

/-- One set arm and a wildcard, whatever they yield: the set's members take the first
arm. -/
def analyzeTwoWay (arms : List (ArmData β)) : Option Bitset :=
  if arms.length ≠ 2 then none
  else
    match armSpans arms with
    | none => none
    | some (spans, wildcard) =>
      if wildcard ≠ some 1 then none
      else analyzeBitset (fun _ => some true) spans false

inductive BitsetRewrite where
  /-- The test itself, in place of the match. -/
  | test (set : Bitset)
  /-- An `if` on the test: the first arm's body, else the second's. -/
  | twoWay (set : Bitset)
  deriving DecidableEq

/-- The offset is taken in 32 bits, so a wider scrutinee is refused.  `isBool` says that
the match yields a `bool`. -/
def matchToBitset (isBool : Bool) (t : ScrutineeType) (arms : List (ArmData β)) :
    Option BitsetRewrite :=
  if (scrutineeBits t).all (32 < ·) then none
  else
    match if isBool then analyzeConstantArms constBool arms else none with
    | some set => some (.test set)
    | none => (analyzeTwoWay arms).map .twoWay

end Rules

section Test

/-- The word the offset falls in, from the last one backwards so each select guards the
word below it. -/
def selectWord (off : BitVec 32) (lower : List (BitVec 64)) (lastWord : BitVec 64) : BitVec 64 :=
  lower.zipIdx.foldr
    (fun entry word => if off.ult (BitVec.ofNat 32 (64 * (entry.2 + 1))) then entry.1 else word)
    lastWord

/-- Whether an offset is below the range and its bit is set. -/
def Bitset.member (set : Bitset) (off : BitVec 32) : Bool :=
  let inRange := off.ult (BitVec.ofNat 32 set.range)
  match set.words.getLast? with
  | some lastWord =>
    let word := selectWord off set.words.dropLast lastWord
    -- the shift count is masked to the width of the word
    let shifted := word >>> ((off.setWidth 64).toNat % 64)
    inRange && (shifted &&& 1) != 0
  | none => inRange

/-- The test built for a set, of the value's 32 bits. -/
def Bitset.test (set : Bitset) (value : Int) : Bool :=
  let member := set.member (offsetBits 32 value set.min)
  if set.default then !member else member

end Test

section Bits

/-- Masking one bit tells whether it is set. -/
theorem and_twoPow_bne (word : BitVec 64) {k : Nat} (hk : k < 64) :
    ((word &&& BitVec.twoPow 64 k) != 0) = word.getLsbD k := by
  have hne : BitVec.twoPow 64 k ≠ 0 := by
    intro h
    have hbit := congrArg (fun x => x.getLsbD k) h
    simp only [BitVec.getLsbD_twoPow, hk, decide_true, Bool.and_self, BitVec.ofNat_eq_ofNat,
      BitVec.getLsbD_zero, Bool.true_eq_false] at hbit
  rw [BitVec.and_twoPow]
  split
  · rename_i hbit
    rw [hbit]
    exact bne_iff_ne.mpr hne
  · rename_i hbit
    rw [Bool.not_eq_true] at hbit
    rw [hbit]
    rfl

theorem hasBit_eq (words : List (BitVec 64)) (offset : Nat) :
    hasBit words offset = (words[offset / 64]?.getD 0).getLsbD (offset % 64) :=
  and_twoPow_bne _ (Nat.mod_lt _ (by decide))

theorem hasBit_setBit {words : List (BitVec 64)} {offset other : Nat}
    (h : offset / 64 < words.length) :
    hasBit (setBit words offset) other = (hasBit words other || decide (other = offset)) := by
  have hlt : offset % 64 < 64 := Nat.mod_lt _ (by decide)
  rw [hasBit_eq, hasBit_eq, setBit, List.getElem?_modify]
  by_cases hword : offset / 64 = other / 64
  · rw [hword] at h
    have hsame : offset % 64 = other % 64 ↔ other = offset := by omega
    simp only [hword, if_true, List.getElem?_eq_getElem h, Option.map_eq_map, Option.map_some,
      Option.getD_some, BitVec.getLsbD_or, BitVec.getLsbD_twoPow, hlt, decide_true, Bool.true_and,
      hsame]
  · have hother : other ≠ offset := fun heq => hword (by rw [heq])
    simp only [hword, if_false, hother, decide_false, Bool.or_false]
    cases words[other / 64]? <;> rfl

theorem setBit_length (words : List (BitVec 64)) (offset : Nat) :
    (setBit words offset).length = words.length := List.length_modify _ _ _

end Bits

end Wado.KeyDispatch
