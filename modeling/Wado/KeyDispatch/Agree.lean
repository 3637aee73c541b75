/-
The rewritten match selects the arm the match selects: the switch, the set test, and the
`if` on it.
-/
import Wado.KeyDispatch.BitsetMarks
import Wado.KeyDispatch.Switch

namespace Wado.KeyDispatch

open List Option BitVec

variable {set : Bitset}

section Test

variable {off : BitVec 32} {lastWord : BitVec 64}

/-- The selects leave the word the offset falls in. -/
theorem selectWord_from {lower : List (BitVec 64)} {k : Nat} (hk : 64 * k ≤ off.toNat)
    (hshort : 64 * (k + lower.length) < 2 ^ 32) :
    (lower.zipIdx k).foldr
      (fun entry word => if off.ult (BitVec.ofNat 32 (64 * (entry.2 + 1))) then entry.1 else word)
      lastWord = lower[off.toNat / 64 - k]?.getD lastWord := by
  induction lower generalizing k with
  | nil => rfl
  | cons word lower ih =>
    rw [length_cons] at hshort
    have hbound : (BitVec.ofNat 32 (64 * (k + 1))).toNat = 64 * (k + 1) :=
      Nat.mod_eq_of_lt (by omega)
    rw [zipIdx_cons, foldr_cons, ult_eq_decide, hbound]
    by_cases hlt : off.toNat < 64 * (k + 1)
    · have hplace : off.toNat / 64 - k = 0 := by omega
      rw [if_pos (decide_eq_true hlt), hplace]
      rfl
    · have hplace : off.toNat / 64 - k = (off.toNat / 64 - (k + 1)) + 1 := by omega
      rw [if_neg (by rw [decide_eq_true_eq]; exact hlt), ih (by omega) (by omega), hplace,
        List.getElem?_cons_succ]

theorem selectWord_bit {lower : List (BitVec 64)}
    (hin : off.toNat / 64 < (lower ++ [lastWord]).length) (hshort : lower.length ≤ bitsetMaxWords) :
    (selectWord off lower lastWord).getLsbD (off.toNat % 64) =
      hasBit (lower ++ [lastWord]) off.toNat := by
  rw [bitsetMaxWords] at hshort
  rw [selectWord, selectWord_from (Nat.zero_le _) (by omega), Nat.sub_zero, hasBit_eq]
  rw [length_append, length_singleton] at hin
  by_cases hlower : off.toNat / 64 < lower.length
  · rw [List.getElem?_append_left hlower, List.getElem?_eq_getElem hlower]
    rfl
  · have hlast : off.toNat / 64 = lower.length := by omega
    rw [hlast, List.getElem?_eq_none (Nat.le_refl _), List.getElem?_append_right (Nat.le_refl _),
      Nat.sub_self]
    rfl

/-- The test answers by whether the value's first span is a member's. -/
theorem Accepted.test_eq {isMember : Nat → Option Bool} {spans : List ArmSpan}
    {greatest value : Int} {t : ScrutineeType} (h : Accepted isMember spans set greatest)
    (ht : t.isWide = false) (hleast : t.bounds.1 ≤ set.min) (hgreatest : greatest ≤ t.bounds.2)
    (hvalue : t.Holds value) :
    set.test value = (set.default != memberArm isMember (firstSpan spans value)) := by
  have hspans := spans_narrow ht
  have hwindow := h.window
  have hnarrow := h.narrow
  rw [bitsetMaxWords] at hnarrow
  have hrange : (BitVec.ofNat 32 set.range).toNat = set.range := Nat.mod_eq_of_lt (by omega)
  have hlt := @offsetBits_lt_iff 32 _ _ set.min value set.range hspans hleast (by omega) hvalue.1
    hvalue.2
  suffices hmember : set.member (offsetBits 32 value set.min) =
      memberArm isMember (firstSpan spans value) by
    rw [Bitset.test, hmember]
    cases set.default <;> cases memberArm isMember (firstSpan spans value) <;> rfl
  generalize hoff : offsetBits 32 value set.min = off at hlt ⊢
  rw [Bitset.member]
  dsimp only
  rw [ult_eq_decide, hrange]
  by_cases hin : off.toNat < set.range
  · have hplace : set.min + (off.toNat : Int) = value := by
      have := @offsetBits_eq 32 _ _ set.min value hspans hleast (hlt.mp hin).1 hvalue.2
      rw [hoff] at this
      omega
    have hwords := h.words off.toNat hin
    rw [hplace] at hwords
    rw [Bool.eq_iff_iff, ← hwords, decide_eq_true hin]
    cases hlast : set.words.getLast? with
    | none =>
      rw [List.getLast?_eq_none_iff] at hlast
      rw [hlast]
      exact ⟨fun _ => .inl rfl, fun _ => rfl⟩
    | some lastWord =>
      have hsplit : set.words.dropLast ++ [lastWord] = set.words :=
        dropLast_append_getLast? lastWord hlast
      have hlength : set.words.length ≠ 0 := by
        rw [← hsplit, length_append, length_singleton]
        omega
      have hfull := h.wordsLength.resolve_left hlength
      have hshort : set.words.dropLast.length ≤ bitsetMaxWords := by
        rw [length_dropLast, bitsetMaxWords]
        omega
      have hbit := @selectWord_bit off lastWord set.words.dropLast
        (by rw [hsplit, hfull]; omega) hshort
      have hshift : (off.setWidth 64).toNat = off.toNat :=
        toNat_setWidth_of_le (by decide)
      have hone : (1 : BitVec 64) = BitVec.twoPow 64 0 := twoPow_zero.symm
      dsimp only
      rw [Bool.true_and, hshift, hone, and_twoPow_bne _ (by decide), getLsbD_ushiftRight,
        Nat.add_zero, hbit, hsplit]
      exact ⟨.inr, fun hor => hor.resolve_left hlength⟩
  · have hnone : memberArm isMember (firstSpan spans value) = false := by
      rw [← Bool.not_eq_true]
      intro hmember
      obtain ⟨arm, harm, hmemberArm⟩ := (any_eq_true _ _).mp hmember
      obtain ⟨span, hspan, rfl⟩ := map_eq_some_iff.mp harm
      have hcovers := List.find?_some hspan
      rw [ArmSpan.covers, Bool.and_eq_true, decide_eq_true_eq, decide_eq_true_eq] at hcovers
      obtain ⟨hlo, hhi⟩ := h.covers span (mem_of_find?_eq_some hspan)
        (beq_iff_eq.mp hmemberArm)
      exact hin (hlt.mpr (by omega))
    rw [decide_eq_false hin, hnone]
    cases set.words.getLast? with
    | none => rfl
    | some lastWord => rfl

end Test

section Rewrites

variable {β : Type} {constBool : β → Option Bool} {t : ScrutineeType} {arms : List (ArmData β)}
  {value : Int}

theorem isWide_of_bits (h : (scrutineeBits t).all (32 < ·) = false) : t.isWide = false := by
  cases t <;> first | rfl | cases h

/-- A set test on constant arms yields what the arm selected yields. -/
theorem analyzeConstantArms_test (run : Run)
    (hfits : ∀ arm ∈ arms, arm.pattern.Fits t) (ht : t.isWide = false)
    (h : analyzeConstantArms constBool arms = some set) (hvalue : t.Holds value) {i : Nat}
    (hi : firstArm run value arms = some i) :
    ∃ arm, arms[i]? = some arm ∧ constBool arm.body = some (set.test value) := by
  rw [analyzeConstantArms] at h
  split at h
  · cases h
  · rename_i spans wildcard hspans
    simp only at h
    obtain ⟨default, hdefault, hset⟩ := bind_eq_some_iff.mp h
    obtain ⟨rfl, greatest, haccepted, hleast, hgreatest⟩ := analyzeBitset_accepted hset
      (armSpansFrom_fits hspans hfits)
    have htest := haccepted.test_eq ht hleast hgreatest hvalue
    rw [firstArm_eq run value hspans] at hi
    cases hfirst : firstSpan spans value with
    | some arm =>
      rw [hfirst, some_or] at hi
      obtain rfl := Option.some.inj hi
      obtain ⟨span, hspan, rfl⟩ := map_eq_some_iff.mp hfirst
      obtain ⟨member, hmember⟩ := haccepted.told span (mem_of_find?_eq_some hspan)
      have harm := hmember
      obtain ⟨value', hvalue', rfl⟩ := map_eq_some_iff.mp harm
      obtain ⟨arm, harm, hconst⟩ := bind_eq_some_iff.mp hvalue'
      refine ⟨arm, harm, ?_⟩
      rw [htest, hfirst, memberArm, any_some, hmember, hconst]
      cases set.default <;> cases value' <;> rfl
    | none =>
      rw [hfirst, none_or] at hi
      subst hi
      obtain ⟨arm, harm, hconst⟩ := bind_eq_some_iff.mp hdefault
      refine ⟨arm, harm, ?_⟩
      rw [htest, hfirst, memberArm, any_none, hconst]
      cases set.default <;> rfl

/-- A test of one set arm and a wildcard tells which of the two is selected. -/
theorem analyzeTwoWay_test (run : Run) (hfits : ∀ arm ∈ arms, arm.pattern.Fits t)
    (ht : t.isWide = false) (h : analyzeTwoWay arms = some set) (hvalue : t.Holds value) :
    firstArm run value arms = some (if set.test value then 0 else 1) := by
  rw [analyzeTwoWay] at h
  split at h
  · cases h
  · split at h
    · cases h
    · rename_i spans wildcard hspans
      split at h
      · cases h
      · rename_i hwildcard
        have hone : wildcard = some 1 := not_not.mp hwildcard
        obtain ⟨hdefault, greatest, haccepted, hleast, hgreatest⟩ := analyzeBitset_accepted h
          (armSpansFrom_fits hspans hfits)
        have htest := haccepted.test_eq ht hleast hgreatest hvalue
        rw [firstArm_eq run value hspans, htest, hdefault, hone]
        cases hfirst : firstSpan spans value with
        | none => rfl
        | some arm =>
          obtain ⟨span, hspan, rfl⟩ := map_eq_some_iff.mp hfirst
          have hzero : span.arm < 1 :=
            span_lt_wildcard (hone ▸ hspans) span (mem_of_find?_eq_some hspan)
          rw [Nat.lt_one_iff.mp hzero]
          rfl

/-- A match rewritten by either rule selects, for every value of the scrutinee's type,
the arm that trying the arms in order selects: the switch runs that arm, the set test
yields what that arm yields, and the `if` takes the branch that is that arm's. -/
theorem rewrites_select (run : Run) (isBool : Bool) (hfits : ∀ arm ∈ arms, arm.pattern.Fits t)
    (hvalue : t.Holds value) :
    (∀ s, matchToSwitch t arms = some s → s.selects t value = firstArm run value arms) ∧
    (∀ set, matchToBitset constBool isBool t arms = some (.test set) →
      ∀ i, firstArm run value arms = some i →
        ∃ arm, arms[i]? = some arm ∧ constBool arm.body = some (set.test value)) ∧
    ∀ set, matchToBitset constBool isBool t arms = some (.twoWay set) →
      firstArm run value arms = some (if set.test value then 0 else 1) := by
  refine ⟨fun s hs => matchToSwitch_selects run hfits hs hvalue, fun set hset i hi => ?_,
    fun set hset => ?_⟩
  · rw [matchToBitset] at hset
    split at hset
    · cases hset
    · rename_i hbits
      have ht := isWide_of_bits ((Bool.not_eq_true _).mp hbits)
      split at hset
      · rename_i set' hconstant
        obtain rfl := BitsetRewrite.test.inj (Option.some.inj hset)
        split at hconstant
        · exact analyzeConstantArms_test run hfits ht hconstant hvalue hi
        · cases hconstant
      · obtain ⟨_, -, htwo⟩ := Option.map_eq_some_iff.mp hset
        cases htwo
  · rw [matchToBitset] at hset
    split at hset
    · cases hset
    · rename_i hbits
      have ht := isWide_of_bits ((Bool.not_eq_true _).mp hbits)
      split at hset
      · cases hset
      · obtain ⟨set', htwo, heq⟩ := Option.map_eq_some_iff.mp hset
        obtain rfl := BitsetRewrite.twoWay.inj heq
        exact analyzeTwoWay_test run hfits ht htwo hvalue

/-- The sixteen greatest values of a `u32`, as two ranges of one arm. -/
def greatestArms : List (ArmData Bool) :=
  [⟨.or [.range 4294967280 4294967287 true, .range 4294967288 4294967295 true], none, true⟩,
    ⟨.wildcard, none, false⟩]

def noGuards : Run :=
  ⟨fun _ => 0, fun _ => true⟩

theorem rewrites_select_greatest : (∃ s, matchToSwitch .u32 greatestArms = some s ∧
      s.selects .u32 4294967290 = firstArm noGuards 4294967290 greatestArms) ∧
    (∃ set, matchToBitset some true .u32 greatestArms = some (.test set) ∧
      ∃ arm, greatestArms[0]? = some arm ∧ some arm.body = some (set.test 4294967290)) ∧
    ∃ set, matchToBitset some false .u32 greatestArms = some (.twoWay set) ∧
      firstArm noGuards 4294967290 greatestArms = some (if set.test 4294967290 then 0 else 1) := by
  have hfits : ∀ arm ∈ greatestArms, arm.pattern.Fits .u32 := by
    intro arm harm
    rcases List.mem_pair.mp harm with rfl | rfl
    · simp [PatKind.Fits, AllFit, ScrutineeType.bounds]
    · trivial
  have hvalue : ScrutineeType.u32.Holds 4294967290 := by
    constructor <;> simp [ScrutineeType.bounds]
  have hfirst : firstArm noGuards 4294967290 greatestArms = some 0 := rfl
  obtain ⟨hswitch, htest, -⟩ := @rewrites_select Bool some .u32 greatestArms 4294967290 noGuards
    true
    hfits hvalue
  obtain ⟨-, -, htwo⟩ := @rewrites_select Bool some .u32 greatestArms 4294967290 noGuards false
    hfits hvalue
  refine ⟨?_, ?_, ?_⟩
  · have hsome : (matchToSwitch .u32 greatestArms).isSome = true := by decide
    obtain ⟨s, hs⟩ := Option.isSome_iff_exists.mp hsome
    exact ⟨s, hs, hswitch s hs⟩
  · have hs : matchToBitset some true .u32 greatestArms =
        some (.test ⟨4294967280, 16, [], false⟩) := by
      set_option maxRecDepth 4000 in decide
    exact ⟨_, hs, htest _ hs 0 hfirst⟩
  · have hs : matchToBitset some false .u32 greatestArms =
        some (.twoWay ⟨4294967280, 16, [], false⟩) := by
      set_option maxRecDepth 4000 in decide
    exact ⟨_, hs, htwo _ hs⟩

end Rewrites

end Wado.KeyDispatch
