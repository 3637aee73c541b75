/-
The bitmaps of a set: what walking the spans marks, first span first, and the members
it counts.
-/
import Wado.KeyDispatch.Bitset

namespace Wado.KeyDispatch

open List Option

variable {spans : List ArmSpan}

section Marks

variable {isMember : Nat → Option Bool} {n : Nat}

/-- Whether an arm, where there is one, is a member's. -/
def memberArm (isMember : Nat → Option Bool) (arm : Option Nat) : Bool :=
  arm.any fun arm => isMember arm == some true

/-- The bitmaps once each offset below `n` has the arm `first` gives it, if any. -/
structure Marks (isMember : Nat → Option Bool) (n : Nat) (first : Nat → Option Nat)
    (maps : Bitmaps) : Prop where
  seenLength : maps.seen.length = (n + 63) / 64
  wordsLength : maps.words.length = (n + 63) / 64
  seen : ∀ offset < n, hasBit maps.seen offset = (first offset).isSome
  words : ∀ offset < n, hasBit maps.words offset = memberArm isMember (first offset)
  members : maps.members =
    ((Finset.range n).filter fun offset => memberArm isMember (first offset) = true).card

variable {first : Nat → Option Nat}

variable {maps : Bitmaps} {member : Bool}

/-- Visiting an offset gives it the arm, unless it has one. -/
theorem Marks.visit {arm offset : Nat}
    (h : Marks isMember n first maps) (hmember : isMember arm = some member)
    (hoffset : offset < n) :
    Marks isMember n (fun o => (first o).or (if o = offset then some arm else none))
      (maps.visit member offset) := by
  have hseen := h.seen offset hoffset
  have hlength := h.seenLength
  have hlength' := h.wordsLength
  cases hfirst : first offset with
  | some earlier =>
    have hsame : (fun o => (first o).or (if o = offset then some arm else none)) = first := by
      funext o
      by_cases ho : o = offset
      · rw [ho, hfirst, some_or]
      · rw [if_neg ho, or_none]
    rw [hfirst, isSome_some] at hseen
    rw [hsame, Bitmaps.visit, if_pos hseen]
    exact h
  | none =>
    have hother : ∀ o, o ≠ offset →
        (first o).or (if o = offset then some arm else none) = first o := by
      intro o ho
      rw [if_neg ho, or_none]
    have hhere : (first offset).or (if offset = offset then some arm else none) = some arm := by
      rw [hfirst, if_pos rfl, none_or]
    have hseen' : ∀ o < n, hasBit (setBit maps.seen offset) o =
        ((first o).or (if o = offset then some arm else none)).isSome := by
      intro o ho
      rw [hasBit_setBit (by omega), h.seen o ho]
      by_cases heq : o = offset
      · rw [heq, hhere, decide_eq_true rfl, Bool.or_true, isSome_some]
      · rw [hother o heq, decide_eq_false heq, Bool.or_false]
    rw [hfirst, isSome_none] at hseen
    rw [Bitmaps.visit, if_neg (by rw [hseen]; exact Bool.false_ne_true)]
    cases member with
    | true =>
      rw [if_pos rfl]
      constructor
      · rwa [setBit_length]
      · rwa [setBit_length]
      · exact hseen'
      · intro o ho
        rw [hasBit_setBit (by omega), h.words o ho]
        by_cases heq : o = offset
        · rw [heq, hhere, decide_eq_true rfl, Bool.or_true, memberArm, any_some,
            hmember, beq_self_eq_true]
        · rw [hother o heq, decide_eq_false heq, Bool.or_false]
      · have hfilter : ((Finset.range n).filter fun o => memberArm isMember
            ((first o).or (if o = offset then some arm else none)) = true) =
            insert offset
              ((Finset.range n).filter fun o => memberArm isMember (first o) = true) := by
          ext o
          rw [Finset.mem_filter, Finset.mem_insert, Finset.mem_filter, Finset.mem_range]
          by_cases heq : o = offset
          · rw [heq, hhere, memberArm, any_some, hmember, beq_self_eq_true]
            exact ⟨fun _ => .inl rfl, fun _ => ⟨hoffset, rfl⟩⟩
          · rw [hother o heq]
            exact ⟨.inr, fun h => h.resolve_left heq⟩
        have hnew : offset ∉
            (Finset.range n).filter fun o => memberArm isMember (first o) = true := by
          rw [Finset.mem_filter, hfirst]
          exact fun h => Bool.false_ne_true h.2
        rw [hfilter, Finset.card_insert_of_notMem hnew, h.members]
    | false =>
      have hkept : ∀ o, memberArm isMember
          ((first o).or (if o = offset then some arm else none)) =
            memberArm isMember (first o) := by
        intro o
        by_cases heq : o = offset
        · rw [heq, hhere, hfirst, memberArm, any_some, hmember]
          rfl
        · rw [hother o heq]
      rw [if_neg Bool.false_ne_true]
      constructor
      · rwa [setBit_length]
      · exact h.wordsLength
      · exact hseen'
      · intro o ho
        rw [hkept, h.words o ho]
      · simp only [hkept]
        exact h.members

theorem Marks.congr {first first' : Nat → Option Nat} {maps : Bitmaps}
    (h : Marks isMember n first maps) (heq : ∀ o < n, first o = first' o) :
    Marks isMember n first' maps := by
  refine ⟨h.seenLength, h.wordsLength, fun o ho => heq o ho ▸ h.seen o ho,
    fun o ho => heq o ho ▸ h.words o ho, ?_⟩
  rw [h.members]
  congr 1
  refine Finset.filter_congr fun o ho => ?_
  rw [heq o (Finset.mem_range.mp ho)]

/-- Visiting the keys of a span gives their offsets the span's arm. -/
theorem Marks.visitKeys {arm : Nat}
    {least : Int} {keys : List Int} (h : Marks isMember n first maps)
    (hmember : isMember arm = some member) (hkeys : ∀ key ∈ keys, least ≤ key ∧ key < least + n) :
    Marks isMember n (fun o => (first o).or (if least + o ∈ keys then some arm else none))
      (keys.foldl (fun maps key => maps.visit member (key - least).natAbs) maps) := by
  induction keys generalizing first maps with
  | nil =>
    simp only [not_mem_nil, if_false, or_none, foldl_nil]
    exact h
  | cons key keys ih =>
    rw [forall_mem_cons] at hkeys
    obtain ⟨hleast, hlast⟩ := hkeys.1
    refine (ih (h.visit hmember (by omega : (key - least).natAbs < n)) hkeys.2).congr
      fun o ho => ?_
    have hoffset : o = (key - least).natAbs ↔ least + (o : Int) = key := by omega
    simp only [hoffset, mem_cons]
    by_cases hkey : least + (o : Int) = key
    · simp only [hkey, if_true, true_or]
      cases first o <;> rfl
    · simp only [hkey, if_false, false_or, or_none]

/-- Walking the spans gives each offset the arm of the first span that covers it. -/
theorem Marks.visitSpans {maps maps' : Bitmaps} {least greatest : Int}
    (h : Marks isMember n first maps) (hn : least + n = greatest + 1)
    (hvisit : visitSpans isMember least greatest spans maps = some maps') :
    Marks isMember n (fun o => (first o).or (firstSpan spans (least + o))) maps' ∧
      ∀ span ∈ spans, ∃ member, isMember span.arm = some member := by
  induction spans generalizing first maps with
  | nil =>
    obtain rfl := Option.some.inj hvisit
    refine ⟨h.congr fun o _ => (or_none).symm, fun span hspan => ?_⟩
    exact absurd hspan not_mem_nil
  | cons span spans ih =>
    obtain ⟨maps₁, hspan, hrest⟩ := bind_eq_some_iff.mp hvisit
    obtain ⟨member, hmember, rfl⟩ := map_eq_some_iff.mp hspan
    have hkeys : ∀ key ∈ keysBetween (max span.lo least) (min span.hi greatest),
        least ≤ key ∧ key < least + n := by
      intro key hkey
      rw [mem_keysBetween] at hkey
      omega
    obtain ⟨hmarks, hall⟩ := ih (h.visitKeys hmember hkeys) hrest
    refine ⟨hmarks.congr fun o ho => ?_, forall_mem_cons.mpr ⟨⟨member, hmember⟩, hall⟩⟩
    have hcovers : least + (o : Int) ∈ keysBetween (max span.lo least) (min span.hi greatest) ↔
        span.covers (least + o) = true := by
      rw [mem_keysBetween, ArmSpan.covers, Bool.and_eq_true, decide_eq_true_eq, decide_eq_true_eq]
      omega
    rw [firstSpan_cons, Option.or_assoc]
    simp only [hcovers]
    split <;> rfl

end Marks

section Window

variable {isMember : Nat → Option Bool}

/-- The window holds every member's span, stays inside any bounds the spans keep, and is
narrow once a member has widened it. -/
theorem memberWindow_spec {least greatest lo hi : Int}
    {window : Int × Int} (h : memberWindow isMember spans least greatest = some window)
    (hleast : lo ≤ least) (hgreatest : greatest ≤ hi)
    (hspans : ∀ span ∈ spans, lo ≤ span.lo ∧ span.hi ≤ hi) :
    (lo ≤ window.1 ∧ window.2 ≤ hi) ∧ (window.1 ≤ least ∧ greatest ≤ window.2) ∧
      (∀ span ∈ spans, isMember span.arm = some true → window.1 ≤ span.lo ∧ span.hi ≤ window.2) ∧
      (window = (least, greatest) ∨ (window.2 - window.1).natAbs < 64 * bitsetMaxWords) := by
  induction spans generalizing least greatest with
  | nil =>
    obtain rfl := Option.some.inj h
    exact ⟨⟨hleast, hgreatest⟩, ⟨le_rfl, le_rfl⟩,
      fun span hspan => absurd hspan not_mem_nil, .inl rfl⟩
  | cons span spans ih =>
    rw [forall_mem_cons] at hspans
    rw [memberWindow] at h
    split at h
    · cases h
    · rename_i hmember
      obtain ⟨hbounds, hwider, hall, hwidth⟩ := ih h hleast hgreatest hspans.2
      refine ⟨hbounds, hwider, forall_mem_cons.mpr ⟨fun htrue => ?_, hall⟩, hwidth⟩
      rw [hmember] at htrue
      cases htrue
    · simp only at h
      split at h
      · cases h
      · rename_i hnarrow
        obtain ⟨hbounds, hwider, hall, hwidth⟩ := ih h (le_min hleast hspans.1.1)
          (max_le hgreatest hspans.1.2) hspans.2
        refine ⟨hbounds, ⟨hwider.1.trans (min_le_left _ _), (le_max_left _ _).trans hwider.2⟩,
          forall_mem_cons.mpr ⟨fun _ => ?_, hall⟩, .inr ?_⟩
        · exact ⟨hwider.1.trans (min_le_right _ _), (le_max_right _ _).trans hwider.2⟩
        · rcases hwidth with rfl | hwidth
          · exact not_le.mp hnarrow
          · exact hwidth

end Window

section Analyze

variable {isMember : Nat → Option Bool} {t : ScrutineeType}

theorem hasBit_replicate (n offset : Nat) : hasBit (List.replicate n 0) offset = false := by
  rw [hasBit_eq, List.getElem?_replicate]
  split <;> exact BitVec.getLsbD_zero

/-- What an accepted set is. -/
structure Accepted (isMember : Nat → Option Bool) (spans : List ArmSpan) (set : Bitset)
    (greatest : Int) : Prop where
  window : set.min + set.range = greatest + 1
  narrow : set.range ≤ 64 * bitsetMaxWords
  covers : ∀ span ∈ spans, isMember span.arm = some true → set.min ≤ span.lo ∧ span.hi ≤ greatest
  told : ∀ span ∈ spans, ∃ member, isMember span.arm = some member
  wordsLength : set.words.length = 0 ∨ set.words.length = (set.range + 63) / 64
  words : ∀ offset < set.range, (set.words.length = 0 ∨ hasBit set.words offset = true) ↔
      memberArm isMember (firstSpan spans (set.min + offset)) = true

theorem analyzeBitset_accepted {default : Bool} {set : Bitset}
    (h : analyzeBitset isMember spans default = some set)
    (hfits : ∀ span ∈ spans, SpanFits t span.lo span.hi) :
    set.default = default ∧ ∃ greatest, Accepted isMember spans set greatest ∧
      t.bounds.1 ≤ set.min ∧ greatest ≤ t.bounds.2 := by
  obtain ⟨hzero, hzero'⟩ := bounds_around_zero t
  rw [analyzeBitset] at h
  split at h
  · cases h
  · rename_i least greatest hwindow
    obtain ⟨hbounds, -, hcovers, hwidth⟩ := memberWindow_spec hwindow
      (hzero.trans (by decide)) ((by decide : i64Min ≤ 0).trans hzero')
      fun span hspan => ⟨(hfits span hspan).1, (hfits span hspan).2.2⟩
    split at h
    · cases h
    · rename_i hle
      simp only at h
      split at h
      · cases h
      · rename_i maps hmaps
        split at h
        · cases h
        · obtain rfl := Option.some.inj h
          have hnarrow : (greatest - least).natAbs < 64 * bitsetMaxWords := by
            rcases hwidth with hsame | hwidth
            · obtain ⟨rfl, rfl⟩ := Prod.mk.inj hsame
              exact absurd (by decide : i64Min < i64Max) hle
            · exact hwidth
          have hmarks : Marks isMember ((greatest - least).natAbs + 1) (fun _ => none)
              ⟨List.replicate (((greatest - least).natAbs + 1 + 63) / 64) 0,
                List.replicate (((greatest - least).natAbs + 1 + 63) / 64) 0, 0⟩ := by
            refine ⟨length_replicate, length_replicate, fun o _ => hasBit_replicate _ o,
              fun o _ => hasBit_replicate _ o, ?_⟩
            simp only [memberArm, any_none, Bool.false_eq_true, Finset.filter_false,
              Finset.card_empty]
          obtain ⟨hvisited, htold⟩ := hmarks.visitSpans (by omega) hmaps
          have hfirst : Marks isMember ((greatest - least).natAbs + 1)
              (fun o => firstSpan spans (least + o)) maps :=
            hvisited.congr fun o _ => none_or
          refine ⟨rfl, greatest, ⟨by simp only; omega, by simp only; omega, hcovers, htold, ?_, ?_⟩,
            hbounds⟩
          · simp only
            split
            · exact .inl rfl
            · exact .inr hfirst.wordsLength
          · intro offset hoffset
            simp only at hoffset ⊢
            split
            · rename_i hall
              rw [hfirst.members] at hall
              have hevery := Finset.card_filter_eq_iff.mp (hall.trans (Finset.card_range _).symm)
              exact ⟨fun _ => hevery offset (Finset.mem_range.mpr hoffset), fun _ => .inl rfl⟩
            · rw [← hfirst.words offset hoffset]
              refine ⟨fun h => h.resolve_left ?_, .inr⟩
              rw [hfirst.wordsLength]
              omega

end Analyze

end Wado.KeyDispatch
