/-
Array storage that owns affine elements: what the elaborated builtins that move, store, take,
replace and release elements leave in the slots, and what they drop.
-/
import Mathlib.Data.List.Nodup
import Mathlib.Tactic.Ring
import Mathlib.Tactic.SplitIfs

namespace Wado.AffineDrop

open List Option

/-- How a type is laid out, as far as storing and replacing its values go. -/
inductive Layout
  /-- A resource, or a stream or future end. -/
  | handle
  /-- A list, with its fields. -/
  | list (fields : List Nat) (distinct : fields.Nodup)
  /-- A struct's fields or a tuple's elements; a tuple may be represented by its elements. -/
  | fields (fields : List Nat) (distinct : fields.Nodup) (represented : Bool)
  /-- An array, a variant, or anything else. -/
  | other

def Layout.isObject : Layout → Bool
  | .handle | .list _ _ => true
  | .fields _ _ represented => !represented
  | .other => false

/-- Arrays of slots that hold elements, and what the elements hold by field; a vacant slot is null.
What is dropped and which slots are released is kept in order, the last first. -/
structure Store (Value : Type) where
  length : Nat → Int
  slots : Nat → Int → Option Nat
  content : Nat → Nat → Value
  dropped : List (Nat → Value)
  released : List (Nat × Int × Int)

variable {Value : Type}

namespace Store

/-- The range lies within the array; the builtins trap where theirs does not. -/
def InRange (s : Store Value) (array : Nat) (offset len : Int) : Prop :=
  0 ≤ offset ∧ 0 ≤ len ∧ offset + len ≤ s.length array

instance decidableInRange (s : Store Value) (array : Nat) (offset len : Int) :
    Decidable (s.InRange array offset len) :=
  inferInstanceAs (Decidable (_ ∧ _))

def arrayGetValue (s : Store Value) (array : Nat) (index : Int) : Option (Option Nat) :=
  if s.InRange array index 1 then some (s.slots array index) else none

def arraySet (s : Store Value) (array : Nat) (index : Int) (value : Nat) : Option (Store Value) :=
  if s.InRange array index 1 then
    some { s with
      slots := fun a i => if a = array ∧ i = index then some value else s.slots a i }
  else none

/-- The elements are copied as if through a buffer. -/
def arrayMove (s : Store Value) (dst : Nat) (dstOffset : Int) (src : Nat) (srcOffset len : Int) :
    Option (Store Value) :=
  if s.InRange dst dstOffset len ∧ s.InRange src srcOffset len then
    some { s with
      slots := fun a i =>
        if a = dst ∧ dstOffset ≤ i ∧ i < dstOffset + len then
          s.slots src (srcOffset + (i - dstOffset))
        else s.slots a i }
  else none

def arrayRelease (s : Store Value) (array : Nat) (offset len : Int) : Option (Store Value) :=
  if s.InRange array offset len then
    some { s with
      slots := fun a i =>
        if a = array ∧ offset ≤ i ∧ i < offset + len then none else s.slots a i
      released := (array, offset, len) :: s.released }
  else none

/-- What a slot's element holds. -/
def holds (s : Store Value) (array : Nat) (index : Int) : Option (Nat → Value) :=
  (s.slots array index).map s.content

def dropValue (s : Store Value) (element : Nat) : Store Value :=
  { s with dropped := s.content element :: s.dropped }

/-- A moved element is null. -/
def dropIfHeld (s : Store Value) (element : Option Nat) : Store Value :=
  element.elim s s.dropValue

/-- Assigning to an object writes what the other holds into it. -/
def assign (s : Store Value) (place stored : Nat) : Store Value :=
  { s with content := fun e => if e = place then s.content stored else s.content e }

/-- Empties a stored object, where its layout has it: `emptied` is what a handle, or the affine
fields, are zeroed to. -/
def zeroObject (s : Store Value) (layout : Layout) (emptied : (Nat → Value) → Nat → Value)
    (value : Nat) : Store Value :=
  match layout with
  | .handle | .fields _ _ _ =>
    { s with content := fun e => if e = value then emptied (s.content value) else s.content e }
  | .list _ _ | .other => s

/-- The exchange of the handles two objects are. -/
def swapHandles (s : Store Value) (place value : Nat) : Store Value :=
  { s with content := fun e =>
      if e = place then s.content value else if e = value then s.content place else s.content e }

/-- The exchange of one field of two objects. -/
def exchangeField (place value : Nat) (s : Store Value) (field : Nat) : Store Value :=
  let exchanged := s.content place field
  let s := { s with content := fun e f =>
    if e = place ∧ f = field then s.content value field else s.content e f }
  { s with content := fun e f => if e = value ∧ f = field then exchanged else s.content e f }

end Store

/-- Arithmetic on 32-bit integers wraps. -/
def wrap (n : Int) : Int := Int.bmod n (2 ^ 32)

namespace Store

/-- Empties the source slots that the destination range does not cover. -/
def vacateMoved (s : Store Value) (dst : Nat) (dstOffset : Int) (src : Nat) (srcOffset len : Int) :
    Option (Store Value) :=
  let srcEnd := wrap (srcOffset + len)
  if dst = src then
    if dstOffset > srcOffset then
      let shift := wrap (dstOffset - srcOffset)
      s.arrayRelease src srcOffset (if shift < len then shift else len)
    else if dstOffset < srcOffset then
      let dstEnd := wrap (dstOffset + len)
      let leftStart := if dstEnd > srcOffset then dstEnd else srcOffset
      s.arrayRelease src leftStart (wrap (srcEnd - leftStart))
    else some s
  else s.arrayRelease src srcOffset len

def elabMove (s : Store Value) (dst : Nat) (dstOffset : Int) (src : Nat) (srcOffset len : Int) :
    Option (Store Value) := do
  let s ← s.arrayMove dst dstOffset src srcOffset len
  s.vacateMoved dst dstOffset src srcOffset len

/-- The element taken out of an affine slot. -/
def elabTake (s : Store Value) (array : Nat) (index : Int) :
    Option (Option Nat × Store Value) := do
  let taken ← s.arrayGetValue array index
  let s ← s.arrayRelease array index 1
  return (taken, s)

def storeIntoObject (s : Store Value) (layout : Layout) (emptied : (Nat → Value) → Nat → Value)
    (place : Option Nat) (stored : Nat) (repoint : Store Value → Option (Store Value)) :
    Option (Store Value) :=
  match place with
  | none => repoint s
  | some place => some (((s.dropValue place).assign place stored).zeroObject layout emptied stored)

def elabSet (s : Store Value) (layout : Layout) (emptied : (Nat → Value) → Nat → Value)
    (array : Nat) (index : Int) (value : Nat) : Option (Store Value) := do
  let held ← s.arrayGetValue array index
  let repoint := fun s : Store Value => s.arraySet array index value
  if layout.isObject then s.storeIntoObject layout emptied held value repoint
  else repoint (s.dropIfHeld held)

/-- The slots from an index on are read and what they hold is dropped, so many rounds. -/
def dropSlots (array : Nat) : Nat → Int → Store Value → Option (Store Value)
  | 0, _, s => some s
  | rounds + 1, index, s => do
    let slot ← s.arrayGetValue array index
    dropSlots array rounds (wrap (index + 1)) (s.dropIfHeld slot)

def elabRelease (s : Store Value) (array : Nat) (offset len : Int) : Option (Store Value) := do
  let stop := wrap (offset + len)
  let s ← dropSlots array (stop - offset).toNat offset s
  s.arrayRelease array offset len

/-- `replace` through a reference to a slot: the two objects exchange what they hold, and the
value's own is returned; what is no object is read out and the slot repointed. -/
def replaceThrough (s : Store Value) (layout : Layout) (array : Nat) (index : Int) (value : Nat) :
    Option (Option Nat × Store Value) := do
  let place ← s.arrayGetValue array index
  match layout, place with
  | .handle, some place => return (some value, s.swapHandles place value)
  | .list fields _, some place =>
    return (some value, fields.foldl (exchangeField place value) s)
  | .fields fields _ _, some place =>
    return (some value, fields.foldl (exchangeField place value) s)
  | .other, place => return (place, ← s.arraySet array index value)
  | _, none => none

end Store

namespace Store

variable {offset len : Int}

section Move

theorem wrap_eq {n : Int} (h : -2 ^ 31 ≤ n ∧ n < 2 ^ 31) : wrap n = n :=
  Int.bmod_eq_of_le (by simp; omega) (by simp; omega)

/-- No element is in two slots. -/
def Distinct (s : Store Value) : Prop :=
  ∀ a b i j e, s.slots a i = some e → s.slots b j = some e → a = b ∧ i = j

variable {s : Store Value} {dst src : Nat} {dstOffset srcOffset len : Int}

/-- The slots after a move: the destination range holds what the source range held, and the rest of
the source range is vacant. -/
def movedSlots (s : Store Value) (dst : Nat) (dstOffset : Int) (src : Nat) (srcOffset len : Int)
    (a : Nat) (i : Int) : Option Nat :=
  if a = dst ∧ dstOffset ≤ i ∧ i < dstOffset + len then s.slots src (srcOffset + (i - dstOffset))
  else if a = src ∧ srcOffset ≤ i ∧ i < srcOffset + len then none
  else s.slots a i

theorem arrayRelease_eq {array : Nat} (h : s.InRange array offset len)
    {slots : Nat → Int → Option Nat}
    (hslots : ∀ a i, (if a = array ∧ offset ≤ i ∧ i < offset + len then none else s.slots a i) =
      slots a i) :
    s.arrayRelease array offset len =
      some { s with slots, released := (array, offset, len) :: s.released } := by
  unfold arrayRelease
  rw [if_pos h, funext fun a => funext (hslots a)]

/-- The releases of a move lie within the source array, and leave the slots of a move. -/
theorem elabMove_eq (hlength : ∀ a, s.length a < 2 ^ 31) (hdst : s.InRange dst dstOffset len)
    (hsrc : s.InRange src srcOffset len) :
    ∃ releases, (∀ r ∈ releases, s.InRange r.1 r.2.1 r.2.2) ∧
      s.elabMove dst dstOffset src srcOffset len = some { s with
        slots := s.movedSlots dst dstOffset src srcOffset len
        released := releases ++ s.released } := by
  have hlengthDst := hlength dst
  have hlengthSrc := hlength src
  obtain ⟨hdst0, hlen, hdst1⟩ := id hdst
  obtain ⟨hsrc0, -, hsrc1⟩ := id hsrc
  unfold elabMove arrayMove
  rw [if_pos ⟨hdst, hsrc⟩]
  unfold vacateMoved
  simp only [bind_eq_bind, bind_some]
  rw [wrap_eq (n := srcOffset + len) (by omega)]
  by_cases hsame : dst = src
  · subst hsame
    rw [if_pos rfl]
    rcases Int.lt_trichotomy srcOffset dstOffset with hright | heq | hleft
    · rw [if_pos hright, wrap_eq (by omega)]
      rw [show (if dstOffset - srcOffset < len then dstOffset - srcOffset else len) =
        min (dstOffset - srcOffset) len by split_ifs <;> omega]
      generalize hn : min (dstOffset - srcOffset) len = n
      have hrange : s.InRange dst srcOffset n := ⟨hsrc0, by omega, by omega⟩
      refine ⟨[(dst, srcOffset, n)], by simpa using hrange,
        arrayRelease_eq (by exact hrange) fun a i => ?_⟩
      unfold movedSlots
      dsimp only
      split_ifs <;> first | rfl | omega
    · subst heq
      rw [if_neg (Int.lt_irrefl _), if_neg (Int.lt_irrefl _)]
      refine ⟨[], by simp, congrArg (fun slots => some { s with slots }) ?_⟩
      refine funext fun a => funext fun i => ?_
      unfold movedSlots
      split_ifs <;> rfl
    · rw [if_neg (by omega), if_pos hleft, wrap_eq (n := dstOffset + len) (by omega)]
      rw [show (if dstOffset + len > srcOffset then dstOffset + len else srcOffset) =
        max (dstOffset + len) srcOffset by split_ifs <;> omega]
      generalize hstart : max (dstOffset + len) srcOffset = start
      rw [wrap_eq (by omega)]
      have hrange : s.InRange dst start (srcOffset + len - start) := ⟨by omega, by omega, by omega⟩
      refine ⟨[(dst, start, srcOffset + len - start)], by simpa using hrange,
        arrayRelease_eq (by exact hrange) fun a i => ?_⟩
      unfold movedSlots
      dsimp only
      split_ifs <;> first | rfl | omega
  · rw [if_neg hsame]
    refine ⟨[(src, srcOffset, len)], by simpa using hsrc,
      arrayRelease_eq (by exact hsrc) fun a i => ?_⟩
    unfold movedSlots
    dsimp only
    split_ifs <;> first | rfl | omega

/-- A move into vacant slots keeps every element, in one slot each. -/
theorem movedSlots_owners (hdistinct : s.Distinct)
    (hvacant : ∀ i, dstOffset ≤ i → i < dstOffset + len →
      ¬ (dst = src ∧ srcOffset ≤ i ∧ i < srcOffset + len) → s.slots dst i = none) :
    Distinct { s with slots := s.movedSlots dst dstOffset src srcOffset len } ∧
      ∀ e, (∃ a i, s.movedSlots dst dstOffset src srcOffset len a i = some e) ↔
        ∃ a i, s.slots a i = some e := by
  constructor
  · intro a b i j e ha hb
    change s.movedSlots dst dstOffset src srcOffset len a i = some e at ha
    change s.movedSlots dst dstOffset src srcOffset len b j = some e at hb
    unfold movedSlots at ha hb
    split_ifs at ha hb <;> have := hdistinct _ _ _ _ e ha hb <;> omega
  · intro e
    constructor
    · rintro ⟨a, i, h⟩
      unfold movedSlots at h
      split_ifs at h
      · exact ⟨_, _, h⟩
      · exact ⟨a, i, h⟩
    · rintro ⟨a, i, h⟩
      by_cases hmoved : a = src ∧ srcOffset ≤ i ∧ i < srcOffset + len
      · obtain ⟨rfl, hlow, hhigh⟩ := hmoved
        refine ⟨dst, dstOffset + (i - srcOffset), ?_⟩
        unfold movedSlots
        have hback : srcOffset + (dstOffset + (i - srcOffset) - dstOffset) = i := by omega
        rw [if_pos (by omega), hback, h]
      · refine ⟨a, i, ?_⟩
        unfold movedSlots
        rw [if_neg, if_neg hmoved, h]
        rintro ⟨rfl, hlow, hhigh⟩
        rw [hvacant i hlow hhigh (by omega)] at h
        cases h

end Move

variable {layout : Layout}

section Slots

variable {s : Store Value} {array : Nat} {index : Int} {value : Nat}

/-- One slot now holds something else; the others, and what they hold, are as they were. -/
structure Updated (s s' : Store Value) (array : Nat) (index : Int) (now : Option (Nat → Value)) :
    Prop where
  length : s'.length = s.length
  here : s'.holds array index = now
  others : ∀ a i, ¬ (a = array ∧ i = index) →
    s'.slots a i = s.slots a i ∧ s'.holds a i = s.holds a i
  distinct : s'.Distinct

theorem elabTake_spec (h : s.InRange array index 1) (hdistinct : s.Distinct) :
    ∃ s', s.elabTake array index = some (s.slots array index, s') ∧
      Updated s s' array index none ∧ s'.content = s.content ∧ s'.dropped = s.dropped ∧
      ∀ e, s.slots array index = some e → ∀ a i, s'.slots a i ≠ some e := by
  obtain ⟨s', hs'⟩ : ∃ s' : Store Value, s' = { s with
    slots := fun a i => if a = array ∧ index ≤ i ∧ i < index + 1 then none else s.slots a i
    released := (array, index, 1) :: s.released } := ⟨_, rfl⟩
  have hslots : ∀ a i, s'.slots a i = if a = array ∧ i = index then none else s.slots a i := by
    intro a i
    rw [hs']
    exact if_congr (by omega) rfl rfl
  have hcontent : s'.content = s.content := by rw [hs']
  refine ⟨s', ?_, ⟨by rw [hs'], ?_, fun a i hother => ?_, ?_⟩, hcontent, by rw [hs'], ?_⟩
  · unfold elabTake arrayGetValue
    rw [if_pos h]
    simp only [bind_eq_bind, bind_some]
    rw [arrayRelease_eq h fun a i => rfl, hs']
    rfl
  · rw [holds, hslots, if_pos ⟨rfl, rfl⟩]
    rfl
  · rw [holds, holds, hslots, if_neg hother, hcontent]
    exact ⟨rfl, rfl⟩
  · intro a b i j e ha hb
    rw [hslots] at ha hb
    split_ifs at ha hb
    exact hdistinct a b i j e ha hb
  · intro e he a i ha
    rw [hslots] at ha
    split_ifs at ha with hhere
    exact hhere (hdistinct a array i index e ha he)

theorem arraySet_updated (h : s.InRange array index 1) (hdistinct : s.Distinct)
    (hfresh : ∀ a i, s.slots a i ≠ some value) :
    ∃ s', s.arraySet array index value = some s' ∧
      Updated s s' array index (some (s.content value)) ∧ s'.slots array index = some value ∧
      s'.content = s.content ∧ s'.dropped = s.dropped := by
  refine ⟨_, if_pos h, ⟨rfl, ?_, fun a i hother => ?_, ?_⟩, if_pos ⟨rfl, rfl⟩, rfl, rfl⟩
  · unfold holds
    dsimp only
    rw [if_pos ⟨rfl, rfl⟩]
    rfl
  · unfold holds
    dsimp only
    rw [if_neg hother]
    exact ⟨rfl, rfl⟩
  · intro a b i j e ha hb
    dsimp only at ha hb
    split_ifs at ha hb with hi hj hj
    · omega
    · cases ha
      exact absurd hb (hfresh b j)
    · cases hb
      exact absurd ha (hfresh a i)
    · exact hdistinct a b i j e ha hb

/-- Writing into the object of a slot changes what that slot holds, and no other. -/
theorem updated_of_content {s' : Store Value} {x : Nat} (hx : s.slots array index = some x)
    (hdistinct : s.Distinct) (hlength : s'.length = s.length) (hslots : s'.slots = s.slots)
    (hcontent : ∀ e, e ≠ x → (∃ a i, s.slots a i = some e) → s'.content e = s.content e) :
    Updated s s' array index (some (s'.content x)) := by
  refine ⟨hlength, ?_, fun a i hother => ?_, ?_⟩
  · rw [holds, hslots, hx]
    rfl
  · rw [holds, holds, hslots]
    refine ⟨rfl, ?_⟩
    cases he : s.slots a i with
    | none => rfl
    | some e =>
      have hne : e ≠ x := by
        rintro rfl
        exact hother (hdistinct a array i index e he hx)
      exact congrArg some (hcontent e hne ⟨a, i, he⟩)
  · intro a b i j e ha hb
    rw [hslots] at ha hb
    exact hdistinct a b i j e ha hb

theorem elabSet_spec {emptied : (Nat → Value) → Nat → Value}
    (h : s.InRange array index 1) (hdistinct : s.Distinct)
    (hfresh : ∀ a i, s.slots a i ≠ some value) :
    ∃ s', s.elabSet layout emptied array index value = some s' ∧
      Updated s s' array index (some (s.content value)) ∧
      s'.dropped = (s.holds array index).toList ++ s.dropped := by
  unfold elabSet arrayGetValue
  rw [if_pos h]
  simp only [bind_eq_bind, bind_some]
  cases hheld : s.slots array index with
  | none =>
    have hrepoint : (if layout.isObject then s.storeIntoObject layout emptied none value fun s =>
        s.arraySet array index value else (s.dropIfHeld none).arraySet array index value) =
        s.arraySet array index value := by
      split_ifs <;> rfl
    obtain ⟨s', hset, hupdated, -, -, hdropped⟩ := arraySet_updated h hdistinct hfresh
    refine ⟨s', hrepoint.trans hset, hupdated, ?_⟩
    rw [hdropped, holds, hheld]
    rfl
  | some x =>
    have hne : x ≠ value := by
      rintro rfl
      exact hfresh _ _ hheld
    split_ifs with hobject
    · obtain ⟨s', hs'⟩ : ∃ s', s' =
        ((s.dropValue x).assign x value).zeroObject layout emptied value := ⟨_, rfl⟩
      have hfacts : s'.length = s.length ∧ s'.slots = s.slots ∧
          s'.dropped = s.content x :: s.dropped ∧ s'.content x = s.content value ∧
          ∀ e, e ≠ x → e ≠ value → s'.content e = s.content e := by
        rw [hs']
        unfold zeroObject assign dropValue
        cases layout <;> refine ⟨rfl, rfl, rfl, ?_, fun e h h' => ?_⟩ <;> simp [*]
      obtain ⟨hlength, hslots, hdropped, hstored, hothers⟩ := hfacts
      have hupdated := @updated_of_content _ s array index s' x hheld hdistinct hlength hslots ?_
      · rw [hstored] at hupdated
        refine ⟨s', congrArg some hs'.symm, hupdated, ?_⟩
        rw [hdropped, holds, hheld]
        rfl
      · rintro e he ⟨a, i, hslot⟩
        refine hothers e he ?_
        rintro rfl
        exact hfresh a i hslot
    · obtain ⟨s', hset, hupdated, -, -, hdropped⟩ := @arraySet_updated _ (s.dropValue x) _ _ _
        (by exact h) (by exact hdistinct) (by exact hfresh)
      refine ⟨s', hset, ⟨hupdated.length, hupdated.here, hupdated.others, hupdated.distinct⟩, ?_⟩
      rw [hdropped, holds, hheld]
      rfl

/-- The elements in the slots of a range, in order. -/
def ownedFrom (s : Store Value) (array : Nat) : Nat → Int → List Nat
  | 0, _ => []
  | rounds + 1, index => (s.slots array index).toList ++ ownedFrom s array rounds (index + 1)

variable {rounds : Nat}

theorem mem_ownedFrom {e : Nat} :
    e ∈ s.ownedFrom array rounds index ↔
      ∃ i, index ≤ i ∧ i < index + rounds ∧ s.slots array i = some e := by
  induction rounds generalizing index with
  | zero =>
    constructor
    · exact fun h => absurd h not_mem_nil
    · rintro ⟨i, h0, h1, -⟩
      omega
  | succ rounds ih =>
    rw [ownedFrom, mem_append, mem_toList, ih]
    constructor
    · rintro (h | ⟨i, h0, h1, h⟩)
      · exact ⟨index, by omega, by omega, h⟩
      · exact ⟨i, by omega, by omega, h⟩
    · rintro ⟨i, h0, h1, h⟩
      rcases Int.lt_or_eq_of_le h0 with hlt | rfl
      · exact Or.inr ⟨i, by omega, by omega, h⟩
      · exact Or.inl h

theorem ownedFrom_nodup (hdistinct : s.Distinct) :
    (s.ownedFrom array rounds index).Nodup := by
  induction rounds generalizing index with
  | zero => exact nodup_nil
  | succ rounds ih =>
    rw [ownedFrom]
    refine List.Nodup.append ?_ ih fun e he he' => ?_
    · cases s.slots array index <;> simp
    · obtain ⟨i, h0, -, h⟩ := mem_ownedFrom.mp he'
      have := hdistinct array array index i e (mem_toList.mp he) h
      omega

theorem dropSlots_eq {rounds : Nat} {dropped : List (Nat → Value)}
    (hlength : s.length array < 2 ^ 31) (h : s.InRange array index rounds) :
    dropSlots array rounds index { s with dropped } =
      some { s with
        dropped := ((s.ownedFrom array rounds index).map s.content).reverse ++ dropped } := by
  induction rounds generalizing index dropped with
  | zero => rfl
  | succ rounds ih =>
    obtain ⟨h0, -, hstop⟩ := h
    have hdrop : ({ s with dropped } : Store Value).dropIfHeld (s.slots array index) =
        { s with dropped := ((s.slots array index).toList).map s.content ++ dropped } := by
      cases s.slots array index <;> rfl
    have hin : ({ s with dropped } : Store Value).InRange array index 1 :=
      ⟨h0, by decide, by
        change index + 1 ≤ s.length array
        omega⟩
    unfold dropSlots arrayGetValue
    rw [if_pos hin]
    simp only [bind_eq_bind, bind_some]
    rw [hdrop, wrap_eq (by omega), ih ⟨by omega, by omega, by omega⟩, ownedFrom, map_append,
      reverse_append, append_assoc]
    cases s.slots array index <;> rfl

/-- The slots of a range are vacant, and what the elements in them held is dropped, each once. -/
structure Released (s s' : Store Value) (array : Nat) (offset len : Int) : Prop where
  length : s'.length = s.length
  distinct : s'.Distinct
  content : s'.content = s.content
  slots : ∀ a i, s'.slots a i =
    if a = array ∧ offset ≤ i ∧ i < offset + len then none else s.slots a i
  dropped : ∃ elements : List Nat, elements.Nodup ∧
    (∀ e, e ∈ elements ↔ ∃ i, offset ≤ i ∧ i < offset + len ∧ s.slots array i = some e) ∧
    s'.dropped = elements.map s.content ++ s.dropped

theorem elabRelease_spec (hlength : s.length array < 2 ^ 31)
    (h : s.InRange array offset len) (hdistinct : s.Distinct) :
    ∃ s', s.elabRelease array offset len = some s' ∧ Released s s' array offset len := by
  obtain ⟨h0, hlen, hstop⟩ := id h
  have hrounds : (wrap (offset + len) - offset).toNat = len.toNat := by
    rw [wrap_eq (by omega)]
    omega
  have hdrop := @dropSlots_eq _ s array offset len.toNat s.dropped hlength ⟨h0, by omega, by omega⟩
  obtain ⟨s', hs'⟩ : ∃ s' : Store Value, s' = { s with
    dropped := ((s.ownedFrom array len.toNat offset).map s.content).reverse ++ s.dropped
    slots := fun a i => if a = array ∧ offset ≤ i ∧ i < offset + len then none else s.slots a i
    released := (array, offset, len) :: s.released } := ⟨_, rfl⟩
  refine ⟨s', ?_, by rw [hs'], ?_, by rw [hs'], fun a i => by rw [hs'],
    (s.ownedFrom array len.toNat offset).reverse, ?_, fun e => ?_, ?_⟩
  · unfold elabRelease
    dsimp only
    rw [hrounds]
    simp only [bind_eq_bind]
    rw [hdrop, bind_some, hs']
    exact arrayRelease_eq (by exact h) fun a i => rfl
  · rw [hs']
    intro a b i j e ha hb
    dsimp only at ha hb
    split_ifs at ha hb
    exact hdistinct a b i j e ha hb
  · exact nodup_reverse.mpr (ownedFrom_nodup hdistinct)
  · rw [mem_reverse, mem_ownedFrom, Int.toNat_of_nonneg hlen]
  · rw [hs', map_reverse]

end Slots

section Replace

variable {s : Store Value} {array : Nat} {index : Int} {place value : Nat}

theorem exchangeFields_spec {fields : List Nat} (hfields : fields.Nodup) (hne : place ≠ value) :
    ∃ content, fields.foldl (exchangeField place value) s = { s with content } ∧
      (∀ f, content place f = if f ∈ fields then s.content value f else s.content place f) ∧
      (∀ f, content value f = if f ∈ fields then s.content place f else s.content value f) ∧
      ∀ e, e ≠ place → e ≠ value → content e = s.content e := by
  induction fields generalizing s with
  | nil => exact ⟨s.content, rfl, fun f => by simp, fun f => by simp, fun e _ _ => rfl⟩
  | cons field fields ih =>
    obtain ⟨hfield, hrest⟩ := nodup_cons.mp hfields
    obtain ⟨content, heq, hplace, hvalue, hothers⟩ := @ih (s.exchangeField place value field) hrest
    refine ⟨content, heq, fun f => ?_, fun f => ?_, fun e he he' => ?_⟩
    · rw [hplace]
      by_cases hf : f = field
      · subst hf
        simp [exchangeField, hfield, hne]
      · simp [exchangeField, hf]
    · rw [hvalue]
      by_cases hf : f = field
      · subst hf
        simp [exchangeField, hfield]
      · simp [exchangeField, hf]
    · rw [hothers e he he']
      simp [exchangeField, he, he']

/-- Two objects of the layout hold the same, as far as the layout has fields. -/
def SameHeld (layout : Layout) (a b : Nat → Value) : Prop :=
  match layout with
  | .list fields _ | .fields fields _ _ => ∀ f ∈ fields, a f = b f
  | .handle | .other => a = b

/-- An exchange at a slot: it now holds what the value held, and the element returned, which is in
no slot, holds what the slot held. -/
structure Exchanged (layout : Layout) (s s' : Store Value) (array : Nat) (index : Int)
    (place value returned : Nat) : Prop where
  length : s'.length = s.length
  distinct : s'.Distinct
  dropped : s'.dropped = s.dropped
  here : ∃ e, s'.slots array index = some e ∧
    SameHeld layout (s'.content e) (s.content value)
  others : ∀ a i, ¬ (a = array ∧ i = index) →
    s'.slots a i = s.slots a i ∧ s'.holds a i = s.holds a i
  taken : SameHeld layout (s'.content returned) (s.content place)
  unowned : ∀ a i, s'.slots a i ≠ some returned

theorem exchanged_of_content {content : Nat → Nat → Value}
    (hplace : s.slots array index = some place) (hdistinct : s.Distinct)
    (hfresh : ∀ a i, s.slots a i ≠ some value)
    (hstored : SameHeld layout (content place) (s.content value))
    (htaken : SameHeld layout (content value) (s.content place))
    (hothers : ∀ e, e ≠ place → e ≠ value → content e = s.content e) :
    Exchanged layout s { s with content } array index place value value := by
  have hupdated := @updated_of_content _ s array index { s with content } place hplace hdistinct
    rfl rfl ?_
  · exact ⟨rfl, hupdated.distinct, rfl, ⟨place, hplace, hstored⟩, hupdated.others, htaken, hfresh⟩
  · rintro e he ⟨a, i, hslot⟩
    refine hothers e he ?_
    rintro rfl
    exact hfresh a i hslot

theorem replaceThrough_spec (layout : Layout) (h : s.InRange array index 1)
    (hdistinct : s.Distinct) (hplace : s.slots array index = some place)
    (hfresh : ∀ a i, s.slots a i ≠ some value) :
    ∃ returned s', s.replaceThrough layout array index value = some (some returned, s') ∧
      Exchanged layout s s' array index place value returned := by
  have hne : place ≠ value := by
    rintro rfl
    exact hfresh _ _ hplace
  have hread : s.arrayGetValue array index = some (some place) := by
    rw [arrayGetValue, if_pos h, hplace]
  unfold replaceThrough
  rw [hread]
  simp only [bind_eq_bind, bind_some]
  cases layout with
  | handle =>
    refine ⟨value, _, rfl, exchanged_of_content hplace hdistinct hfresh ?_ ?_ fun e he he' => ?_⟩
    · exact if_pos rfl
    · exact (if_neg hne.symm).trans (if_pos rfl)
    · exact (if_neg he).trans (if_neg he')
  | list fields hfields | fields fields hfields _ =>
    obtain ⟨content, heq, hstored, htaken, hothers⟩ := @exchangeFields_spec _ s _ _ _ hfields hne
    refine ⟨value, _, congrArg (fun s => some (some value, s)) heq,
      exchanged_of_content hplace hdistinct hfresh ?_ ?_ hothers⟩
    · exact fun f hf => (hstored f).trans (if_pos hf)
    · exact fun f hf => (htaken f).trans (if_pos hf)
  | other =>
    obtain ⟨s', hset, hupdated, hslot, hcontent, hdropped⟩ := arraySet_updated h hdistinct hfresh
    refine ⟨place, s', by rw [hset]; rfl, hupdated.length, hupdated.distinct, hdropped,
      ⟨value, hslot, ?_⟩, hupdated.others, ?_, fun a i hslot' => ?_⟩
    · rw [hcontent]
      rfl
    · rw [hcontent]
      rfl
    · by_cases hhere : a = array ∧ i = index
      · rw [hhere.1, hhere.2, hslot] at hslot'
        exact hne (Option.some.inj hslot').symm
      · rw [(hupdated.others a i hhere).1] at hslot'
        exact hhere (hdistinct a array i index place hslot' hplace)

/-- A vacant slot is repointed, where the layout has no object to exchange with. -/
theorem replaceThrough_vacant {s' : Store Value} {returned : Option Nat}
    (h : s.InRange array index 1) (hdistinct : s.Distinct) (hvacant : s.slots array index = none)
    (hfresh : ∀ a i, s.slots a i ≠ some value)
    (heq : s.replaceThrough layout array index value = some (returned, s')) :
    returned = none ∧ s'.dropped = s.dropped ∧
      Updated s s' array index (some (s.content value)) := by
  have hread : s.arrayGetValue array index = some none := by
    rw [arrayGetValue, if_pos h, hvacant]
  unfold replaceThrough at heq
  rw [hread] at heq
  simp only [bind_eq_bind, bind_some] at heq
  cases layout with
  | handle | list | fields => cases heq
  | other =>
    obtain ⟨s'', hset, hupdated, -, -, hdropped⟩ := arraySet_updated h hdistinct hfresh
    rw [hset] at heq
    cases heq
    exact ⟨rfl, hdropped, hupdated⟩

end Replace

/-- A move fills the destination range from the source range and vacates exactly what it does not
cover, so that each element stays in one slot and the release of any range drops it once; setting,
replacing, taking and releasing slots leave each element in one slot, handed back, or dropped. -/
theorem slots_own_once {s : Store Value} (hlength : ∀ a, s.length a < 2 ^ 31)
    (hdistinct : s.Distinct) :
    (∀ dst dstOffset src srcOffset len, s.InRange dst dstOffset len → s.InRange src srcOffset len →
      (∀ i, dstOffset ≤ i → i < dstOffset + len →
        ¬ (dst = src ∧ srcOffset ≤ i ∧ i < srcOffset + len) → s.slots dst i = none) →
      ∃ s' releases, s.elabMove dst dstOffset src srcOffset len = some s' ∧
        s'.length = s.length ∧ s'.content = s.content ∧ s'.dropped = s.dropped ∧
        s'.slots = s.movedSlots dst dstOffset src srcOffset len ∧
        s'.released = releases ++ s.released ∧ (∀ r ∈ releases, s.InRange r.1 r.2.1 r.2.2) ∧
        s'.Distinct ∧ (∀ e, (∃ a i, s'.slots a i = some e) ↔ ∃ a i, s.slots a i = some e) ∧
        ∀ array offset len, s'.InRange array offset len →
          ∃ s'', s'.elabRelease array offset len = some s'' ∧
            Released s' s'' array offset len) ∧
    (∀ array offset len, s.InRange array offset len →
      ∃ s', s.elabRelease array offset len = some s' ∧ Released s s' array offset len) ∧
    ∀ array index, s.InRange array index 1 →
      (∃ s', s.elabTake array index = some (s.slots array index, s') ∧
        Updated s s' array index none ∧ s'.content = s.content ∧ s'.dropped = s.dropped ∧
        ∀ e, s.slots array index = some e → ∀ a i, s'.slots a i ≠ some e) ∧
      ∀ layout value, (∀ a i, s.slots a i ≠ some value) →
        (∀ emptied, ∃ s', s.elabSet layout emptied array index value = some s' ∧
          Updated s s' array index (some (s.content value)) ∧
          s'.dropped = (s.holds array index).toList ++ s.dropped) ∧
        (∀ place, s.slots array index = some place →
          ∃ returned s', s.replaceThrough layout array index value = some (some returned, s') ∧
            Exchanged layout s s' array index place value returned) ∧
          (s.slots array index = none → ∀ returned s',
            s.replaceThrough layout array index value = some (returned, s') →
              returned = none ∧ s'.dropped = s.dropped ∧
                Updated s s' array index (some (s.content value))) := by
  refine ⟨fun dst dstOffset src srcOffset len hdst hsrc hvacant => ?_,
    fun array offset len h => elabRelease_spec (hlength array) h hdistinct,
    fun array index h => ⟨elabTake_spec h hdistinct, fun layout value hfresh =>
      ⟨fun emptied => elabSet_spec h hdistinct hfresh, fun place hplace =>
        replaceThrough_spec layout h hdistinct hplace hfresh, fun hvacant returned s' =>
        replaceThrough_vacant h hdistinct hvacant hfresh⟩⟩⟩
  obtain ⟨releases, hreleases, hmove⟩ := elabMove_eq hlength hdst hsrc
  obtain ⟨howners, hsame⟩ := movedSlots_owners hdistinct hvacant
  exact ⟨_, releases, hmove, rfl, rfl, rfl, rfl, rfl, hreleases, howners, hsame,
    fun array offset len h => elabRelease_spec (hlength array) h howners⟩

/-- Two elements move one slot to the right in an array of four. -/
theorem slots_own_once_right :
    ∃ s s' : Store Nat, s.elabMove 0 1 0 0 2 = some s' ∧ s.slots 0 0 = some 0 ∧
      s.slots 0 1 = some 1 ∧ s'.slots 0 0 = none ∧ s'.slots 0 1 = some 0 ∧ s'.slots 0 2 = some 1 ∧
      s'.Distinct := by
  let s : Store Nat := ⟨fun _ => 4, fun a i => if a = 0 ∧ i = 0 then some 0 else
    if a = 0 ∧ i = 1 then some 1 else none, fun e _ => e, [], []⟩
  have hdistinct : s.Distinct := by
    intro a b i j e ha hb
    dsimp only [s] at ha hb
    split_ifs at ha hb <;> cases ha <;> cases hb <;> omega
  obtain ⟨s', _, hmove, -, -, -, hslots, -, -, howned, -⟩ :=
    (slots_own_once (fun _ => show (4 : Int) < 2 ^ 31 by decide) hdistinct).1 0 1 0 0 2
      (by decide) (by decide) fun i h0 h1 h2 => by
        dsimp only [s]
        rw [if_neg (by omega), if_neg (by omega)]
  refine ⟨s, s', hmove, rfl, rfl, ?_, ?_, ?_, howned⟩ <;> rw [hslots] <;> rfl

end Store

end Wado.AffineDrop
