/-
`List::sort_by`: a merge sort from the bottom up, over the list's array and a
buffer of the same length.
-/
import Wado.GcArray
import Wado.MergeRuns
import Mathlib.Algebra.Order.Ring.Nat
import Mathlib.Algebra.Ring.Int.Defs

namespace Wado.ListSort

open MergeRuns GcArray List Option

variable {σ α : Type}

/-- The result of an operation on `i32`, wrapped around. -/
@[irreducible]
def i32 (x : Int) : Int := (x + 2 ^ 31) % 2 ^ 32 - 2 ^ 31

/-- A list in its array, of which `used` slots from the first on are taken. -/
structure GcList (α : Type) where
  repr : List (Option α)
  used : Int
deriving DecidableEq, Repr

/-- A reference to an element, a trap past the array and at an empty slot. -/
def arrayGetRef (xs : List (Option α)) (i : Int) : Option α :=
  if 0 ≤ i then (GcArray.get xs i.toNat).join else none

/-- `len` elements from `srcOff` on moved to `dstOff`. -/
def arrayMove (dst : List (Option α)) (dstOff : Int) (src : List (Option α)) (srcOff len : Int) :
    Option (List (Option α)) :=
  if 0 ≤ dstOff ∧ 0 ≤ srcOff ∧ 0 ≤ len then
    copyFrom dst dstOff.toNat src srcOff.toNat len.toNat
  else none

/-- Two runs being merged: the next of each, the place in the buffer, and what the
comparator keeps. -/
structure Merging (σ α : Type) where
  i : Int
  j : Int
  k : Int
  buf : List (Option α)
  state : σ

/-- One element moved to the buffer. -/
def mergeStep (cmp : σ → α → α → Ordering × σ) (repr : List (Option α)) (mid end_ : Int)
    (m : Merging σ α) : Option (Merging σ α) :=
  if m.i < mid then
    if m.j < end_ then do
      let a ← arrayGetRef repr m.i
      let b ← arrayGetRef repr m.j
      let answer := cmp m.state a b
      if answer.1 = .gt then
        let buf ← arrayMove m.buf m.k repr m.j 1
        some { m with j := i32 (m.j + 1), buf := buf, state := answer.2 }
      else
        let buf ← arrayMove m.buf m.k repr m.i 1
        some { m with i := i32 (m.i + 1), buf := buf, state := answer.2 }
    else do
      let buf ← arrayMove m.buf m.k repr m.i 1
      some { m with i := i32 (m.i + 1), buf := buf }
  else do
    let buf ← arrayMove m.buf m.k repr m.j 1
    some { m with j := i32 (m.j + 1), buf := buf }

def mergeFrom (cmp : σ → α → α → Ordering × σ) (repr : List (Option α)) (mid end_ : Int) :
    Nat → Merging σ α → Option (Merging σ α)
  | 0, _ => none
  | fuel + 1, m =>
    if m.k < end_ then do
      let m ← mergeStep cmp repr mid end_ m
      mergeFrom cmp repr mid end_ fuel { m with k := i32 (m.k + 1) }
    else some m

/-- The array being sorted, its buffer, and what the comparator keeps. -/
structure Sorting (σ α : Type) where
  repr : List (Option α)
  buf : List (Option α)
  state : σ

def passFrom (cmp : σ → α → α → Ordering × σ) (n width : Int) :
    Nat → Int → Sorting σ α → Option (Sorting σ α)
  | 0, _, _ => none
  | fuel + 1, start, s =>
    if width < i32 (n - start) then do
      let mid := i32 (start + width)
      let end_ := i32 (mid + min width (i32 (n - mid)))
      let m ← mergeFrom cmp s.repr mid end_ (n.toNat + 1) ⟨start, mid, start, s.buf, s.state⟩
      let repr ← arrayMove s.repr start m.buf start (i32 (end_ - start))
      passFrom cmp n width fuel end_ ⟨repr, m.buf, m.state⟩
    else some s

def sortFrom (cmp : σ → α → α → Ordering × σ) (n : Int) :
    Nat → Int → Sorting σ α → Option (Sorting σ α)
  | 0, _, _ => none
  | fuel + 1, width, s => do
    let s ← passFrom cmp n width (n.toNat + 1) 0 s
    if width ≥ i32 (n - width) then some s
    else sortFrom cmp n fuel (i32 (width * 2)) s

/-- Sorts a list in place; `none` is a trap, or a loop that does not end within as many
rounds as there are elements. -/
def sortBy (cmp : σ → α → α → Ordering × σ) (list : GcList α) (state : σ) : Option (GcList α × σ) :=
  let n := list.used
  if n ≤ 1 then some (list, state)
  else do
    let buf := List.replicate n.toNat none
    let s ← sortFrom cmp n (n.toNat + 1) 1 ⟨list.repr, buf, state⟩
    some ({ list with repr := s.repr }, s.state)

/-! ## Numbers and arrays -/

section Numbers

theorem i32_add {a b : Nat} (h : a + b < 2 ^ 31) : i32 ((a : Int) + b) = ((a + b : Nat) : Int) := by
  unfold i32
  omega

theorem i32_succ {a : Nat} (h : a + 1 < 2 ^ 31) : i32 ((a : Int) + 1) = ((a + 1 : Nat) : Int) := by
  unfold i32
  omega

theorem i32_sub {a b : Nat} (hle : b ≤ a) (h : a < 2 ^ 31) :
    i32 ((a : Int) - b) = ((a - b : Nat) : Int) := by
  unfold i32
  omega

theorem i32_add_min {mid w rest : Nat} (h : mid + min w rest < 2 ^ 31) :
    i32 ((mid : Int) + min (w : Int) rest) = ((mid + min w rest : Nat) : Int) := by
  unfold i32
  omega

theorem arrayGetRef_of_some {xs : List (Option α)} {i : Nat} {x : α}
    (h : xs[i]? = some (some x)) : arrayGetRef xs i = some x := by
  rw [arrayGetRef, if_pos (Int.natCast_nonneg i), Int.toNat_natCast, GcArray.get, h]
  rfl

theorem arrayMove_natCast (dst src : List (Option α)) (dstOff srcOff len : Nat) :
    arrayMove dst dstOff src srcOff len = copyFrom dst dstOff src srcOff len := by
  rw [arrayMove, if_pos ⟨Int.natCast_nonneg _, Int.natCast_nonneg _, Int.natCast_nonneg _⟩,
    Int.toNat_natCast, Int.toNat_natCast, Int.toNat_natCast]

/-- Moving one element sets its slot. -/
theorem arrayMove_one {dst src : List (Option α)} {k i : Nat} {x : α} (hk : k < dst.length)
    (h : src[i]? = some (some x)) :
    arrayMove dst k src i 1 = some (dst.set k (some x)) := by
  obtain ⟨hi, hget⟩ := List.getElem?_eq_some_iff.mp h
  have hone : (1 : Int) = ((1 : Nat) : Int) := rfl
  rw [hone, arrayMove_natCast, copyFrom_of_le (by omega) (by omega)]
  rw [drop_eq_getElem_cons hi, hget, take_succ_cons, take_zero,
    append_assoc, set_eq_take_append_cons_drop, if_pos hk]
  rfl

theorem run_append (items : List α) (spare : List (Option α)) :
    Run (items.map some ++ spare) 0 (items.map some) := by
  intro i x hi
  rw [Nat.zero_add, List.getElem?_append_left (List.getElem?_eq_some_iff.mp hi).1, hi]

end Numbers

/-! ## One merge -/

section Merge

variable {cmp : σ → α → α → Ordering × σ} {repr : List (Option α)}

/-- A merge at `k` of the buffer: what is left of either run, and their places. -/
structure Ready (repr : List (Option α)) (mid end_ : Nat) (left right : List α) (i j k : Nat)
    (buf : List (Option α)) : Prop where
  first : Run repr i (left.map some)
  second : Run repr j (right.map some)
  firstEnds : i + left.length = mid
  secondEnds : j + right.length = end_
  place : k + (left.length + right.length) = end_
  within : mid ≤ end_
  room : end_ ≤ buf.length
  small : end_ < 2 ^ 31

/-- What a finished merge leaves: the merged run at `k`, and what stood before it. -/
structure Merged (k : Nat) (buf : List (Option α)) (out : List α × σ) (m : Merging σ α) : Prop where
  state : m.state = out.2
  length : m.buf.length = buf.length
  run : Run m.buf k (out.1.map some)
  before : ∀ slot < k, m.buf[slot]? = buf[slot]?

theorem Merged.cons {k : Nat} {buf : List (Option α)} {x : α} {out : List α × σ}
    {m : Merging σ α} (hk : k < buf.length) (h : Merged (k + 1) (buf.set k (some x)) out m) :
    Merged k buf (x :: out.1, out.2) m where
  state := h.state
  length := by rw [h.length, length_set]
  run := by
    refine run_cons ?_ h.run
    rw [h.before k (Nat.lt_succ_self k), List.getElem?_set_self hk]
  before slot hslot := by
    rw [h.before slot (Nat.lt_succ_of_lt hslot), List.getElem?_set_ne (by omega)]

variable {mid end_ i j k : Nat} {left right : List α} {x y : α} {buf : List (Option α)}

theorem Ready.takeLeft (h : Ready repr mid end_ (x :: left) right i j k buf) :
    Ready repr mid end_ left right (i + 1) j (k + 1) (buf.set k (some x)) := by
  have hmid := h.firstEnds
  have hplace := h.place
  rw [length_cons] at hmid hplace
  exact ⟨h.first.tail, h.second, by omega, h.secondEnds, by omega, h.within,
    by rw [length_set]; exact h.room, h.small⟩

theorem Ready.takeRight (h : Ready repr mid end_ left (y :: right) i j k buf) :
    Ready repr mid end_ left right i (j + 1) (k + 1) (buf.set k (some y)) := by
  have hends := h.secondEnds
  have hplace := h.place
  rw [length_cons] at hends hplace
  exact ⟨h.first, h.second.tail, h.firstEnds, by omega, by omega, h.within,
    by rw [length_set]; exact h.room, h.small⟩

/-- Taking the first element of the left run, whatever the comparator's state. -/
theorem move_left (h : Ready repr mid end_ (x :: left) right i j k buf) :
    arrayMove buf k repr i 1 = some (buf.set k (some x)) ∧ i32 ((i : Int) + 1) = (i + 1 : Nat) := by
  have hmid := h.firstEnds
  have hplace := h.place
  have hwithin := h.within
  have hroom := h.room
  have hsmall := h.small
  rw [length_cons] at hmid hplace
  exact ⟨arrayMove_one (by omega) h.first.head, i32_succ (by omega)⟩

theorem move_right (h : Ready repr mid end_ left (y :: right) i j k buf) :
    arrayMove buf k repr j 1 = some (buf.set k (some y)) ∧ i32 ((j : Int) + 1) = (j + 1 : Nat) := by
  have hends := h.secondEnds
  have hplace := h.place
  have hroom := h.room
  have hsmall := h.small
  rw [length_cons] at hends hplace
  exact ⟨arrayMove_one (by omega) h.second.head, i32_succ (by omega)⟩

/-- The loop merges the runs as lists are merged. -/
theorem mergeFrom_eq {fuel : Nat} {s : σ} (h : Ready repr mid end_ left right i j k buf)
    (hfuel : left.length + right.length < fuel) :
    ∃ m, mergeFrom cmp repr mid end_ fuel ⟨i, j, k, buf, s⟩ = some m ∧
      Merged k buf (mergeWith cmp s left right) m := by
  induction fuel generalizing left right i j k buf s with
  | zero => exact absurd hfuel (Nat.not_lt_zero _)
  | succ fuel ih =>
    have hplace := h.place
    have hroom := h.room
    have hsmall := h.small
    have hmid := h.firstEnds
    have hends := h.secondEnds
    cases left with
    | nil =>
      rw [length_nil] at hplace hfuel hmid
      cases right with
      | nil =>
        rw [length_nil] at hplace
        have hdone : ¬ (k : Int) < end_ := by omega
        refine ⟨_, if_neg hdone, ?_⟩
        rw [mergeWith_nil_left]
        exact ⟨rfl, rfl, run_nil _ _, fun _ _ => rfl⟩
      | cons y right =>
        rw [length_cons] at hplace hfuel
        have hlt : (k : Int) < end_ := by omega
        have hdone : ¬ (i : Int) < mid := by omega
        have hslot : k < buf.length := by omega
        have hleft : ([] : List α).length + right.length < fuel := by
          rw [length_nil]
          omega
        have hsucc : k + 1 < 2 ^ 31 := by omega
        obtain ⟨hmove, hnext⟩ := move_right h
        obtain ⟨m, hm, hmerged⟩ := @ih i (j + 1) (k + 1) [] right (buf.set k (some y)) s
          h.takeRight hleft
        rw [mergeWith_nil_left] at hmerged
        refine ⟨m, ?_, ?_⟩
        · rw [mergeFrom, if_pos hlt, mergeStep, if_neg hdone, hmove]
          dsimp only [bind_eq_bind, bind_some]
          rw [hnext, i32_succ hsucc]
          exact hm
        · rw [mergeWith_nil_left]
          exact hmerged.cons hslot
    | cons x left =>
      rw [length_cons] at hplace hfuel hmid
      have hlt : (k : Int) < end_ := by omega
      have hmore : (i : Int) < mid := by omega
      have hslot : k < buf.length := by omega
      have hsucc : k + 1 < 2 ^ 31 := by omega
      cases right with
      | nil =>
        rw [length_nil] at hplace hfuel hends
        have hdone : ¬ (j : Int) < end_ := by omega
        have hleft : left.length + ([] : List α).length < fuel := by
          rw [length_nil]
          omega
        obtain ⟨hmove, hnext⟩ := move_left h
        obtain ⟨m, hm, hmerged⟩ := @ih (i + 1) j (k + 1) left [] (buf.set k (some x)) s
          h.takeLeft hleft
        rw [mergeWith_nil_right] at hmerged
        refine ⟨m, ?_, ?_⟩
        · rw [mergeFrom, if_pos hlt, mergeStep, if_pos hmore, if_neg hdone, hmove]
          dsimp only [bind_eq_bind, bind_some]
          rw [hnext, i32_succ hsucc]
          exact hm
        · rw [mergeWith_nil_right]
          exact hmerged.cons hslot
      | cons y right =>
        rw [length_cons] at hplace hfuel hends
        have hmore' : (j : Int) < end_ := by omega
        have hleft : left.length + (y :: right).length < fuel := by
          rw [length_cons]
          omega
        have hright : (x :: left).length + right.length < fuel := by
          rw [length_cons]
          omega
        have ha := arrayGetRef_of_some h.first.head
        have hb := arrayGetRef_of_some h.second.head
        rw [mergeFrom, if_pos hlt, mergeStep, if_pos hmore, if_pos hmore', ha, hb]
        dsimp only [bind_eq_bind, bind_some]
        by_cases hgt : (cmp s x y).1 = .gt
        · obtain ⟨hmove, hnext⟩ := move_right h
          obtain ⟨m, hm, hmerged⟩ := @ih i (j + 1) (k + 1) (x :: left) right
            (buf.set k (some y)) (cmp s x y).2 h.takeRight hright
          refine ⟨m, ?_, ?_⟩
          · rw [if_pos hgt, hmove]
            dsimp only [bind_some]
            rw [hnext, i32_succ hsucc]
            exact hm
          · rw [mergeWith_of_gt hgt]
            exact hmerged.cons hslot
        · obtain ⟨hmove, hnext⟩ := move_left h
          obtain ⟨m, hm, hmerged⟩ := @ih (i + 1) j (k + 1) left (y :: right)
            (buf.set k (some x)) (cmp s x y).2 h.takeLeft hleft
          refine ⟨m, ?_, ?_⟩
          · rw [if_neg hgt, hmove]
            dsimp only [bind_some]
            rw [hnext, i32_succ hsucc]
            exact hm
          · rw [mergeWith_of_not_gt hgt]
            exact hmerged.cons hslot

end Merge

/-! ## Passes -/

section Passes

variable {cmp : σ → α → α → Ordering × σ} {items : List α} {spare buf : List (Option α)}

/-- The two runs of width `w` from `start` on are ready to be merged. -/
theorem ready_of_runs {w start : Nat} (hw : w < items.length - start)
    (hbuf : buf.length = items.length) (hsmall : items.length < 2 ^ 31) :
    Ready (items.map some ++ spare) (start + w) (start + w + min w (items.length - (start + w)))
      ((items.drop start).take w) (((items.drop start).drop w).take w) start (start + w) start
      buf := by
  have hrun := run_append items spare
  have hleft : ((items.drop start).take w).length = w := by
    rw [length_take, length_drop]
    omega
  have hright : (((items.drop start).drop w).take w).length =
      min w (items.length - (start + w)) := by
    rw [length_take, drop_drop, length_drop]
  constructor
  · rw [map_take, map_drop]
    have hstart := (hrun.drop start).take w
    rwa [Nat.zero_add] at hstart
  · rw [drop_drop, map_take, map_drop]
    have hstart := (hrun.drop (start + w)).take w
    rwa [Nat.zero_add] at hstart
  · rw [hleft]
  · rw [hright]
  · rw [hleft, hright, Nat.add_assoc]
  · exact Nat.le_add_right _ _
  · omega
  · omega

/-- Copying the merged run back leaves the list with it in place. -/
theorem copy_back {k len : Nat} {out : List α × σ} {m : Merging σ α} (h : Merged k buf out m)
    (hlen : out.1.length = len) (hle : k + len ≤ items.length) (hbuf : items.length = buf.length) :
    copyFrom (items.map some ++ spare) k m.buf k len =
      some ((items.take k ++ out.1 ++ items.drop (k + len)).map some ++ spare) := by
  have hslice := h.run.slice
  rw [length_map, hlen] at hslice
  have hmap : (items.map some).length = items.length := length_map ..
  rw [copyFrom_of_le (by rw [length_append]; omega) (by rw [h.length]; omega), hslice,
    take_append_of_le_length (by omega), drop_append_of_le_length (by omega)]
  simp only [map_append, map_take, map_drop, append_assoc]

/-- A list with the run between `start` and `stop` replaced. -/
theorem replaced_run {out : List α} {start stop : Nat} (hstart : start ≤ stop)
    (hstop : stop ≤ items.length) (hout : out.length = stop - start) :
    (items.take start ++ out ++ items.drop stop).length = items.length ∧
      (items.take start ++ out ++ items.drop stop).take stop = items.take start ++ out ∧
      (items.take start ++ out ++ items.drop stop).drop stop = items.drop stop := by
  have hfront : (items.take start ++ out).length = stop := by
    rw [length_append, length_take, hout]
    omega
  refine ⟨?_, ?_, ?_⟩
  · rw [length_append, hfront, length_drop]
    omega
  · rw [take_append_of_le_length (Nat.le_of_eq hfront.symm),
      take_of_length_le (Nat.le_of_eq hfront)]
  · rw [drop_append_of_le_length (Nat.le_of_eq hfront.symm),
      drop_of_length_le (Nat.le_of_eq hfront), nil_append]

/-- The loop over the runs passes over the list from `start` on. -/
theorem passFrom_eq {w fuel start : Nat} {s : σ} (hw : 0 < w) (hstart : start ≤ items.length)
    (hfuel : items.length - start < fuel) (hbuf : buf.length = items.length)
    (hsmall : items.length < 2 ^ 31) :
    ∃ buf', buf'.length = items.length ∧
      passFrom cmp items.length w fuel start ⟨items.map some ++ spare, buf, s⟩ =
        some ⟨(items.take start ++ (passWith cmp w s (items.drop start)).1).map some ++ spare, buf',
          (passWith cmp w s (items.drop start)).2⟩ := by
  induction fuel generalizing items start buf s with
  | zero => exact absurd hfuel (Nat.not_lt_zero _)
  | succ fuel ih =>
    by_cases hmore : w < items.length - start
    · have hdrop : w < (items.drop start).length := by rwa [length_drop]
      have hleft : ((items.drop start).take w).length = w := by
        rw [length_take, length_drop]
        omega
      have hright : (((items.drop start).drop w).take w).length =
          min w (items.length - (start + w)) := by
        rw [length_take, drop_drop, length_drop]
      have hready := @ready_of_runs α items spare buf w start hmore hbuf hsmall
      obtain ⟨stop, hstop⟩ : ∃ stop, stop = start + w + min w (items.length - (start + w)) :=
        ⟨_, rfl⟩
      have hmid : start + w ≤ items.length := by omega
      have hforward : start ≤ stop := by omega
      have hle : stop ≤ items.length := by omega
      have hwidth : stop - start = w + min w (items.length - (start + w)) := by omega
      have hback : start + (stop - start) = stop := by omega
      have hleft' : items.length - stop < fuel := by omega
      have hwithin : stop < 2 ^ 31 := by omega
      obtain ⟨m, hm, hmerged⟩ := @mergeFrom_eq σ α cmp _ _ _ _ _ _ _ _ _ (items.length + 1) s
        hready (by rw [hleft, hright]; omega)
      have hlength := @length_mergeWith σ α cmp s ((items.drop start).take w)
        (((items.drop start).drop w).take w)
      rw [hleft, hright, ← hwidth] at hlength
      have hpass := @passWith_of_lt σ α cmp w hw s (items.drop start) hdrop
      have hrest : (items.drop start).drop (w + w) = items.drop stop := by
        rw [drop_drop]
        by_cases hwhole : start + (w + w) ≤ items.length
        · rw [show start + (w + w) = stop by omega]
        · rw [drop_eq_nil_of_le (by omega), drop_eq_nil_of_le (by omega)]
      rw [hrest] at hpass
      generalize mergeWith cmp s ((items.drop start).take w)
        (((items.drop start).drop w).take w) = merged at hmerged hlength hpass
      have hcopy := @copy_back σ α items spare buf start (stop - start) merged m hmerged hlength
        (hback.symm ▸ hle) hbuf.symm
      rw [hback] at hcopy
      obtain ⟨hsame, htake, hdropped⟩ := replaced_run hforward hle hlength
      obtain ⟨buf', hbuf', hnext⟩ := @ih (items.take start ++ merged.1 ++ items.drop stop) m.buf
        stop merged.2 (hsame.symm ▸ hle) (hsame.symm ▸ hleft')
        (by rw [hmerged.length, hbuf, hsame]) (hsame.symm ▸ hsmall)
      rw [hsame, htake, hdropped] at hnext
      refine ⟨buf', hbuf'.trans hsame, ?_⟩
      rw [← hstop] at hm
      rw [passFrom, i32_sub hstart hsmall, if_pos (Int.ofNat_lt.mpr hmore),
        i32_add (Nat.lt_of_le_of_lt hmid hsmall)]
      dsimp only
      rw [i32_sub hmid hsmall, i32_add_min (hstop ▸ hwithin), ← hstop, Int.toNat_natCast, hm]
      dsimp only [bind_eq_bind, bind_some]
      rw [i32_sub hforward hwithin, arrayMove_natCast, hcopy]
      dsimp only [bind_some]
      rw [hmerged.state, hnext, hpass, append_assoc]
    · have hdrop : ¬ w < (items.drop start).length := by rwa [length_drop]
      refine ⟨buf, hbuf, ?_⟩
      rw [passFrom, i32_sub hstart hsmall, if_neg fun h => hmore (Int.ofNat_lt.mp h),
        passWith_of_not_lt hdrop, take_append_drop]

/-- The rounds of doubling width sort the list. -/
theorem sortFrom_eq {w fuel : Nat} {s : σ} (hw : 0 < w) (hlt : w < items.length)
    (hfuel : items.length - w < fuel) (hbuf : buf.length = items.length)
    (hsmall : items.length < 2 ^ 31) :
    ∃ buf', sortFrom cmp items.length fuel w ⟨items.map some ++ spare, buf, s⟩ =
      some ⟨(sortWith cmp w s items).1.map some ++ spare, buf', (sortWith cmp w s items).2⟩ := by
  induction fuel generalizing items w buf s with
  | zero => exact absurd hfuel (Nat.not_lt_zero _)
  | succ fuel ih =>
    obtain ⟨buf', hbuf', hpass⟩ := @passFrom_eq σ α cmp items spare buf w (items.length + 1) 0 s hw
      (Nat.zero_le _) (by omega) hbuf hsmall
    rw [take_zero, drop_zero, nil_append] at hpass
    have hlength := @length_passWith σ α cmp w hw s items
    rw [sortFrom, Int.toNat_natCast, show (0 : Int) = ((0 : Nat) : Int) from rfl, hpass]
    dsimp only [bind_eq_bind, bind_some]
    rw [i32_sub (Nat.le_of_lt hlt) hsmall]
    by_cases hmore : w < items.length - w
    · have hsmall' : w + w < 2 ^ 31 := by omega
      have hdouble : (w : Int) * 2 = (w : Int) + w := by omega
      obtain ⟨buf'', hnext⟩ := @ih (passWith cmp w s items).1 buf' (w + w)
        (passWith cmp w s items).2 (by omega) (by omega) (by omega) (hbuf'.trans hlength.symm)
        (by omega)
      rw [hlength] at hnext
      refine ⟨buf'', ?_⟩
      rw [if_neg (by omega), hdouble, i32_add hsmall', hnext, sortWith_of_lt hw hmore]
    · refine ⟨buf', ?_⟩
      rw [if_pos (by omega), sortWith_of_not_lt hmore]

end Passes

/-! ## The sort -/

/-- A list in its array: its elements, then the slots that are not taken. -/
def GcList.Holds (list : GcList α) (items : List α) : Prop :=
  (∃ spare, list.repr = items.map some ++ spare) ∧ list.used = items.length ∧ items.length < 2 ^ 31

theorem sortBy_eq {cmp : σ → α → α → Ordering × σ} {list : GcList α} {items : List α}
    (h : list.Holds items) (s : σ) :
    ∃ list', sortBy cmp list s = some (list', (sortWith cmp 1 s items).2) ∧
      list'.Holds (sortWith cmp 1 s items).1 := by
  obtain ⟨⟨spare, hrepr⟩, hused, hsmall⟩ := h
  have hlength := (@sortWith_perm σ α cmp 1 (by decide) s items).length_eq
  by_cases hmore : 1 < items.length
  · obtain ⟨buf', hsort⟩ := @sortFrom_eq σ α cmp items spare
      (List.replicate items.length none) 1 (items.length + 1) s (by decide) hmore (by omega)
      length_replicate hsmall
    refine ⟨⟨(sortWith cmp 1 s items).1.map some ++ spare, items.length⟩, ?_,
      ⟨spare, rfl⟩, by rw [hlength], by rw [hlength]; exact hsmall⟩
    rw [sortBy, hused]
    dsimp only
    rw [if_neg (by omega), hrepr, Int.toNat_natCast, show (1 : Int) = ((1 : Nat) : Int) from rfl,
      hsort]
    rfl
  · have hpass : sortWith cmp 1 s items = (items, s) := by
      rw [sortWith_of_not_lt (by omega), passWith_of_not_lt hmore]
    refine ⟨list, ?_, ?_⟩
    · rw [sortBy, hused, hpass]
      exact if_pos (by omega)
    · rw [hpass]
      exact ⟨⟨spare, hrepr⟩, hused, hsmall⟩

/-- The sort ends without a trap and leaves the elements in another order; by an order, it
puts them in order, and equal ones stay in the order they had. -/
theorem sortBy_stable (cmp : σ → α → α → Ordering × σ) (list : GcList α) (items : List α) (s : σ)
    (h : list.Holds items) :
    ∃ list' s' out, sortBy cmp list s = some (list', s') ∧ list'.Holds out ∧ out.Perm items ∧
      ∀ (order : α → α → Ordering) [Std.TransCmp order], Answers cmp order → Ordered order out ∧
          ∀ a, out.filter (fun b => order a b = .eq) = items.filter fun b => order a b = .eq := by
  obtain ⟨list', hsort, hholds⟩ := @sortBy_eq σ α cmp list items h s
  refine ⟨list', _, _, hsort, hholds, sortWith_perm (by decide) s items, ?_⟩
  intro order _ hcmp
  refine ⟨sortWith_ordered hcmp s items, fun a => filter_sortWith hcmp s items ?_⟩
  intro x y hx hy
  exact not_gt_of_equal (of_decide_eq_true hx) (of_decide_eq_true hy)

/-- Pairs by their first components, the comparator counting its calls. -/
def comparePairs (calls : Nat) (x y : Nat × Nat) : Ordering × Nat :=
  (compare x.1 y.1, calls + 1)

/-- Four pairs in an array of five slots. -/
def fourPairs : GcList (Nat × Nat) :=
  ⟨[some (2, 0), some (1, 0), some (2, 1), some (1, 1), none], 4⟩

theorem sortBy_stable_pairs :
    ∃ list' calls out, sortBy comparePairs fourPairs 0 = some (list', calls) ∧
      list'.Holds out ∧ out.Perm [(2, 0), (1, 0), (2, 1), (1, 1)] ∧
      Ordered (compareOn Prod.fst) out ∧
      ∀ a, out.filter (fun b => compareOn Prod.fst a b = .eq) =
        [(2, 0), (1, 0), (2, 1), (1, 1)].filter fun b => compareOn Prod.fst a b = .eq := by
  obtain ⟨list', calls, out, hsort, hholds, hperm, horder⟩ := sortBy_stable comparePairs fourPairs
    [(2, 0), (1, 0), (2, 1), (1, 1)] 0 ⟨⟨[none], rfl⟩, rfl, by decide⟩
  exact ⟨list', calls, out, hsort, hholds, hperm, horder (compareOn Prod.fst) fun _ _ _ => rfl⟩

end Wado.ListSort
