/-
Arrays of a fixed length, as a garbage-collected heap holds them.  Reading or
writing past the end traps, and so does a copy whose source or target range
runs past its array; a trap is `none`.
-/
import Mathlib.Data.List.Basic
import Mathlib.Data.Option.Basic

namespace GcArray

open List

universe u

variable {α : Type u}

/-- The element at `i`, a trap past the end. -/
def get (xs : List α) (i : Nat) : Option α := xs[i]?

/-- `xs` with `x` at `i`, a trap past the end. -/
def set (xs : List α) (i : Nat) (x : α) : Option (List α) :=
  if i < xs.length then some (xs.set i x) else none

/-- The elements `src[from .. from + len]` written over `dst[at .. at + len]`.
The source is read before the target is written, so both may be one array. -/
def copyFrom (dst : List α) (at_ : Nat) (src : List α) (from_ len : Nat) : Option (List α) :=
  if at_ + len ≤ dst.length ∧ from_ + len ≤ src.length then
    some (dst.take at_ ++ (src.drop from_).take len ++ dst.drop (at_ + len))
  else none

theorem get_eq_some_iff (xs : List α) (i : Nat) (x : α) :
    get xs i = some x ↔ xs[i]? = some x := Iff.rfl

/-- A bind whose first computation answers goes on with the answer. -/
theorem bind_of_eq_some {β γ : Type} {o : Option β} {x : β} {f : β → Option γ}
    (h : o = some x) : (o >>= f) = f x := by
  rw [h]
  rfl

theorem set_of_lt {xs : List α} {i : Nat} (hi : i < xs.length) (x : α) :
    set xs i x = some (xs.set i x) := by
  simp [set, hi]

variable {at_ from_ len : Nat}

theorem copyFrom_of_le {dst src : List α}
    (hdst : at_ + len ≤ dst.length) (hsrc : from_ + len ≤ src.length) :
    copyFrom dst at_ src from_ len =
      some (dst.take at_ ++ (src.drop from_).take len ++ dst.drop (at_ + len)) := by
  simp [copyFrom, hdst, hsrc]

variable {dst src out : List α}

theorem length_of_copyFrom_eq_some (h : copyFrom dst at_ src from_ len = some out) :
    out.length = dst.length := by
  unfold copyFrom at h
  split at h
  · rename_i hle
    obtain rfl := Option.some.inj h
    simp
    omega
  · cases h

/-- A copy leaves everything outside its target range, and inside it puts the
source's elements in order. -/
theorem getElem?_of_copyFrom_eq_some (h : copyFrom dst at_ src from_ len = some out) (i : Nat) :
    out[i]? = if at_ ≤ i ∧ i < at_ + len then src[from_ + (i - at_)]? else dst[i]? := by
  unfold copyFrom at h
  split at h
  · rename_i hle
    obtain rfl := Option.some.inj h
    have hat : (dst.take at_).length = at_ := by simp; omega
    have hmid : ((src.drop from_).take len).length = len := by simp; omega
    by_cases hlo : i < at_
    · rw [append_assoc, List.getElem?_append_left (by omega), List.getElem?_take_of_lt hlo]
      simp [Nat.not_le.mpr hlo]
    · by_cases hhi : i < at_ + len
      · rw [append_assoc, List.getElem?_append_right (by omega),
          List.getElem?_append_left (by omega), hat,
          List.getElem?_take_of_lt (by omega), List.getElem?_drop]
        simp [Nat.le_of_not_lt hlo, hhi]
      · rw [List.getElem?_append_right (by simp; omega)]
        rw [length_append, hat, hmid, List.getElem?_drop]
        have heq : at_ + len + (i - (at_ + len)) = i := by omega
        simp [heq, hhi]
  · cases h

/-- Moving `len` elements up by one and writing `x` in the gap: an insertion
into the run that ends at `at_ + len`. -/
theorem exists_shift (xs : List α) (at_ len : Nat) (h : at_ + len + 1 ≤ xs.length) (x : α) :
    ∃ mid out, copyFrom xs (at_ + 1) xs at_ len = some mid ∧
      set mid at_ x = some out ∧ out.length = xs.length ∧
      ∀ j : Nat, out[j]? = if j = at_ then some x
        else if at_ < j ∧ j ≤ at_ + len then xs[j - 1]? else xs[j]? := by
  obtain ⟨mid, hmid⟩ : ∃ mid, copyFrom xs (at_ + 1) xs at_ len = some mid :=
    ⟨_, copyFrom_of_le (by omega) (by omega)⟩
  have hlen := length_of_copyFrom_eq_some hmid
  refine ⟨mid, mid.set at_ x, hmid, set_of_lt (by omega) x, by simpa using hlen, ?_⟩
  intro j
  by_cases hj : j = at_
  · subst hj
    rw [if_pos rfl, List.getElem?_set_self (by omega)]
  · rw [if_neg hj, List.getElem?_set_ne (Ne.symm hj), getElem?_of_copyFrom_eq_some hmid]
    by_cases hin : at_ < j ∧ j ≤ at_ + len
    · rw [if_pos (by omega), if_pos hin]
      congr 1
      omega
    · rw [if_neg (by omega), if_neg hin]

variable {x : α}

/-- A list around its element `i`. -/
theorem exists_split {xs : List α} {i : Nat} (h : xs[i]? = some x) :
    ∃ before after, xs = before ++ x :: after ∧ before.length = i := by
  obtain ⟨hi, hget⟩ := List.getElem?_eq_some_iff.mp h
  refine ⟨xs.take i, xs.drop (i + 1), ?_, by simp; omega⟩
  rw [← hget, getElem_cons_drop, take_append_drop]

/-- `items` stand in `xs` from `base` on. -/
def Run (xs : List α) (base : Nat) (items : List α) : Prop :=
  ∀ ⦃i : Nat⦄ ⦃x : α⦄, items[i]? = some x → xs[base + i]? = some x

theorem run_nil (xs : List α) (base : Nat) : Run xs base [] := by
  intro i x hi
  simp at hi

variable {xs items : List α}

theorem Run.get_eq {base i : Nat} (h : Run xs base items)
    (hi : items[i]? = some x) : get xs (base + i) = some x :=
  h hi

theorem Run.congr {xs ys items : List α} {base : Nat} (h : Run xs base items)
    (hsame : ∀ i < items.length, ys[base + i]? = xs[base + i]?) : Run ys base items := by
  intro i x hi
  rw [hsame i (List.getElem?_eq_some_iff.mp hi).1]
  exact h hi

variable {base : Nat}

theorem Run.take (h : Run xs base items) (k : Nat) :
    Run xs base (items.take k) := by
  intro i x hi
  rw [List.getElem?_take] at hi
  split at hi
  · exact h hi
  · cases hi

theorem Run.drop (h : Run xs base items) (k : Nat) :
    Run xs (base + k) (items.drop k) := by
  intro i x hi
  rw [List.getElem?_drop] at hi
  rw [Nat.add_assoc]
  exact h hi

/-- A copy brings a run with it. -/
theorem Run.copy {dst src out items : List α} {at_ from_ : Nat} (h : Run src from_ items)
    (hcopy : copyFrom dst at_ src from_ items.length = some out) : Run out at_ items := by
  intro i x hi
  have hlt := (List.getElem?_eq_some_iff.mp hi).1
  rw [getElem?_of_copyFrom_eq_some hcopy, if_pos (by omega), Nat.add_sub_cancel_left]
  exact h hi

/-- Shifting a run's tail up by one inserts into the run. -/
theorem Run.shift {xs out items : List α} {base pos : Nat} (h : Run xs base items)
    (hpos : pos ≤ items.length)
    (hout : ∀ j : Nat, out[j]? = if j = base + pos then some x
      else if base + pos < j ∧ j ≤ base + pos + (items.length - pos) then xs[j - 1]?
      else xs[j]?) :
    Run out base (items.take pos ++ x :: items.drop pos) := by
  have htake : (items.take pos).length = pos := by simp [hpos]
  intro i y hi
  rw [hout]
  rcases Nat.lt_trichotomy i pos with hlt | rfl | hgt
  · rw [List.getElem?_append_left (by omega), List.getElem?_take_of_lt hlt] at hi
    rw [if_neg (by omega), if_neg (by omega)]
    exact h hi
  · rw [List.getElem?_append_right (by omega), htake, Nat.sub_self] at hi
    rw [if_pos rfl]
    exact hi
  · obtain ⟨k, rfl⟩ : ∃ k, i = pos + 1 + k := ⟨i - pos - 1, by omega⟩
    rw [List.getElem?_append_right (by omega), htake,
      show pos + 1 + k - pos = k + 1 by omega, List.getElem?_cons_succ,
      List.getElem?_drop] at hi
    have hlt := (List.getElem?_eq_some_iff.mp hi).1
    rw [if_neg (by omega), if_pos (by omega),
      show base + (pos + 1 + k) - 1 = base + (pos + k) by omega]
    exact h hi

/-- An element before a run makes a run one longer. -/
theorem run_cons
    (hx : xs[base]? = some x) (h : Run xs (base + 1) items) : Run xs base (x :: items) := by
  intro i y hi
  cases i with
  | zero =>
    rw [List.getElem?_cons_zero] at hi
    rw [Nat.add_zero, hx, hi]
  | succ i =>
    rw [List.getElem?_cons_succ] at hi
    have hnext := h hi
    rwa [Nat.add_assoc, Nat.add_comm 1] at hnext

theorem Run.head {xs items : List α} {base : Nat} {x : α}
    (h : Run xs base (x :: items)) : xs[base]? = some x := by
  have hfirst := @h 0 x (by rw [List.getElem?_cons_zero])
  rwa [Nat.add_zero] at hfirst

theorem Run.tail {xs items : List α} {base : Nat} {x : α}
    (h : Run xs base (x :: items)) : Run xs (base + 1) items := h.drop 1

/-- The slots of a run. -/
theorem Run.slice (h : Run xs base items) :
    (xs.drop base).take items.length = items := by
  apply ext_getElem?
  intro i
  by_cases hi : i < items.length
  · rw [List.getElem?_take_of_lt hi, List.getElem?_drop]
    rw [h (List.getElem?_eq_getElem hi), List.getElem?_eq_getElem hi]
  · rw [List.getElem?_take, if_neg hi, List.getElem?_eq_none (by omega)]

end GcArray
