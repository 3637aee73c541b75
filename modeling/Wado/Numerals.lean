/-
Numerals in a radix: what a text of digits stands for, and a reader that stops
at the first digit that is none or the first prefix past a bound.
-/
import Mathlib.Algebra.Ring.Int.Defs
import Mathlib.Tactic.Ring
import Mathlib.Tactic.SplitIfs

namespace Numerals

variable {α : Type}

/-- The number a text stands for after the number read so far, when it has
digits only. -/
def numeral (digit : α → Option Nat) (radix : Nat) : Nat → List α → Option Nat
  | n, [] => some n
  | n, a :: s =>
    match digit a with
    | none => none
    | some d => numeral digit radix (n * radix + d) s

attribute [grind =] numeral

inductive Failure where
  | invalid
  | overflow
deriving DecidableEq, Repr

/-- The reader of numbers below a bound. -/
def readBelow (digit : α → Option Nat) (radix bound : Nat) : Nat → List α → Except Failure Nat
  | n, [] => .ok n
  | n, a :: s =>
    match digit a with
    | none => .error .invalid
    | some d =>
      if n * radix + d < bound then readBelow digit radix bound (n * radix + d) s
      else .error .overflow

attribute [grind =] readBelow

section Read

variable {digit : α → Option Nat} {radix bound : Nat}

theorem numeral_append (n : Nat) (s t : List α) : numeral digit radix n (s ++ t) =
      (numeral digit radix n s).bind fun m => numeral digit radix m t := by
  induction s generalizing n with
  | nil => rfl
  | cons a s ih =>
    simp only [List.cons_append, numeral]
    cases digit a with
    | none => rfl
    | some d => exact ih _

theorem le_numeral (hradix : 1 ≤ radix) {n v : Nat} {s : List α}
    (h : numeral digit radix n s = some v) : n ≤ v := by
  induction s generalizing n with
  | nil =>
    cases h
    exact Nat.le_refl _
  | cons a s ih =>
    simp only [numeral] at h
    split at h
    · cases h
    · have hle := ih h
      have hmul : n * 1 ≤ n * radix := Nat.mul_le_mul_left n hradix
      omega

theorem readBelow_eq_ok (hradix : 1 ≤ radix) {n v : Nat} (hn : n < bound) (s : List α) :
    readBelow digit radix bound n s = .ok v ↔ numeral digit radix n s = some v ∧ v < bound := by
  induction s generalizing n with
  | nil =>
    simp only [readBelow, numeral]
    constructor
    · intro h
      cases h
      exact ⟨rfl, hn⟩
    · rintro ⟨h, -⟩
      cases h
      rfl
  | cons a s ih =>
    simp only [readBelow, numeral]
    cases digit a with
    | none => simp
    | some d =>
      dsimp only
      split_ifs with hfits
      · exact ih hfits
      · constructor
        · intro h
          cases h
        · rintro ⟨h, hv⟩
          have hle := le_numeral hradix h
          omega

/-- The reader refuses a text as invalid when the digits before the first that is
none stand for a number below the bound. -/
theorem readBelow_eq_invalid (hradix : 1 ≤ radix) {n : Nat} (hn : n < bound) (s : List α) :
    readBelow digit radix bound n s = .error .invalid ↔
      ∃ before a after v, s = before ++ a :: after ∧ numeral digit radix n before = some v ∧
        v < bound ∧ digit a = none := by
  induction s generalizing n with
  | nil => simp [readBelow]
  | cons b s ih =>
    simp only [readBelow]
    cases hdigit : digit b with
    | none =>
      simp only [true_iff]
      exact ⟨[], b, s, n, rfl, rfl, hn, hdigit⟩
    | some d =>
      dsimp only
      split_ifs with hfits
      · rw [ih hfits]
        constructor
        · rintro ⟨before, a, after, v, rfl, hnumeral, hv, hnone⟩
          refine ⟨b :: before, a, after, v, rfl, ?_, hv, hnone⟩
          simp only [numeral, hdigit]
          exact hnumeral
        · rintro ⟨before, a, after, v, hsplit, hnumeral, hv, hnone⟩
          cases before with
          | nil =>
            cases hsplit
            cases hdigit.symm.trans hnone
          | cons c before =>
            cases hsplit
            simp only [numeral, hdigit] at hnumeral
            exact ⟨before, a, after, v, rfl, hnumeral, hv, hnone⟩
      · simp only [Except.error.injEq, reduceCtorEq, false_iff]
        rintro ⟨before, a, after, v, hsplit, hnumeral, hv, hnone⟩
        cases before with
        | nil =>
          cases hsplit
          cases hdigit.symm.trans hnone
        | cons c before =>
          cases hsplit
          simp only [numeral, hdigit] at hnumeral
          have hle := le_numeral hradix hnumeral
          omega

/-- It refuses a text as too great when a prefix of digits stands for a number
at or past the bound. -/
theorem readBelow_eq_overflow {n : Nat} (hn : n < bound) (s : List α) :
    readBelow digit radix bound n s = .error .overflow ↔
      ∃ before after v, s = before ++ after ∧ numeral digit radix n before = some v ∧
        bound ≤ v := by
  induction s generalizing n with
  | nil =>
    simp only [readBelow, reduceCtorEq, false_iff]
    rintro ⟨before, after, v, hsplit, hnumeral, hv⟩
    obtain ⟨rfl, rfl⟩ := List.append_eq_nil_iff.mp hsplit.symm
    cases hnumeral
    omega
  | cons b s ih =>
    simp only [readBelow]
    cases hdigit : digit b with
    | none =>
      simp only [Except.error.injEq, reduceCtorEq, false_iff]
      rintro ⟨before, after, v, hsplit, hnumeral, hv⟩
      cases before with
      | nil =>
        cases hnumeral
        omega
      | cons c before =>
        cases hsplit
        simp only [numeral, hdigit] at hnumeral
        cases hnumeral
    | some d =>
      dsimp only
      split_ifs with hfits
      · rw [ih hfits]
        constructor
        · rintro ⟨before, after, v, rfl, hnumeral, hv⟩
          refine ⟨b :: before, after, v, rfl, ?_, hv⟩
          simp only [numeral, hdigit]
          exact hnumeral
        · rintro ⟨before, after, v, hsplit, hnumeral, hv⟩
          cases before with
          | nil =>
            cases hnumeral
            omega
          | cons c before =>
            cases hsplit
            simp only [numeral, hdigit] at hnumeral
            exact ⟨before, after, v, rfl, hnumeral, hv⟩
      · simp only [true_iff]
        refine ⟨[b], s, n * radix + d, rfl, ?_, Nat.le_of_not_lt hfits⟩
        simp only [numeral, hdigit]

end Read

/-! ## Numerals of a width -/

/-- The last digits of a number, so many of them. -/
def fixed (char : Nat → α) (radix : Nat) : Nat → Nat → List α
  | 0, _ => []
  | width + 1, n => fixed char radix width (n / radix) ++ [char (n % radix)]

attribute [grind =] fixed

theorem length_fixed (char : Nat → α) (radix width n : Nat) :
    (fixed char radix width n).length = width := by
  induction width generalizing n with
  | zero => rfl
  | succ width ih => rw [fixed, List.length_append, ih, List.length_singleton]

theorem numeral_fixed {char : Nat → α} {digit : α → Option Nat} {radix : Nat} (hradix : 0 < radix)
    (hchar : ∀ d < radix, digit (char d) = some d) (m width n : Nat) :
    numeral digit radix m (fixed char radix width n) =
      some (m * radix ^ width + n % radix ^ width) := by
  induction width generalizing n with
  | zero => simp [fixed, numeral, Nat.mod_one]
  | succ width ih =>
    have hdigit := hchar _ (Nat.mod_lt n hradix)
    have hpow : n % radix ^ (width + 1) = n / radix % radix ^ width * radix + n % radix := by
      rw [Nat.pow_succ', Nat.mod_mul, Nat.mul_comm, Nat.add_comm]
    rw [fixed, numeral_append, ih, Option.bind_some, numeral, hdigit, hpow]
    simp only [numeral]
    congr 1
    ring

/-- The test before a digit is taken in, against the greatest number divided by
the radix. -/
theorem overflow_iff {radix d : Nat} (hd : d < radix) (greatest n : Nat) :
    (greatest / radix < n ∨ n = greatest / radix ∧ greatest % radix < d) ↔
      greatest < n * radix + d := by
  have hsplit := Nat.div_add_mod greatest radix
  have hmod := Nat.mod_lt greatest (by omega : 0 < radix)
  rcases Nat.lt_trichotomy n (greatest / radix) with h | h | h
  · have hmul : radix * (n + 1) ≤ radix * (greatest / radix) := Nat.mul_le_mul_left radix h
    rw [Nat.mul_add, Nat.mul_one] at hmul
    rw [Nat.mul_comm n]
    omega
  · rw [h, Nat.mul_comm]
    omega
  · have hmul : radix * (greatest / radix + 1) ≤ radix * n := Nat.mul_le_mul_left radix h
    rw [Nat.mul_add, Nat.mul_one] at hmul
    rw [Nat.mul_comm n]
    omega

end Numerals
