/-
A queue of rows to update until none changes: a row that changed puts the rows
that depend on it back.  Where each change lowers a measure, the queue empties,
and every row is then stable.
-/
import Mathlib.Data.List.Basic
import Mathlib.Data.List.Nodup
import Mathlib.Data.List.Perm.Subperm
import Mathlib.Tactic.Common
import Mathlib.Tactic.Ring

namespace Wado

open List

variable {S : Type*}

/-- The rows that wait, the next one first, and which rows wait. -/
structure Queue where
  pending : List Nat
  queued : Nat → Bool

variable {queue : Queue}

namespace Queue

def add (queue : Queue) (row : Nat) : Queue :=
  if queue.queued row then queue
  else ⟨row :: queue.pending, Function.update queue.queued row true⟩

/-- No row waits twice, and the marks say which do. -/
structure Sound (n : Nat) (queue : Queue) : Prop where
  marked : ∀ row, queue.queued row = true ↔ row ∈ queue.pending
  nodup : queue.pending.Nodup
  below : ∀ row ∈ queue.pending, row < n

variable {n : Nat}

theorem Sound.add (h : queue.Sound n) {row : Nat} (hrow : row < n) :
    (queue.add row).Sound n := by
  unfold Queue.add
  by_cases hqueued : queue.queued row = true
  · rw [if_pos hqueued]
    exact h
  · rw [if_neg hqueued]
    refine ⟨?_, ?_, ?_⟩
    · intro other
      by_cases heq : other = row
      · subst heq
        simp
      · simp [heq, h.marked other]
    · exact nodup_cons.mpr ⟨fun hin => hqueued ((h.marked row).mpr hin), h.nodup⟩
    · intro other hother
      rcases mem_cons.mp hother with rfl | hother
      · exact hrow
      · exact h.below other hother

theorem mem_add (h : queue.Sound n) {row other : Nat} :
    other ∈ (queue.add row).pending ↔ other = row ∨ other ∈ queue.pending := by
  unfold Queue.add
  by_cases hqueued : queue.queued row = true
  · rw [if_pos hqueued]
    have hin := (h.marked row).mp hqueued
    constructor
    · exact Or.inr
    · rintro (rfl | hother)
      · exact hin
      · exact hother
  · rw [if_neg hqueued]
    simp

theorem Sound.addAll {rows : List Nat} (hrows : ∀ row ∈ rows, row < n) (h : queue.Sound n) :
    (rows.foldl Queue.add queue).Sound n ∧
      ∀ other, other ∈ (rows.foldl Queue.add queue).pending ↔ other ∈ rows ∨
        other ∈ queue.pending := by
  induction rows generalizing queue with
  | nil => simp [h]
  | cons row rows ih =>
    have hadd := h.add (hrows row mem_cons_self)
    obtain ⟨hsound, hmem⟩ := ih (fun other hother => hrows other (mem_cons_of_mem _ hother))
      hadd
    refine ⟨hsound, ?_⟩
    intro other
    rw [foldl_cons, hmem, mem_add h, mem_cons]
    tauto

theorem Sound.length_le (h : queue.Sound n) :
    queue.pending.length ≤ n := by
  have hsub : queue.pending ⊆ List.range n := by
    intro row hrow
    exact mem_range.mpr (h.below row hrow)
  simpa using (subperm_of_subset h.nodup hsub).length_le

end Queue

/-- Update rows from the queue, for at most `fuel` of them. -/
def drain (update : Nat → S → S × Bool) (dependents : Nat → List Nat) : Nat → S → Queue → S
  | 0, s, _ => s
  | fuel + 1, s, queue =>
    match queue.pending with
    | [] => s
    | row :: pending =>
      drain update dependents fuel (update row s).1
        (if (update row s).2 then
          (dependents row).foldl Queue.add ⟨pending, Function.update queue.queued row false⟩
        else ⟨pending, Function.update queue.queued row false⟩)

section

variable {update : Nat → S → S × Bool} {dependents : Nat → List Nat} {Inv : S → Prop}
  {measure : S → Nat} {n : Nat}

/-- A row an update would leave as it is. -/
def Stable (update : Nat → S → S × Bool) (row : Nat) (s : S) : Prop :=
  (update row s).2 = false

/-- What one update may do. -/
structure Settles (update : Nat → S → S × Bool) (dependents : Nat → List Nat) (Inv : S → Prop)
    (measure : S → Nat) (n : Nat) : Prop where
  inv : ∀ row s, row < n → Inv s → Inv (update row s).1
  same : ∀ row s, Stable update row s → (update row s).1 = s
  lowers : ∀ row s, row < n → Inv s → (update row s).2 = true → measure (update row s).1 < measure s
  settles : ∀ row s, Stable update row (update row s).1
  disturbs : ∀ row other s, other ∉ dependents row → other ≠ row → Stable update other s →
    Stable update other (update row s).1
  below : ∀ row, ∀ other ∈ dependents row, other < n

theorem Queue.Sound.tail {row : Nat} {pending : List Nat} {queued : Nat → Bool}
    (h : Queue.Sound n ⟨row :: pending, queued⟩) :
    Queue.Sound n ⟨pending, Function.update queued row false⟩ := by
  obtain ⟨hnot, hnodup⟩ := nodup_cons.mp h.nodup
  refine ⟨?_, hnodup, fun other hother => h.below other (mem_cons_of_mem _ hother)⟩
  intro other
  by_cases heq : other = row
  · subst heq
    simpa using hnot
  · have hmarked := h.marked other
    simp only [mem_cons, heq, false_or] at hmarked
    simpa [Function.update_of_ne heq] using hmarked

/-- A queue that holds every row not yet stable empties, and leaves them all so. -/
theorem drain_stable (hsettles : Settles update dependents Inv measure n) {fuel : Nat} {s : S}
    (hinv : Inv s) (hsound : queue.Sound n)
    (hwaits : ∀ row < n, row ∈ queue.pending ∨ Stable update row s)
    (hfuel : queue.pending.length + measure s * (n + 1) ≤ fuel) :
    Inv (drain update dependents fuel s queue) ∧
      ∀ row < n, Stable update row (drain update dependents fuel s queue) := by
  induction fuel generalizing s queue with
  | zero =>
    have hempty : queue.pending = [] := by
      apply eq_nil_of_length_eq_zero
      omega
    refine ⟨hinv, ?_⟩
    intro row hrow
    rcases hwaits row hrow with hin | hstable
    · rw [hempty] at hin
      cases hin
    · exact hstable
  | succ fuel ih =>
    obtain ⟨pending, queued⟩ := queue
    cases pending with
    | nil =>
      refine ⟨hinv, ?_⟩
      intro row hrow
      rcases hwaits row hrow with hin | hstable
      · cases hin
      · exact hstable
    | cons row pending =>
      have hrow : row < n := hsound.below row mem_cons_self
      have htail := hsound.tail
      have hinv' := hsettles.inv row s hrow hinv
      simp only [drain]
      by_cases hchanged : (update row s).2 = true
      · rw [if_pos hchanged]
        obtain ⟨hsound', hmem⟩ := Queue.Sound.addAll (hsettles.below row) htail
        refine ih hinv' hsound' ?_ ?_
        · intro other hother
          rw [hmem]
          by_cases hdepends : other ∈ dependents row
          · exact Or.inl (Or.inl hdepends)
          by_cases heq : other = row
          · subst heq
            exact Or.inr (hsettles.settles other s)
          rcases hwaits other hother with hin | hstable
          · rcases mem_cons.mp hin with heq' | hin
            · exact absurd heq' heq
            · exact Or.inl (Or.inr hin)
          · exact Or.inr (hsettles.disturbs row other s hdepends heq hstable)
        · have hlowers := hsettles.lowers row s hrow hinv hchanged
          have hlength := hsound'.length_le
          have hstep : (measure (update row s).1 + 1) * (n + 1) ≤ measure s * (n + 1) :=
            Nat.mul_le_mul_right _ hlowers
          simp only [length_cons] at hfuel
          rw [Nat.add_mul, Nat.one_mul] at hstep
          omega
      · rw [if_neg hchanged]
        have hstable : Stable update row s := by
          simpa [Stable] using hchanged
        rw [hsettles.same row s hstable]
        refine ih hinv htail ?_ ?_
        · intro other hother
          rcases hwaits other hother with hin | hother
          · rcases mem_cons.mp hin with rfl | hin
            · exact Or.inr hstable
            · exact Or.inl hin
          · exact Or.inr hother
        · simp only [length_cons] at hfuel
          show pending.length + _ ≤ _
          omega

end

end Wado
