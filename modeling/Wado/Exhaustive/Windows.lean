/-
The neighbouring pairs of a strictly increasing list: nothing of the list lies inside a
pair, and whatever lies between two of its elements lies in one of them.
-/
import Mathlib.Data.List.Basic
import Mathlib.Order.Lattice

namespace Wado.Windows

open List

variable {α : Type}

/-- The neighbouring pairs of a list. -/
def windows (l : List α) : List (α × α) := l.zip l.tail

@[simp] theorem windows_cons_cons (a b : α) (l : List α) :
    windows (a :: b :: l) = (a, b) :: windows (b :: l) := rfl

variable {l : List α}

theorem mem_of_mem_windows {w : α × α} (h : w ∈ windows l) : w.1 ∈ l ∧ w.2 ∈ l :=
  ⟨(of_mem_zip h).1, mem_of_mem_tail (of_mem_zip h).2⟩

variable [LinearOrder α]

section

variable (hl : l.Pairwise (· < ·))
include hl

/-- A pair goes up, and nothing of the list lies inside it. -/
theorem windows_gap {w : α × α} (h : w ∈ windows l) :
    w.1 < w.2 ∧ ∀ c ∈ l, c ≤ w.1 ∨ w.2 ≤ c := by
  induction l with
  | nil => cases h
  | cons a l ih =>
    cases l with
    | nil => cases h
    | cons b l =>
      rw [pairwise_cons] at hl
      rw [windows_cons_cons, mem_cons] at h
      obtain rfl | h := h
      · refine ⟨hl.1 b mem_cons_self, fun c hc => ?_⟩
        rcases mem_cons.mp hc with rfl | hc
        · exact .inl le_rfl
        · rcases mem_cons.mp hc with rfl | hc
          · exact .inr le_rfl
          · exact .inr ((pairwise_cons.mp hl.2).1 c hc).le
      · obtain ⟨hlt, hgap⟩ := ih hl.2 h
        refine ⟨hlt, fun c hc => ?_⟩
        rcases mem_cons.mp hc with rfl | hc
        · exact .inl (hl.1 w.1 (mem_of_mem_windows h).1).le
        · exact hgap c hc

theorem windows_increasing :
    (windows l).Pairwise fun w w' => w.1 < w'.1 := by
  induction l with
  | nil => exact .nil
  | cons a l ih =>
    cases l with
    | nil => exact .nil
    | cons b l =>
      rw [pairwise_cons] at hl
      rw [windows_cons_cons, pairwise_cons]
      exact ⟨fun w hw => hl.1 w.1 (mem_of_mem_windows hw).1, ih hl.2⟩

/-- What lies between two elements of the list lies in a pair. -/
theorem exists_window {first last k : α}
    (hfirst : first ∈ l) (hle : first ≤ k) (hlast : last ∈ l) (hlt : k < last) :
    ∃ w ∈ windows l, w.1 ≤ k ∧ k < w.2 := by
  induction l generalizing first with
  | nil => cases hfirst
  | cons a l ih =>
    rw [pairwise_cons] at hl
    have hak : a ≤ k := by
      rcases mem_cons.mp hfirst with rfl | hfirst
      · exact hle
      · exact (hl.1 first hfirst).le.trans hle
    have hlast' : last ∈ l := by
      rcases mem_cons.mp hlast with rfl | hlast
      · exact absurd hlt (not_lt_of_ge hak)
      · exact hlast
    cases l with
    | nil => cases hlast'
    | cons b l =>
      rw [windows_cons_cons]
      rcases lt_or_ge k b with hkb | hbk
      · exact ⟨(a, b), mem_cons_self, hak, hkb⟩
      · obtain ⟨w, hw, hbounds⟩ := ih hl.2 mem_cons_self hbk hlast'
        exact ⟨w, mem_cons_of_mem _ hw, hbounds⟩

end

end Wado.Windows
