/-
A walk from a stack of items, each visited once: what it visits is what the
items reach, and it ends where that is finite.
-/
import Mathlib.Algebra.Order.BigOperators.Group.List
import Mathlib.Algebra.Order.Ring.Nat
import Mathlib.Data.List.Nodup
import Mathlib.Data.Set.Finite.Basic
import Mathlib.Logic.Relation

namespace Worklist

open List Option

variable {α : Type} [DecidableEq α]

/-- Visits the stack's items, last pushed first, pushing what each leads to; an
item among `seen` is passed over.  `none` where the fuel runs out. -/
def walk (next : α → List α) : Nat → List α → List α → Option (List α)
  | _, [], _ => some []
  | 0, _ :: _, _ => none
  | fuel + 1, item :: stack, seen =>
    if item ∈ seen then walk next fuel stack seen
    else (walk next fuel ((next item).reverse ++ stack) (seen ++ [item])).map (item :: ·)

/-- What `item` leads to, in any number of steps. -/
abbrev Reaches (next : α → List α) : α → α → Prop :=
  Relation.ReflTransGen fun item item' => item' ∈ next item

variable {next : α → List α} {fuel : Nat} {stack seen visited : List α}

section

variable (h : walk next fuel stack seen = some visited)
include h

theorem walk_reaches :
    ∀ item ∈ visited, ∃ start ∈ stack, Reaches next start item := by
  induction fuel generalizing stack seen visited with
  | zero =>
    cases stack with
    | nil =>
      cases h
      intro item hitem
      cases hitem
    | cons item stack => cases h
  | succ fuel ih =>
    cases stack with
    | nil =>
      cases h
      intro item hitem
      cases hitem
    | cons item stack =>
      rw [walk] at h
      by_cases hin : item ∈ seen
      · rw [if_pos hin] at h
        intro found hfound
        obtain ⟨start, hstart, hreach⟩ := ih h found hfound
        exact ⟨start, mem_cons_of_mem _ hstart, hreach⟩
      · rw [if_neg hin] at h
        obtain ⟨rest, hrest, rfl⟩ := map_eq_some_iff.mp h
        intro found hfound
        rcases mem_cons.mp hfound with rfl | hfound
        · exact ⟨found, mem_cons_self, .refl⟩
        · obtain ⟨start, hstart, hreach⟩ := ih hrest found hfound
          rcases mem_append.mp hstart with hpushed | hold
          · exact ⟨item, mem_cons_self, .head (mem_reverse.mp hpushed) hreach⟩
          · exact ⟨start, mem_cons_of_mem _ hold, hreach⟩

/-- What is visited or was seen holds the stack, and what the visited lead to. -/
theorem walk_closed :
    (∀ item ∈ stack, item ∈ seen ∨ item ∈ visited) ∧
      ∀ item ∈ visited, ∀ item' ∈ next item, item' ∈ seen ∨ item' ∈ visited := by
  induction fuel generalizing stack seen visited with
  | zero =>
    cases stack with
    | nil =>
      cases h
      constructor
      · intro item hitem
        cases hitem
      · intro item hitem
        cases hitem
    | cons item stack => cases h
  | succ fuel ih =>
    cases stack with
    | nil =>
      cases h
      constructor
      · intro item hitem
        cases hitem
      · intro item hitem
        cases hitem
    | cons item stack =>
      rw [walk] at h
      by_cases hin : item ∈ seen
      · rw [if_pos hin] at h
        obtain ⟨hstack, hnext⟩ := ih h
        refine ⟨?_, hnext⟩
        intro found hfound
        rcases mem_cons.mp hfound with rfl | hfound
        · exact Or.inl hin
        · exact hstack found hfound
      · rw [if_neg hin] at h
        obtain ⟨rest, hrest, rfl⟩ := map_eq_some_iff.mp h
        obtain ⟨hstack, hnext⟩ := ih hrest
        have hmoved : ∀ found, found ∈ seen ++ [item] ∨ found ∈ rest →
            found ∈ seen ∨ found ∈ item :: rest := by
          rintro found (hfound | hfound)
          · rcases mem_append.mp hfound with hold | hself
            · exact Or.inl hold
            · rw [mem_singleton.mp hself]
              exact Or.inr mem_cons_self
          · exact Or.inr (mem_cons_of_mem _ hfound)
        constructor
        · intro found hfound
          rcases mem_cons.mp hfound with rfl | hfound
          · exact Or.inr mem_cons_self
          · exact hmoved found (hstack found (mem_append_right _ hfound))
        · intro found hfound item' hitem'
          rcases mem_cons.mp hfound with rfl | hfound
          · apply hmoved
            apply hstack
            exact mem_append_left _ (mem_reverse.mpr hitem')
          · exact hmoved item' (hnext found hfound item' hitem')

/-- Each item is visited once, and none that was seen. -/
theorem walk_nodup :
    visited.Nodup ∧ ∀ item ∈ visited, item ∉ seen := by
  induction fuel generalizing stack seen visited with
  | zero =>
    cases stack with
    | nil =>
      cases h
      exact ⟨nodup_nil, fun _ hitem => by cases hitem⟩
    | cons item stack => cases h
  | succ fuel ih =>
    cases stack with
    | nil =>
      cases h
      exact ⟨nodup_nil, fun _ hitem => by cases hitem⟩
    | cons item stack =>
      rw [walk] at h
      by_cases hin : item ∈ seen
      · rw [if_pos hin] at h
        exact ih h
      · rw [if_neg hin] at h
        obtain ⟨rest, hrest, rfl⟩ := map_eq_some_iff.mp h
        obtain ⟨hnodup, hout⟩ := ih hrest
        refine ⟨nodup_cons.mpr ⟨fun hself => ?_, hnodup⟩, ?_⟩
        · exact hout item hself (mem_append_right _ mem_cons_self)
        · intro found hfound
          rcases mem_cons.mp hfound with rfl | hfound
          · exact hin
          · exact fun hseen => hout found hfound (mem_append_left _ hseen)

end

/-- A finished walk from one item visits exactly what it leads to. -/
theorem mem_walk_iff {start : α} (h : walk next fuel [start] [] = some visited) {item : α} :
    item ∈ visited ↔ Reaches next start item := by
  constructor
  · intro hitem
    obtain ⟨start', hstart, hreach⟩ := walk_reaches h item hitem
    rw [mem_singleton.mp hstart] at hreach
    exact hreach
  · intro hreach
    obtain ⟨hstack, hnext⟩ := walk_closed h
    induction hreach with
    | refl =>
      rcases hstack start (mem_singleton_self _) with hseen | hvisited
      · cases hseen
      · exact hvisited
    | tail _ hstep ih =>
      rcases hnext _ ih _ hstep with hseen | hvisited
      · cases hseen
      · exact hvisited

/-- What is left to do: the stack, and what the items unseen lead to. -/
def left (next : α → List α) (items stack seen : List α) : Nat :=
  stack.length + ((items.filter fun item => item ∉ seen).map fun item => (next item).length).sum

theorem left_visit {items : List α} {item : α} (hnodup : items.Nodup) (hitem : item ∈ items)
    (hout : item ∉ seen) :
    left next items ((next item).reverse ++ stack) (seen ++ [item]) + 1 =
      left next items (item :: stack) seen := by
  have hsum : ((items.filter fun found => found ∉ seen).map fun found => (next found).length).sum =
      (next item).length + ((items.filter fun found => found ∉ seen ++ [item]).map
        fun found => (next found).length).sum := by
    have hperm : (items.filter fun found => found ∉ seen).Perm
        (item :: items.filter fun found => found ∉ seen ++ [item]) := by
      rw [perm_ext_iff_of_nodup (hnodup.filter _)]
      · intro found
        simp only [mem_filter, mem_cons, decide_eq_true_eq, mem_append]
        constructor
        · rintro ⟨hin, hunseen⟩
          by_cases hself : found = item
          · exact Or.inl hself
          · exact Or.inr ⟨hin, by simp [hunseen, hself]⟩
        · rintro (rfl | ⟨hin, hunseen⟩)
          · exact ⟨hitem, hout⟩
          · exact ⟨hin, fun hseen => hunseen (Or.inl hseen)⟩
      · rw [nodup_cons]
        exact ⟨by simp, hnodup.filter _⟩
    rw [(hperm.map fun found => (next found).length).sum_eq, map_cons, sum_cons]
  unfold left
  rw [hsum, length_append, length_reverse, length_cons]
  omega

/-- A walk among finitely many items ends. -/
theorem walk_ends {items : List α} (hnodup : items.Nodup)
    (hclosed : ∀ item ∈ items, ∀ item' ∈ next item, item' ∈ items) :
    ∀ fuel stack seen, stack ⊆ items → left next items stack seen ≤ fuel →
      ∃ visited, walk next fuel stack seen = some visited := by
  intro fuel
  induction fuel with
  | zero =>
    intro stack seen _ hfuel
    cases stack with
    | nil => exact ⟨[], rfl⟩
    | cons item stack =>
      unfold left at hfuel
      rw [length_cons] at hfuel
      omega
  | succ fuel ih =>
    intro stack seen hsub hfuel
    cases stack with
    | nil => exact ⟨[], rfl⟩
    | cons item stack =>
      obtain ⟨hitem, hstack⟩ := cons_subset.mp hsub
      rw [walk]
      by_cases hin : item ∈ seen
      · rw [if_pos hin]
        apply ih stack seen hstack
        unfold left at hfuel ⊢
        rw [length_cons] at hfuel
        omega
      · rw [if_neg hin]
        have hpushed : (next item).reverse ++ stack ⊆ items := by
          intro found hfound
          rcases mem_append.mp hfound with hnew | hold
          · exact hclosed item hitem found (mem_reverse.mp hnew)
          · exact hstack hold
        have hleft : left next items ((next item).reverse ++ stack) (seen ++ [item]) + 1 =
            left next items (item :: stack) seen := left_visit hnodup hitem hin
        obtain ⟨visited, hvisited⟩ := ih _ (seen ++ [item]) hpushed (by omega)
        exact ⟨item :: visited, by rw [hvisited]; rfl⟩

/-- A walk from one item ends, with any fuel from some on, where the item leads to
finitely many. -/
theorem walk_ends_of_finite {start : α} (hfinite : { item | Reaches next start item }.Finite) :
    ∃ least, ∀ fuel, least ≤ fuel → ∃ visited, walk next fuel [start] [] = some visited := by
  obtain ⟨items, hitems⟩ := hfinite.exists_finset_coe
  have hmem : ∀ item, item ∈ items.toList ↔ Reaches next start item := by
    intro item
    rw [Finset.mem_toList, ← Finset.mem_coe, hitems]
    rfl
  refine ⟨left next items.toList [start] [], ?_⟩
  intro fuel hfuel
  apply walk_ends items.nodup_toList _ fuel [start] [] _ hfuel
  · intro item hitem item' hitem'
    rw [hmem] at hitem ⊢
    exact hitem.tail hitem'
  · intro item hitem
    rw [mem_singleton.mp hitem, hmem]

/-- A walk along items that each lead to the next alone, none twice, runs on. -/
theorem walk_runs_on {items : Nat → α} (hinjective : Function.Injective items)
    (hnext : ∀ n, next (items n) = [items (n + 1)]) (fuel : Nat) :
    ∀ n seen, (∀ item ∈ seen, ∃ m < n, item = items m) → walk next fuel [items n] seen = none := by
  induction fuel with
  | zero =>
    intro n seen _
    rfl
  | succ fuel ih =>
    intro n seen hseen
    have hout : items n ∉ seen := by
      intro hin
      obtain ⟨m, hm, heq⟩ := hseen _ hin
      rw [hinjective heq] at hm
      exact Nat.lt_irrefl m hm
    have hrest : walk next fuel [items (n + 1)] (seen ++ [items n]) = none := by
      apply ih
      intro item hitem
      rcases mem_append.mp hitem with hin | hself
      · obtain ⟨m, hm, heq⟩ := hseen item hin
        exact ⟨m, Nat.lt_succ_of_lt hm, heq⟩
      · exact ⟨n, Nat.lt_succ_self n, mem_singleton.mp hself⟩
    rw [walk, if_neg hout, hnext]
    show (walk next fuel [items (n + 1)] (seen ++ [items n])).map _ = none
    rw [hrest]
    rfl

end Worklist
