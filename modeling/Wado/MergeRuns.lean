/-
Bottom-up merge sort of a list by a comparator that may keep a state of its own:
adjacent runs of one width are merged, and the width doubles.
-/
import Mathlib.Data.List.Basic

namespace MergeRuns

open List

variable {σ α : Type}

/-- Two runs merged; the first gives its item unless it is greater. -/
def mergeWith (cmp : σ → α → α → Ordering × σ) : σ → List α → List α → List α × σ
  | s, [], ys => (ys, s)
  | s, x :: xs, [] => (x :: xs, s)
  | s, x :: xs, y :: ys =>
    let answer := cmp s x y
    if answer.1 = .gt then
      let rest := mergeWith cmp answer.2 (x :: xs) ys
      (y :: rest.1, rest.2)
    else
      let rest := mergeWith cmp answer.2 xs (y :: ys)
      (x :: rest.1, rest.2)
termination_by _ xs ys => xs.length + ys.length

/-- Every two runs of width `w` merged; a run without a partner stays. -/
def passWith (cmp : σ → α → α → Ordering × σ) (w : Nat) (s : σ) (xs : List α) : List α × σ :=
  if 0 < w ∧ w < xs.length then
    let merged := mergeWith cmp s (xs.take w) ((xs.drop w).take w)
    let rest := passWith cmp w merged.2 (xs.drop (w + w))
    (merged.1 ++ rest.1, rest.2)
  else (xs, s)
termination_by xs.length
decreasing_by
  rw [List.length_drop]
  omega

variable {s : σ} {xs ys : List α} {w : Nat} {xs : List α}

section Permutations

variable {cmp : σ → α → α → Ordering × σ}

@[simp]
theorem mergeWith_nil_left (s : σ) (ys : List α) : mergeWith cmp s [] ys = (ys, s) := by
  rw [mergeWith]

@[simp]
theorem mergeWith_nil_right (s : σ) (xs : List α) : mergeWith cmp s xs [] = (xs, s) := by
  cases xs with
  | nil => rw [mergeWith]
  | cons x xs => rw [mergeWith]

theorem mergeWith_of_gt {x y : α} (h : (cmp s x y).1 = .gt) :
    mergeWith cmp s (x :: xs) (y :: ys) = (y :: (mergeWith cmp (cmp s x y).2 (x :: xs) ys).1,
        (mergeWith cmp (cmp s x y).2 (x :: xs) ys).2) := by
  rw [mergeWith]
  exact if_pos h

theorem mergeWith_of_not_gt {x y : α} (h : (cmp s x y).1 ≠ .gt) :
    mergeWith cmp s (x :: xs) (y :: ys) = (x :: (mergeWith cmp (cmp s x y).2 xs (y :: ys)).1,
        (mergeWith cmp (cmp s x y).2 xs (y :: ys)).2) := by
  rw [mergeWith]
  exact if_neg h

theorem mergeWith_perm (s : σ) (xs ys : List α) : (mergeWith cmp s xs ys).1.Perm (xs ++ ys) := by
  induction s, xs, ys using mergeWith.induct cmp with
  | case1 s ys => rw [mergeWith_nil_left, nil_append]
  | case2 s x xs => rw [mergeWith_nil_right, append_nil]
  | case3 s x xs y ys answer hgt ih =>
    rw [mergeWith_of_gt hgt]
    exact (ih.cons y).trans perm_middle.symm
  | case4 s x xs y ys answer hnot ih =>
    rw [mergeWith_of_not_gt hnot]
    exact ih.cons x

theorem length_mergeWith (s : σ) (xs ys : List α) :
    (mergeWith cmp s xs ys).1.length = xs.length + ys.length := by
  rw [(mergeWith_perm s xs ys).length_eq, length_append]

theorem passWith_of_lt {w : Nat} (hw : 0 < w) {s : σ} {xs : List α} (h : w < xs.length) :
    passWith cmp w s xs = ((mergeWith cmp s (xs.take w) ((xs.drop w).take w)).1 ++
          (passWith cmp w (mergeWith cmp s (xs.take w) ((xs.drop w).take w)).2
            (xs.drop (w + w))).1,
        (passWith cmp w (mergeWith cmp s (xs.take w) ((xs.drop w).take w)).2
          (xs.drop (w + w))).2) := by
  rw [passWith, if_pos ⟨hw, h⟩]

theorem passWith_of_not_lt (h : ¬ w < xs.length) :
    passWith cmp w s xs = (xs, s) := by
  rw [passWith, if_neg fun hboth => h hboth.2]

/-- A list around its first two runs. -/
theorem two_runs (w : Nat) (xs : List α) :
    xs.take w ++ ((xs.drop w).take w ++ xs.drop (w + w)) = xs := by
  rw [← drop_drop, take_append_drop, take_append_drop]

theorem passWith_perm (hw : 0 < w) (s : σ) (xs : List α) :
    (passWith cmp w s xs).1.Perm xs := by
  induction hn : xs.length using Nat.strongRecOn generalizing s xs with
  | ind n ih =>
    by_cases h : w < xs.length
    · have hrest := ih (xs.drop (w + w)).length (by rw [length_drop]; omega)
        (mergeWith cmp s (xs.take w) ((xs.drop w).take w)).2 _ rfl
      rw [passWith_of_lt hw h]
      refine ((mergeWith_perm s (xs.take w) ((xs.drop w).take w)).append hrest).trans ?_
      rw [append_assoc, two_runs]
    · rw [passWith_of_not_lt h]

theorem length_passWith {w : Nat} (hw : 0 < w) (s : σ) (xs : List α) :
    (passWith cmp w s xs).1.length = xs.length :=
  (passWith_perm hw s xs).length_eq

end Permutations

/-- Passes of doubling width, until one run is left. -/
def sortWith (cmp : σ → α → α → Ordering × σ) (w : Nat) (s : σ) (xs : List α) : List α × σ :=
  if _h : 0 < w ∧ w < xs.length - w then
    sortWith cmp (w + w) (passWith cmp w s xs).2 (passWith cmp w s xs).1
  else passWith cmp w s xs
termination_by xs.length - w
decreasing_by
  rw [length_passWith _h.1]
  omega

section Rounds

variable {cmp : σ → α → α → Ordering × σ}

theorem sortWith_of_lt (hw : 0 < w) (h : w < xs.length - w) :
    sortWith cmp w s xs = sortWith cmp (w + w) (passWith cmp w s xs).2 (passWith cmp w s xs).1 := by
  rw [sortWith, dif_pos ⟨hw, h⟩]

theorem sortWith_of_not_lt (h : ¬ w < xs.length - w) :
    sortWith cmp w s xs = passWith cmp w s xs := by
  rw [sortWith, dif_neg fun hboth => h hboth.2]

/-- What every pass keeps, and the passes at hand, the whole sort has. -/
theorem sortWith_induct {good : Nat → List α → Prop} {w : Nat} {s : σ} {xs : List α} (hw : 0 < w)
    (hstart : good w xs)
    (hpass : ∀ {w s xs}, 0 < w → good w xs → good (w + w) (passWith cmp w s xs).1) :
    ∃ w', xs.length ≤ w' ∧ good w' (sortWith cmp w s xs).1 := by
  induction hn : xs.length - w using Nat.strongRecOn generalizing w s xs with
  | ind n ih =>
    have hnext := @hpass w s xs hw hstart
    by_cases h : w < xs.length - w
    · have hlength := @length_passWith σ α cmp w hw s xs
      obtain ⟨w', hle, hgood⟩ := @ih (xs.length - (w + w)) (by omega) (w + w)
        (passWith cmp w s xs).2 (passWith cmp w s xs).1 (by omega) hnext (by rw [hlength])
      rw [sortWith_of_lt hw h]
      exact ⟨w', hlength ▸ hle, hgood⟩
    · rw [sortWith_of_not_lt h]
      exact ⟨w + w, by omega, hnext⟩

theorem sortWith_perm {w : Nat} (hw : 0 < w) (s : σ) (xs : List α) :
    (sortWith cmp w s xs).1.Perm xs := by
  obtain ⟨-, -, hperm⟩ := @sortWith_induct σ α cmp (fun _ ys => ys.Perm xs) w s xs hw (.refl xs)
    fun {w s ys} hw h => (passWith_perm hw s ys).trans h
  exact hperm

end Rounds

section Order

variable {cmp : σ → α → α → Ordering × σ} {order : α → α → Ordering}

/-- The comparator answers by an order, whatever its state. -/
def Answers (cmp : σ → α → α → Ordering × σ) (order : α → α → Ordering) : Prop :=
  ∀ s x y, (cmp s x y).1 = order x y

/-- No item is greater than one after it. -/
def Ordered (order : α → α → Ordering) (xs : List α) : Prop :=
  xs.Pairwise fun x y => order x y ≠ .gt

/-- Runs of width `w` from the start on are in order. -/
def InRuns (order : α → α → Ordering) (w : Nat) (xs : List α) : Prop :=
  ∀ c, Ordered order ((xs.drop (c * w)).take w)

theorem inRuns_one (xs : List α) : InRuns order 1 xs := by
  intro c
  cases (xs.drop (c * 1)) with
  | nil => exact .nil
  | cons x xs => exact pairwise_singleton _ x

theorem InRuns.ordered (h : InRuns order w xs) (hle : xs.length ≤ w) :
    Ordered order xs := by
  have hfirst := h 0
  rwa [Nat.zero_mul, drop_zero, take_of_length_le hle] at hfirst

theorem InRuns.drop (h : InRuns order w xs) (k : Nat) :
    InRuns order w (xs.drop (k * w)) := by
  intro c
  rw [drop_drop, ← Nat.add_mul]
  exact h (k + c)

/-- A run before runs, where it is whole or the last. -/
theorem InRuns.append {w : Nat} {run rest : List α} (hrun : Ordered order run)
    (hrest : InRuns order w rest) (hlength : run.length = w ∨ run.length ≤ w ∧ rest = []) :
    InRuns order w (run ++ rest) := by
  intro c
  cases c with
  | zero =>
    rw [Nat.zero_mul, drop_zero]
    rcases hlength with rfl | ⟨hle, rfl⟩
    · rwa [take_left]
    · rwa [append_nil, take_of_length_le hle]
  | succ c =>
    rcases hlength with rfl | ⟨hle, rfl⟩
    · rw [Nat.succ_mul, Nat.add_comm, ← drop_drop, drop_left]
      exact hrest c
    · rw [append_nil, drop_eq_nil_of_le (by rw [Nat.succ_mul]; omega), take_nil]
      exact .nil

variable [Std.TransCmp order]

theorem not_gt_trans {x y z : α} (hxy : order x y ≠ .gt) (hyz : order y z ≠ .gt) :
    order x z ≠ .gt := by
  apply Ordering.isLE_iff_ne_gt.mp
  exact Std.TransCmp.isLE_trans (Ordering.isLE_iff_ne_gt.mpr hxy)
    (Ordering.isLE_iff_ne_gt.mpr hyz)

theorem not_gt_of_gt {x y : α} (h : order x y = .gt) : order y x ≠ .gt := by
  rw [Std.OrientedCmp.lt_of_gt h]
  decide

theorem mergeWith_ordered (hcmp : Answers cmp order) (s : σ)
    (hxs : Ordered order xs) (hys : Ordered order ys) :
    Ordered order (mergeWith cmp s xs ys).1 := by
  induction s, xs, ys using mergeWith.induct cmp with
  | case1 s ys => rwa [mergeWith_nil_left]
  | case2 s x xs => rwa [mergeWith_nil_right]
  | case3 s x xs y ys answer hgt ih =>
    obtain ⟨hfirst, hrest⟩ := pairwise_cons.mp hys
    rw [mergeWith_of_gt hgt]
    refine pairwise_cons.mpr ⟨fun z hz => ?_, ih hxs hrest⟩
    have hyx : order y x ≠ .gt := not_gt_of_gt ((hcmp s x y).symm.trans hgt)
    rcases mem_append.mp ((mergeWith_perm _ _ _).mem_iff.mp hz) with hz | hz
    · rcases mem_cons.mp hz with rfl | hz
      · exact hyx
      · exact not_gt_trans hyx ((pairwise_cons.mp hxs).1 z hz)
    · exact hfirst z hz
  | case4 s x xs y ys answer hnot ih =>
    obtain ⟨hfirst, hrest⟩ := pairwise_cons.mp hxs
    rw [mergeWith_of_not_gt hnot]
    refine pairwise_cons.mpr ⟨fun z hz => ?_, ih hrest hys⟩
    have hxy : order x y ≠ .gt := fun hgt => hnot ((hcmp s x y).trans hgt)
    rcases mem_append.mp ((mergeWith_perm _ _ _).mem_iff.mp hz) with hz | hz
    · exact hfirst z hz
    · rcases mem_cons.mp hz with rfl | hz
      · exact hxy
      · exact not_gt_trans hxy ((pairwise_cons.mp hys).1 z hz)

variable {p : α → Bool}

section

variable (hcmp : Answers cmp order)
include hcmp

/-- Items none of which is greater than another come out in their order. -/
theorem filter_mergeWith (s : σ)
    (hp : ∀ x y, p x = true → p y = true → order x y ≠ .gt) (hxs : Ordered order xs) :
    (mergeWith cmp s xs ys).1.filter p = (xs ++ ys).filter p := by
  induction s, xs, ys using mergeWith.induct cmp with
  | case1 s ys => rw [mergeWith_nil_left, nil_append]
  | case2 s x xs => rw [mergeWith_nil_right, append_nil]
  | case3 s x xs y ys answer hgt ih =>
    rw [mergeWith_of_gt hgt, filter_cons, ih hxs, filter_append, filter_append,
      @filter_cons _ y]
    by_cases hy : p y = true
    · -- No such item of the first run is left: it would be less than `y`.
      have hnone : (x :: xs).filter p = [] := by
        rw [filter_eq_nil_iff]
        intro z hz hpz
        have hxz : order x z ≠ .gt := by
          rcases mem_cons.mp hz with rfl | hz
          · exact hp z z hpz hpz
          · exact (pairwise_cons.mp hxs).1 z hz
        exact not_gt_trans hxz (hp z y hpz hy) ((hcmp s x y).symm.trans hgt)
      rw [hnone, if_pos hy, nil_append, nil_append, if_pos hy]
    · rw [if_neg hy, if_neg hy]
  | case4 s x xs y ys answer hnot ih =>
    rw [mergeWith_of_not_gt hnot, cons_append, filter_cons, filter_cons,
      ih (pairwise_cons.mp hxs).2]

theorem passWith_inRuns (hw : 0 < w) (s : σ)
    (hxs : InRuns order w xs) : InRuns order (w + w) (passWith cmp w s xs).1 := by
  induction hn : xs.length using Nat.strongRecOn generalizing s xs with
  | ind n ih =>
    by_cases h : w < xs.length
    · have htwo : xs.drop (2 * w) = xs.drop (w + w) := by rw [Nat.two_mul]
      have hleft := hxs 0
      have hright := hxs 1
      rw [Nat.zero_mul, drop_zero] at hleft
      rw [Nat.one_mul] at hright
      have hrest := ih (xs.drop (w + w)).length (by rw [length_drop]; omega)
        (mergeWith cmp s (xs.take w) ((xs.drop w).take w)).2 (htwo ▸ hxs.drop 2) rfl
      have hlength := @length_mergeWith σ α cmp s (xs.take w) ((xs.drop w).take w)
      rw [length_take, length_take, length_drop] at hlength
      rw [passWith_of_lt hw h]
      refine InRuns.append (mergeWith_ordered hcmp s hleft hright) hrest ?_
      by_cases hshort : w + w < xs.length
      · exact .inl (by omega)
      · refine .inr ⟨by omega, eq_nil_of_length_eq_zero ?_⟩
        rw [length_passWith hw, length_drop]
        omega
    · rw [passWith_of_not_lt h]
      intro c
      cases c with
      | zero =>
        rw [Nat.zero_mul, drop_zero, take_of_length_le (by dsimp only; omega)]
        exact hxs.ordered (by omega)
      | succ c =>
        rw [drop_eq_nil_of_le (by rw [Nat.succ_mul]; dsimp only; omega), take_nil]
        exact .nil

theorem filter_passWith (hw : 0 < w) (s : σ) (hp : ∀ x y, p x = true → p y = true → order x y ≠ .gt)
    (hxs : InRuns order w xs) : (passWith cmp w s xs).1.filter p = xs.filter p := by
  induction hn : xs.length using Nat.strongRecOn generalizing s xs with
  | ind n ih =>
    by_cases h : w < xs.length
    · have htwo : xs.drop (2 * w) = xs.drop (w + w) := by rw [Nat.two_mul]
      have hleft := hxs 0
      rw [Nat.zero_mul, drop_zero] at hleft
      have hrest := ih (xs.drop (w + w)).length (by rw [length_drop]; omega)
        (mergeWith cmp s (xs.take w) ((xs.drop w).take w)).2 (htwo ▸ hxs.drop 2) rfl
      rw [passWith_of_lt hw h, filter_append, filter_mergeWith hcmp s hp hleft, hrest,
        ← filter_append, append_assoc, two_runs]
    · rw [passWith_of_not_lt h]

end

/-- By an order, the sort puts the items in order. -/
theorem sortWith_ordered (hcmp : Answers cmp order) (s : σ) (xs : List α) :
    Ordered order (sortWith cmp 1 s xs).1 := by
  obtain ⟨w, hle, hruns⟩ := @sortWith_induct σ α cmp (InRuns order) 1 s xs (by decide)
    (inRuns_one xs) fun {w s xs} hw h => passWith_inRuns hcmp hw s h
  have hlength := (@sortWith_perm σ α cmp 1 (by decide) s xs).length_eq
  exact hruns.ordered (hlength ▸ hle)

/-- By an order, the sort leaves equal items in their order. -/
theorem filter_sortWith (hcmp : Answers cmp order) (s : σ) (xs : List α)
    (hp : ∀ x y, p x = true → p y = true → order x y ≠ .gt) :
    (sortWith cmp 1 s xs).1.filter p = xs.filter p := by
  obtain ⟨w, -, -, hfilter⟩ := @sortWith_induct σ α cmp
    (fun w ys => InRuns order w ys ∧ ys.filter p = xs.filter p) 1 s xs (by decide)
    ⟨inRuns_one xs, rfl⟩ fun {w s ys} hw h =>
      ⟨passWith_inRuns hcmp hw s h.1, (filter_passWith hcmp hw s hp h.1).trans h.2⟩
  exact hfilter

/-- Items equal to one item are not greater than each other. -/
theorem not_gt_of_equal {a x y : α} (hx : order a x = .eq) (hy : order a y = .eq) :
    order x y ≠ .gt := by
  rw [Std.TransCmp.eq_trans (Std.OrientedCmp.eq_symm hx) hy]
  decide

end Order

end MergeRuns
