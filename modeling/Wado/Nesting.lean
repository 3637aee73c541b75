/-
Sequences of brackets with plain entries between them, and the brackets that stand open after
each of their prefixes.
-/
import Mathlib.Data.List.Basic
import Mathlib.Data.List.Pairwise
import Mathlib.Order.Lattice
import Mathlib.Tactic.Common

namespace Wado.Nesting

open List Option

inductive Bracket
  | opens
  | closes
  | plain
deriving DecidableEq, Repr

/-- The positions open after one more entry, the innermost first. -/
def next (r : Nat) (outer : List Nat) : Bracket → Option (List Nat)
  | .opens => some (r :: outer)
  | .closes => match outer with
      | [] => none
      | _ :: rest => some rest
  | .plain => some outer

/-- The positions open after entries from position `r` on, unless one closes nothing. -/
def standing : Nat → List Nat → List Bracket → Option (List Nat)
  | _, outer, [] => some outer
  | r, outer, b :: rest => (next r outer b).bind fun outer => standing (r + 1) outer rest

theorem standing_append (r : Nat) (outer : List Nat) (front back : List Bracket) :
    standing r outer (front ++ back) =
      (standing r outer front).bind fun outer => standing (r + front.length) outer back := by
  induction front generalizing r outer with
  | nil => simp [standing]
  | cons b rest ih =>
    simp only [cons_append, standing, bind_assoc, length_cons]
    congr 1
    funext outer
    rw [ih]
    congr 1
    funext outer
    rw [Nat.add_assoc, Nat.add_comm 1]

variable {r : Nat} {outer found : List Nat}

theorem standing_snoc {front : List Bracket}
    (h : standing r outer front = some found) (b : Bracket) :
    standing r outer (front ++ [b]) = next (r + front.length) found b := by
  rw [standing_append, h]
  simp [standing]

variable {bs : List Bracket}

/-- What entries do inside is what they do under anything. -/
theorem standing_under {inner found : List Nat}
    (h : standing r inner bs = some found) (outer : List Nat) :
    standing r (inner ++ outer) bs = some (found ++ outer) := by
  induction bs generalizing r inner with
  | nil =>
    simp only [standing, Option.some.injEq] at h ⊢
    rw [h]
  | cons b rest ih =>
    simp only [standing, bind_eq_some_iff] at h ⊢
    obtain ⟨after, hnext, hrest⟩ := h
    refine ⟨after ++ outer, ?_, ih hrest⟩
    cases b with
    | opens =>
      simp only [next, Option.some.injEq] at hnext ⊢
      rw [← hnext, cons_append]
    | closes =>
      cases inner with
      | nil => simp [next] at hnext
      | cons innermost inner =>
        simp only [next, Option.some.injEq, cons_append] at hnext ⊢
        rw [hnext]
    | plain =>
      simp only [next, Option.some.injEq] at hnext ⊢
      rw [hnext]

theorem standing_shift (d r : Nat) (outer : List Nat) (bs : List Bracket) :
    standing (r + d) (outer.map (· + d)) bs = (standing r outer bs).map (List.map (· + d)) := by
  induction bs generalizing r outer with
  | nil => simp [standing]
  | cons b rest ih =>
    have hnext : next (r + d) (outer.map (· + d)) b = (next r outer b).map (List.map (· + d)) := by
      cases b with
      | opens => rfl
      | closes => cases outer <;> rfl
      | plain => rfl
    simp only [standing, hnext]
    cases next r outer b with
    | none => rfl
    | some outer =>
      have hone := ih (r + 1) outer
      rw [Nat.add_right_comm] at hone
      exact hone

/-- A position that stands open did so before, or was opened by one of the entries. -/
theorem standing_mem (h : standing r outer bs = some found) {p : Nat} (hp : p ∈ found) :
    p ∈ outer ∨ ∃ i, bs[i]? = some .opens ∧ p = r + i := by
  induction bs generalizing r outer with
  | nil =>
    simp only [standing, Option.some.injEq] at h
    exact .inl (h ▸ hp)
  | cons b rest ih =>
    simp only [standing, bind_eq_some_iff] at h
    obtain ⟨after, hnext, hrest⟩ := h
    rcases ih hrest with hafter | ⟨i, hi, rfl⟩
    · cases b with
      | opens =>
        simp only [next, Option.some.injEq] at hnext
        rw [← hnext, mem_cons] at hafter
        rcases hafter with rfl | hafter
        · exact .inr ⟨0, rfl, rfl⟩
        · exact .inl hafter
      | closes =>
        cases outer with
        | nil => simp [next] at hnext
        | cons innermost outer =>
          simp only [next, Option.some.injEq] at hnext
          exact .inl (mem_cons_of_mem _ (hnext ▸ hafter))
      | plain =>
        simp only [next, Option.some.injEq] at hnext
        exact .inl (hnext ▸ hafter)
    · exact .inr ⟨i + 1, hi, by omega⟩

variable {found : List Nat}

theorem standing_between (h : standing r [] bs = some found) {p : Nat} (hp : p ∈ found) :
    r ≤ p ∧ p < r + bs.length := by
  rcases standing_mem h hp with hnone | ⟨i, hi, rfl⟩
  · simp at hnone
  · have hlt := (List.getElem?_eq_some_iff.mp hi).1
    omega

/-- The open positions descend. -/
theorem standing_descends (h : standing r outer bs = some found) (hbelow : ∀ p ∈ outer, p < r)
    (houter : outer.Pairwise (· > ·)) : found.Pairwise (· > ·) := by
  induction bs generalizing r outer with
  | nil =>
    simp only [standing, Option.some.injEq] at h
    exact h ▸ houter
  | cons b rest ih =>
    simp only [standing, bind_eq_some_iff] at h
    obtain ⟨after, hnext, hrest⟩ := h
    cases b with
    | opens =>
      simp only [next, Option.some.injEq] at hnext
      subst hnext
      apply ih hrest
      · intro p hp
        rcases mem_cons.mp hp with rfl | hp
        · exact Nat.lt_succ_self _
        · exact Nat.lt_succ_of_lt (hbelow p hp)
      · exact pairwise_cons.mpr ⟨hbelow, houter⟩
    | closes =>
      cases outer with
      | nil => simp [next] at hnext
      | cons innermost outer =>
        simp only [next, Option.some.injEq] at hnext
        subst hnext
        apply ih hrest
        · intro p hp
          exact Nat.lt_succ_of_lt (hbelow p (mem_cons_of_mem _ hp))
        · exact (pairwise_cons.mp houter).2
    | plain =>
      simp only [next, Option.some.injEq] at hnext
      subst hnext
      exact ih hrest (fun p hp => Nat.lt_succ_of_lt (hbelow p hp)) houter

/-- No entry from a position on closes what stands open there. -/
def Stands (bs : List Bracket) (cp : Nat) : Prop :=
  (standing cp [] (bs.drop cp)).isSome

instance (bs : List Bracket) (cp : Nat) : Decidable (Stands bs cp) :=
  inferInstanceAs (Decidable ((standing cp [] (bs.drop cp)).isSome = true))

/-- Where the rest closes nothing opened before it, the open positions split there. -/
theorem standing_split {cp : Nat} (hcp : cp ≤ bs.length)
    (h : standing 0 [] bs = some found) (hstands : Stands bs cp) :
    ∃ inner outer, standing 0 [] (bs.take cp) = some outer ∧
      standing cp [] (bs.drop cp) = some inner ∧ found = inner ++ outer := by
  obtain ⟨inner, hinner⟩ := isSome_iff_exists.mp hstands
  have hwhole : standing 0 [] (bs.take cp ++ bs.drop cp) = some found := by
    rw [take_append_drop]
    exact h
  rw [standing_append, bind_eq_some_iff] at hwhole
  obtain ⟨outer, houter, hrest⟩ := hwhole
  have hunder := standing_under hinner outer
  rw [length_take_of_le hcp, Nat.zero_add] at hrest
  rw [nil_append, hrest, Option.some.injEq] at hunder
  exact ⟨inner, outer, houter, hinner, hunder⟩

/-- What is read of a position whose rest closes nothing before it. -/
theorem standing_prefix {cp n : Nat} (hcp : cp ≤ n)
    (hn : n ≤ bs.length) (hstands : Stands bs cp) (h : standing 0 [] (bs.take n) = some found) :
    ∃ inner outer, standing 0 [] (bs.take cp) = some outer ∧
      standing cp [] ((bs.drop cp).take (n - cp)) = some inner ∧ found = inner ++ outer := by
  have htake : (bs.take n).take cp = bs.take cp := by rw [take_take, Nat.min_eq_left hcp]
  have hdrop : (bs.take n).drop cp = (bs.drop cp).take (n - cp) := drop_take
  obtain ⟨all, hall⟩ := isSome_iff_exists.mp hstands
  have hfront : Stands (bs.take n) cp := by
    rw [← take_append_drop (n - cp) (bs.drop cp), standing_append,
      bind_eq_some_iff] at hall
    obtain ⟨inner, hinner, _⟩ := hall
    rw [Stands, hdrop, hinner]
    rfl
  have hlength : cp ≤ (bs.take n).length := by
    rw [length_take_of_le hn]
    exact hcp
  obtain ⟨inner, outer, houter, hinner, heq⟩ := standing_split hlength h hfront
  rw [htake] at houter
  rw [hdrop] at hinner
  exact ⟨inner, outer, houter, hinner, heq⟩

/-- The close of a position opened earlier comes earlier. -/
theorem closes_before {cp c p : Nat} {outer : List Nat} (hp : p < cp)
    (hstands : Stands bs cp) (hclose : bs[c]? = some .closes)
    (h : standing 0 [] (bs.take c) = some (p :: outer)) : c < cp := by
  by_contra hge
  have hc := (List.getElem?_eq_some_iff.mp hclose).1
  obtain ⟨inner, before, hbefore, hinner, heq⟩ :=
    standing_prefix (by omega) (by omega) hstands h
  cases inner with
  | cons q inner =>
    rw [cons_append, List.cons.injEq] at heq
    have hge' := (standing_between hinner mem_cons_self).1
    omega
  | nil =>
    -- the close would be the first to close something from before
    obtain ⟨all, hall⟩ := isSome_iff_exists.mp hstands
    have hnext : (bs.drop cp).drop (c - cp) = .closes :: (bs.drop cp).drop (c - cp + 1) := by
      rw [drop_drop, drop_drop]
      have hadd : cp + (c - cp) = c := by omega
      rw [← Nat.add_assoc, hadd]
      rw [drop_eq_getElem_cons hc, (List.getElem?_eq_some_iff.mp hclose).2]
    rw [← take_append_drop (c - cp) (bs.drop cp), standing_append, hinner, hnext] at hall
    simp [standing, next] at hall

end Wado.Nesting
