/-
Linear probing over a power-of-two table.  A table holds natural numbers, -1
for an empty slot.  What keeps every number findable is that no empty slot lies
between its home and the slot it is in.
-/
import Mathlib.Data.Fintype.Card
import Mathlib.Data.Nat.Bitwise
import Wado.GcArray

namespace LinearProbe

variable {β : Type}

/-- Tests slots from `s` on, wrapping at the end, until one answers.  A test
that traps, or `fuel` slots without an answer, is `none`. -/
def probe (test : Nat → Option (Option β)) (mask : Nat) : Nat → Nat → Option β
  | 0, _ => none
  | fuel + 1, s => do
    match ← test s with
    | some answer => return answer
    | none => probe test mask fuel ((s + 1) &&& mask)

/-- Probing stops at the first slot that answers. -/
theorem probe_eq_some {test : Nat → Option (Option β)} {p k fuel home : Nat}
    {answer : β} (hfuel : k < fuel) (hhome : home < 2 ^ p)
    (hpass : ∀ j < k, test ((home + j) % 2 ^ p) = some none)
    (hstop : test ((home + k) % 2 ^ p) = some (some answer)) :
    probe test (2 ^ p - 1) fuel home = some answer := by
  induction k generalizing fuel home with
  | zero =>
    cases fuel with
    | zero => omega
    | succ fuel =>
      rw [Nat.add_zero, Nat.mod_eq_of_lt hhome] at hstop
      simp [probe, hstop]
  | succ k ih =>
    cases fuel with
    | zero => omega
    | succ fuel =>
      have hhere := hpass 0 (by omega)
      rw [Nat.add_zero, Nat.mod_eq_of_lt hhome] at hhere
      have hnext : (home + 1) &&& (2 ^ p - 1) = (home + 1) % 2 ^ p :=
        Nat.and_two_pow_sub_one_eq_mod _ _
      have hshift : ∀ j, ((home + 1) % 2 ^ p + j) % 2 ^ p = (home + (j + 1)) % 2 ^ p := by
        intro j
        rw [Nat.mod_add_mod]
        congr 1
        omega
      simp only [probe, hhere, Option.bind_eq_bind, Option.bind_some, hnext]
      apply ih (by omega) (Nat.mod_lt _ (Nat.two_pow_pos p))
      · intro j hj
        rw [hshift]
        exact hpass (j + 1) (by omega)
      · rw [hshift]
        exact hstop

/-- Every slot lies a number of steps short of the table's length from `home`. -/
theorem exists_steps {n home s : Nat} (hhome : home < n) (hs : s < n) :
    ∃ k < n, (home + k) % n = s := by
  rcases Nat.lt_or_ge s home with hlt | hge
  · refine ⟨s + n - home, by omega, ?_⟩
    rw [show home + (s + n - home) = s + n by omega, Nat.add_mod_right, Nat.mod_eq_of_lt hs]
  · exact ⟨s - home, by omega, by
      rw [show home + (s - home) = s by omega, Nat.mod_eq_of_lt hs]⟩

/-- No empty slot lies between `home` and the slot `k` steps on. -/
def Crowded (table : List Int) (home k : Nat) : Prop :=
  ∀ j < k, ∃ i : Nat, table[(home + j) % table.length]? = some (i : Int)

/-- Slot `s` can be reached from `home` without crossing an empty slot. -/
def Reaches (table : List Int) (home s : Nat) : Prop :=
  ∃ k < table.length, (home + k) % table.length = s ∧ Crowded table home k

/-- Every slot is empty or holds a number, and no number is in two slots. -/
structure Slots (table : List Int) : Prop where
  cases_eq : ∀ {s : Nat}, s < table.length →
    table[s]? = some (-1) ∨ ∃ i : Nat, table[s]? = some (i : Int)
  injective : ∀ {s s' i : Nat}, table[s]? = some (i : Int) → table[s']? = some (i : Int) → s = s'

theorem replicate_ne (n s i : Nat) : (List.replicate n (-1 : Int))[s]? ≠ some (i : Int) := by
  intro hs
  obtain ⟨_, hget⟩ := List.getElem?_eq_some_iff.mp hs
  rw [List.getElem_replicate] at hget
  omega

theorem replicate_slots (n : Nat) : Slots (List.replicate n (-1)) := by
  constructor
  · intro s hs
    rw [List.length_replicate] at hs
    exact Or.inl (by simp [hs])
  · intro s s' i hs
    exact absurd hs (replicate_ne n s i)

/-- A table whose numbers are below `bound` has an empty slot once it has more
slots than that. -/
theorem Slots.exists_empty {table : List Int} (h : Slots table) {bound : Nat}
    (hbound : ∀ {s i : Nat}, table[s]? = some (i : Int) → i < bound)
    (hlt : bound < table.length) : ∃ s : Nat, table[s]? = some (-1) := by
  by_contra hnone
  have hfull : ∀ s : Fin table.length, ∃ i : Fin bound, table[s.1]? = some (i.1 : Int) := by
    intro s
    rcases h.cases_eq s.2 with hempty | ⟨i, hi⟩
    · exact absurd ⟨s.1, hempty⟩ hnone
    · exact ⟨⟨i, hbound hi⟩, hi⟩
  choose number hnumber using hfull
  have hinj : Function.Injective number := by
    intro s s' heq
    have hs' := hnumber s'
    rw [← heq] at hs'
    exact Fin.ext (h.injective (hnumber s) hs')
  have hcard := Fintype.card_le_of_injective number hinj
  simp only [Fintype.card_fin] at hcard
  omega

variable {table : List Int}

/-- The first slot from `home` on that satisfies `stop`, where an empty slot
does: everything before it is crowded and does not. -/
theorem Slots.exists_first (h : Slots table)
    {home : Nat} (hhome : home < table.length) (stop : Nat → Prop)
    (hstop : ∀ s : Nat, table[s]? = some (-1) → stop s)
    (hempty : ∃ s : Nat, table[s]? = some (-1)) :
    ∃ k < table.length, stop ((home + k) % table.length) ∧ Crowded table home k ∧
      ∀ j < k, ¬ stop ((home + j) % table.length) := by
  classical
  obtain ⟨s, hs⟩ := hempty
  obtain ⟨k₀, hk₀, hsteps⟩ :=
    exists_steps hhome (List.getElem?_eq_some_iff.mp hs).1
  have hex : ∃ k, stop ((home + k) % table.length) := ⟨k₀, by rw [hsteps]; exact hstop s hs⟩
  have hle : Nat.find hex ≤ k₀ := Nat.find_min' hex (by rw [hsteps]; exact hstop s hs)
  refine ⟨Nat.find hex, by omega, Nat.find_spec hex, ?_, fun j hj => Nat.find_min hex hj⟩
  intro j hj
  rcases h.cases_eq (Nat.mod_lt (home + j) (by omega)) with hfree | hnumber
  · exact absurd (hstop _ hfree) (Nat.find_min hex hj)
  · exact hnumber

/-- Writing a number over a slot empties none, so it keeps every run crowded. -/
theorem Crowded.set {home k : Nat} (h : Crowded table home k)
    (s i : Nat) : Crowded (table.set s (i : Int)) home k := by
  intro j hj
  obtain ⟨old, hold⟩ := h j hj
  rw [List.length_set]
  by_cases heq : s = (home + j) % table.length
  · exact ⟨i, by rw [← heq, List.getElem?_set_self (by
      rw [heq]; exact (List.getElem?_eq_some_iff.mp hold).1)]⟩
  · exact ⟨old, by rw [List.getElem?_set_ne heq, hold]⟩

theorem Reaches.set {home s : Nat} (h : Reaches table home s)
    (at_ i : Nat) : Reaches (table.set at_ (i : Int)) home s := by
  obtain ⟨k, hk, hsteps, hcrowded⟩ := h
  exact ⟨k, by simpa using hk, by simpa using hsteps, hcrowded.set at_ i⟩

/-- A number in `table` after `i` is written at `s` is `i` itself, or was there
in another slot. -/
theorem getElem?_set_cases {s s' i i' : Nat} (h : (table.set s (i : Int))[s']? = some (i' : Int)) :
    (s' = s ∧ i' = i) ∨ (s' ≠ s ∧ table[s']? = some (i' : Int)) := by
  by_cases heq : s = s'
  · subst heq
    rw [List.getElem?_set] at h
    simp only [if_true] at h
    split at h
    · exact Or.inl ⟨rfl, by have := Option.some.inj h; omega⟩
    · cases h
  · rw [List.getElem?_set_ne heq] at h
    exact Or.inr ⟨Ne.symm heq, h⟩

theorem Slots.set (h : Slots table) (s : Nat) {i : Nat}
    (hnew : ∀ s : Nat, table[s]? ≠ some (i : Int)) : Slots (table.set s (i : Int)) := by
  constructor
  · intro s' hs'
    rw [List.length_set] at hs'
    by_cases heq : s = s'
    · subst heq
      exact Or.inr ⟨i, List.getElem?_set_self hs'⟩
    · rw [List.getElem?_set_ne heq]
      exact h.cases_eq hs'
  · intro a b j ha hb
    rcases getElem?_set_cases ha with ⟨rfl, rfl⟩ | ⟨_, hold⟩ <;>
      rcases getElem?_set_cases hb with ⟨rfl, hj⟩ | ⟨_, hold'⟩
    · rfl
    · exact absurd hold' (hnew b)
    · exact absurd (hj ▸ hold) (hnew a)
    · exact h.injective hold hold'

end LinearProbe
