/-
Derivations from rules with finitely many premises, and the search that refuses
a question still open above itself: it loses no derivable question, and among
finitely many questions it ends.
-/
import Mathlib.Data.List.Nodup
import Mathlib.Data.List.Perm.Subperm
import Mathlib.Data.Nat.Find
import Mathlib.Data.Nat.Init

namespace CutSearch

open List

variable {Q : Type}

/-- A finite derivation: a rule of the question whose premises are all derivable. -/
inductive Derivable (rule : Q → List Q → Prop) : Q → Prop
  | step {q : Q} {premises : List Q} (hrule : rule q premises)
      (h : ∀ p ∈ premises, Derivable rule p) : Derivable rule q

/-- A derivation in which no question is open above itself, under those open
already. -/
inductive DerivableUnder (rule : Q → List Q → Prop) : List Q → Q → Prop
  | step {asking : List Q} {q : Q} {premises : List Q} (hout : q ∉ asking)
      (hrule : rule q premises) (h : ∀ p ∈ premises, DerivableUnder rule (asking ++ [q]) p) :
      DerivableUnder rule asking q

/-- A derivation at most `height` rules high. -/
def DerivableIn (rule : Q → List Q → Prop) : Nat → Q → Prop
  | 0, _ => False
  | height + 1, q => ∃ premises, rule q premises ∧ ∀ p ∈ premises, DerivableIn rule height p

variable {rule rule' : Q → List Q → Prop} {q : Q} {asking : List Q}

theorem derivableUnder_iff : DerivableUnder rule asking q ↔ q ∉ asking ∧
    ∃ premises, rule q premises ∧ ∀ p ∈ premises, DerivableUnder rule (asking ++ [q]) p := by
  constructor
  · rintro ⟨hout, hrule, h⟩
    exact ⟨hout, _, hrule, h⟩
  · rintro ⟨hout, premises, hrule, h⟩
    exact .step hout hrule h

theorem Derivable.mono (hsub : ∀ q premises, rule q premises → rule' q premises)
    (h : Derivable rule q) : Derivable rule' q := by
  induction h with
  | step hrule _ ih => exact .step (hsub _ _ hrule) ih

theorem DerivableUnder.derivable (h : DerivableUnder rule asking q) : Derivable rule q := by
  induction h with
  | step _ hrule _ ih => exact .step hrule ih

theorem DerivableIn.mono {height height' : Nat} (hle : height ≤ height')
    (h : DerivableIn rule height q) : DerivableIn rule height' q := by
  induction height generalizing height' q with
  | zero => exact h.elim
  | succ height ih =>
    obtain ⟨premises, hrule, hall⟩ := h
    cases height' with
    | zero => cases hle
    | succ height' =>
      exact ⟨premises, hrule, fun p hp => ih (Nat.le_of_succ_le_succ hle) (hall p hp)⟩

theorem derivableIn_all {premises : List Q} (h : ∀ p ∈ premises, ∃ height,
    DerivableIn rule height p) :
    ∃ height, ∀ p ∈ premises, DerivableIn rule height p := by
  induction premises with
  | nil => exact ⟨0, fun p hp => by cases hp⟩
  | cons head premises ih =>
    obtain ⟨height, hhead⟩ := h head mem_cons_self
    obtain ⟨height', hrest⟩ := ih fun p hp => h p (mem_cons_of_mem _ hp)
    refine ⟨max height height', ?_⟩
    intro p hp
    rcases mem_cons.mp hp with rfl | hin
    · exact hhead.mono (Nat.le_max_left _ _)
    · exact (hrest p hin).mono (Nat.le_max_right _ _)

theorem Derivable.exists_height (h : Derivable rule q) : ∃ height, DerivableIn rule height q := by
  induction h with
  | @step q premises hrule _ ih =>
    obtain ⟨height, hall⟩ := derivableIn_all ih
    exact ⟨height + 1, premises, hrule, hall⟩

/-- A lowest derivation never asks the question it answers again, nor one open
above it that is derived no lower. -/
theorem DerivableIn.under (height : Nat) :
    ∀ asking q, DerivableIn rule height q → (∀ n < height, ¬ DerivableIn rule n q) →
      (∀ a ∈ asking, ¬ DerivableIn rule height a) → DerivableUnder rule asking q := by
  induction height using Nat.strongRecOn with
  | _ height ih =>
    intro asking q hq hleast hasking
    cases height with
    | zero => exact hq.elim
    | succ height =>
      obtain ⟨premises, hrule, hall⟩ := hq
      have hout : q ∉ asking := fun hin => hasking q hin ⟨premises, hrule, hall⟩
      refine .step hout hrule ?_
      intro p hp
      classical
      have hexists : ∃ n, DerivableIn rule n p := ⟨height, hall p hp⟩
      have hle : Nat.find hexists ≤ height := Nat.find_le (hall p hp)
      apply ih (Nat.find hexists) (Nat.lt_succ_of_le hle) (asking ++ [q]) p
        (Nat.find_spec hexists)
      · intro n hn
        exact Nat.find_min hexists hn
      · intro a ha hin
        rcases mem_append.mp ha with hold | hself
        · exact hasking a hold (hin.mono (Nat.le_succ_of_le hle))
        · rw [mem_singleton.mp hself] at hin
          exact hleast (Nat.find hexists) (Nat.lt_succ_of_le hle) hin

/-- Refusing a question open above itself loses no derivation. -/
theorem derivableUnder_nil_iff : DerivableUnder rule [] q ↔ Derivable rule q := by
  constructor
  · exact DerivableUnder.derivable
  · intro h
    classical
    have hexists := h.exists_height
    apply DerivableIn.under (Nat.find hexists) [] q (Nat.find_spec hexists)
    · intro n hn
      exact Nat.find_min hexists hn
    · intro a ha
      cases ha

/-- A search among finitely many questions: where what a question asks is settled
under it open, whatever is open above stays within them, so every question is
settled with as much fuel as there are questions left to open. -/
theorem settled (settles : Nat → List Q → Q → Prop) {asks : Q → Q → Prop} (questions : List Q)
    (least : Nat) (hclosed : ∀ q ∈ questions, ∀ p, asks q p → p ∈ questions)
    (hstep : ∀ fuel asking q, least ≤ fuel → q ∈ questions →
      (q ∉ asking → ∀ p, asks q p → settles fuel (asking ++ [q]) p) →
      settles (fuel + 1) asking q) :
    ∀ fuel asking q, asking.Nodup → asking ⊆ questions → q ∈ questions →
      questions.length + least < fuel + asking.length → settles fuel asking q := by
  have hrun : ∀ left asking q, asking.Nodup → asking ⊆ questions → q ∈ questions →
      questions.length ≤ left + asking.length → ∀ fuel, least + left < fuel →
      settles fuel asking q := by
    intro left
    induction left with
    | zero =>
      intro asking q hnodup hsub hq hlen fuel hfuel
      obtain ⟨fuel, rfl⟩ : ∃ n, fuel = n + 1 := ⟨fuel - 1, by omega⟩
      apply hstep fuel asking q (by omega) hq
      intro hout
      exfalso
      -- Every question is open, so this one is.
      have hnodup' : (q :: asking).Nodup := nodup_cons.mpr ⟨hout, hnodup⟩
      have hle := (hnodup'.subperm (cons_subset.mpr ⟨hq, hsub⟩)).length_le
      rw [length_cons] at hle
      omega
    | succ left ih =>
      intro asking q hnodup hsub hq hlen fuel hfuel
      obtain ⟨fuel, rfl⟩ : ∃ n, fuel = n + 1 := ⟨fuel - 1, by omega⟩
      apply hstep fuel asking q (by omega) hq
      intro hout p hp
      have hnodup' : (asking ++ [q]).Nodup := by
        rw [nodup_append]
        refine ⟨hnodup, nodup_singleton q, ?_⟩
        intro a ha b hb hab
        rw [mem_singleton.mp hb] at hab
        exact hout (hab ▸ ha)
      apply ih (asking ++ [q]) p hnodup' _ (hclosed q hq p hp) _ fuel (by omega)
      · intro a ha
        rcases mem_append.mp ha with hin | hself
        · exact hsub hin
        · rw [mem_singleton.mp hself]
          exact hq
      · rw [length_append, length_singleton]
        omega
  intro fuel asking q hnodup hsub hq hfuel
  have hle := (hnodup.subperm hsub).length_le
  exact hrun (questions.length - asking.length) asking q hnodup hsub hq (by omega) fuel (by omega)

end CutSearch
