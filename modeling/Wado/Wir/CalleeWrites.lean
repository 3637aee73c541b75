/-
The written fields of a module's functions are closed under its calls.
-/
import Mathlib.Algebra.Order.BigOperators.Group.List
import Wado.Wir.Instr

namespace Wado.Wir.CalleeWrites

open List

variable {Op Ty : Type} {f c g : Nat} {fields fields' : Table} {own own' : List Ident}

/-- What a row that was known may become. -/
inductive Absorbed (calls : List Nat) (fields : Table) (own : List Ident) :
    Option (List Ident) → Prop
  | lost : Absorbed calls fields own none
  | grown (own' : List Ident) (hkept : own ⊆ own')
      (hcovers : ∀ c ∈ calls, ∃ written, fields c = some written ∧ written ⊆ own')
      (honly : ∀ x ∈ own', x ∈ own ∨
        ∃ c ∈ calls, ∃ written, fields c = some written ∧ x ∈ written) :
      Absorbed calls fields own (some own')

section Absorb

variable {calls : List Nat} {written : List Ident} {changed : Bool}

theorem Absorbed.of_covered {row : Option (List Ident)} (hwritten : fields c = some written)
    (hsub : written ⊆ own') (hkept : own ⊆ own')
    (honly : ∀ x ∈ own', x ∈ own ∨ x ∈ written) (h : Absorbed calls fields own' row) :
    Absorbed (c :: calls) fields own row := by
  cases h with
  | lost => exact .lost
  | grown own'' hkept' hcovers honly' =>
    refine .grown own'' (fun x hx => hkept' (hkept hx)) ?_ ?_
    · intro d hd
      rcases mem_cons.mp hd with rfl | hd
      · exact ⟨written, hwritten, fun x hx => hkept' (hsub hx)⟩
      · exact hcovers d hd
    · intro x hx
      rcases honly' x hx with hx | ⟨d, hd, hin⟩
      · rcases honly x hx with hx | hx
        · exact Or.inl hx
        · exact Or.inr ⟨c, mem_cons_self, written, hwritten, hx⟩
      · exact Or.inr ⟨d, mem_cons_of_mem _ hd, hin⟩

theorem Absorbed.congr {row : Option (List Ident)} (hsame : ∀ c ∈ calls, fields' c = fields c)
    (h : Absorbed calls fields' own row) : Absorbed calls fields own row := by
  cases h with
  | lost => exact .lost
  | grown own' hkept hcovers honly =>
    refine .grown own' hkept ?_ ?_
    · intro c hc
      rw [← hsame c hc]
      exact hcovers c hc
    · intro x hx
      rcases honly x hx with hx | ⟨c, hc, hin⟩
      · exact Or.inl hx
      · rw [hsame c hc] at hin
        exact Or.inr ⟨c, hc, hin⟩

theorem absorb_of_none (h : fields f = none) :
    absorbCalleeWrites f calls fields changed = (fields, changed) := by
  cases calls <;> simp [absorbCalleeWrites, h]

theorem absorb_lost (hown : fields f = some own) (hlost : fields c = none) :
    absorbCalleeWrites f (c :: calls) fields changed = (Function.update fields f none, true) := by
  simp [absorbCalleeWrites, hown, hlost]

theorem absorb_known (hown : fields f = some own) (hwritten : fields c = some written) :
    absorbCalleeWrites f (c :: calls) fields changed =
      if written.filter (· ∉ own) = [] then absorbCalleeWrites f calls fields changed
      else
        absorbCalleeWrites f calls
          (Function.update fields f (some (own ++ written.filter (· ∉ own)))) true := by
  rw [absorbCalleeWrites, hown]
  dsimp only
  rw [hwritten]

theorem filter_eq_nil_iff : written.filter (· ∉ own) = [] ↔ written ⊆ own := by
  simp [subset_def]

theorem absorb_of_covered (hown : fields f = some own)
    (h : ∀ c ∈ calls, ∃ written, fields c = some written ∧ written ⊆ own) :
    absorbCalleeWrites f calls fields changed = (fields, changed) := by
  induction calls with
  | nil => rfl
  | cons c calls ih =>
    obtain ⟨written, hwritten, hsub⟩ := h c mem_cons_self
    rw [absorb_known hown hwritten, if_pos (filter_eq_nil_iff.mpr hsub)]
    exact ih fun d hd => h d (mem_cons_of_mem _ hd)

/-- Absorbing changes the one row only, to one that is lost or covers its calls,
and a row it says it changed has lost what it was or has more. -/
theorem absorb_of_some (hf : f ∉ calls) (changed : Bool) (hown : fields f = some own) :
    (∀ g, g ≠ f → (absorbCalleeWrites f calls fields changed).1 g = fields g) ∧
      Absorbed calls fields own ((absorbCalleeWrites f calls fields changed).1 f) ∧
      (absorbCalleeWrites f calls fields changed = (fields, changed) ∨
        (absorbCalleeWrites f calls fields changed).2 = true ∧
          ∀ own', (absorbCalleeWrites f calls fields changed).1 f = some own' →
            ∃ x ∈ own', x ∉ own) := by
  induction calls generalizing fields changed own with
  | nil =>
    refine ⟨fun g hg => rfl, ?_, Or.inl rfl⟩
    simp only [absorbCalleeWrites, hown]
    exact .grown own (fun x hx => hx) (by simp) (fun x hx => Or.inl hx)
  | cons c calls ih =>
    have hf' : f ∉ calls := fun h => hf (mem_cons_of_mem _ h)
    cases hwritten : fields c with
    | none =>
      rw [absorb_lost hown hwritten]
      refine ⟨fun g hg => Function.update_of_ne hg _ _, ?_, Or.inr ⟨rfl, ?_⟩⟩
      · simpa using Absorbed.lost
      · intro own' h
        simp at h
    | some written =>
      rw [absorb_known hown hwritten]
      by_cases hmissing : written.filter (· ∉ own) = []
      · rw [if_pos hmissing]
        obtain ⟨hothers, hrow, hsays⟩ := ih hf' changed hown
        exact ⟨hothers, hrow.of_covered hwritten (filter_eq_nil_iff.mp hmissing)
          (fun x hx => hx) (fun x hx => Or.inl hx), hsays⟩
      · rw [if_neg hmissing]
        set fields' := Function.update fields f (some (own ++ written.filter (· ∉ own)))
          with hfields'
        have hown' : fields' f = some (own ++ written.filter (· ∉ own)) := by
          simp [hfields']
        have hsame : ∀ g, g ≠ f → fields' g = fields g :=
          fun g hg => Function.update_of_ne hg _ _
        have hcalls : ∀ d ∈ calls, fields' d = fields d := by
          intro d hd
          exact hsame d (fun h => hf' (h ▸ hd))
        obtain ⟨hothers, hrow, hsays⟩ := ih hf' true hown'
        obtain ⟨y, hy⟩ := exists_mem_of_ne_nil _ hmissing
        refine ⟨fun g hg => (hothers g hg).trans (hsame g hg), ?_, Or.inr ⟨?_, ?_⟩⟩
        · refine (hrow.congr hcalls).of_covered hwritten ?_ (subset_append_left _ _) ?_
          · intro x hx
            by_cases hin : x ∈ own
            · exact mem_append_left _ hin
            · exact mem_append_right _ (mem_filter.mpr ⟨hx, by simpa using hin⟩)
          · intro x hx
            rcases mem_append.mp hx with hx | hx
            · exact Or.inl hx
            · exact Or.inr (mem_filter.mp hx).1
        · rcases hsays with hsame' | ⟨hchanged, -⟩
          · rw [hsame']
          · exact hchanged
        · intro own' hrow'
          rw [hrow'] at hrow
          cases hrow with
          | grown _ hkept _ _ =>
            have hnot : y ∉ own := by simpa using (mem_filter.mp hy).2
            exact ⟨y, hkept (mem_append_right _ hy), hnot⟩

end Absorb

section

variable (package : WirPackage Op Ty)

def update (f : Nat) (fields : Table) : Table × Bool :=
  absorbCalleeWrites f (calls package f) fields false

/-- Every known row holds what its function writes, and only what some function
of the module writes. -/
def Known (fields : Table) : Prop :=
  ∀ f own, fields f = some own → (∃ direct, ownFields package f = some direct ∧ direct ⊆ own) ∧
      ∀ x ∈ own, x ∈ named package

variable {package}

theorem not_mem_calls (f : Nat) : f ∉ calls package f := by
  simp [calls]

theorem lt_of_mem_calls (h : c ∈ calls package f) : f < package.functions.length := by
  by_contra hge
  have hnone : package.functions[f]? = none := List.getElem?_eq_none (not_lt.mp hge)
  rw [calls, direct, hnone] at h
  cases h

theorem stable_iff : Stable (update package) f fields ↔
      ∀ own, fields f = some own →
        ∀ c ∈ calls package f, ∃ written, fields c = some written ∧ written ⊆ own := by
  constructor
  · intro hstable own hown
    obtain ⟨-, hrow, hsays⟩ := absorb_of_some (not_mem_calls f) false hown
    rcases hsays with hsame | ⟨hchanged, -⟩
    · rw [hsame] at hrow
      simp only [hown] at hrow
      cases hrow with
      | grown _ _ hcovers _ => exact hcovers
    · rw [Stable, update, hchanged] at hstable
      cases hstable
  · intro hcovers
    cases hown : fields f with
    | none => rw [Stable, update, absorb_of_none hown]
    | some own => rw [Stable, update, absorb_of_covered hown (hcovers own hown)]

theorem update_of_ne (hg : g ≠ f) :
    (update package f fields).1 g = fields g := by
  cases hown : fields f with
  | none => rw [update, absorb_of_none hown]
  | some own => exact (absorb_of_some (not_mem_calls f) false hown).1 g hg

theorem update_row (hown : fields f = some own) :
    Absorbed (calls package f) fields own ((update package f fields).1 f) :=
  (absorb_of_some (not_mem_calls f) false hown).2.1

theorem sublist_unwritten {names : List Ident} (hkept : own ⊆ own') :
    (names.filter (· ∉ own')).Sublist (names.filter (· ∉ own)) := by
  refine monotone_filter_right names ?_
  intro x hx
  simp only [decide_not, Bool.not_eq_eq_eq_not, Bool.not_true, decide_eq_false_iff_not] at hx ⊢
  exact fun hin => hx (hkept hin)

theorem potential_lt (hf : f < package.functions.length)
    (hothers : ∀ g, g ≠ f → fields' g = fields g) (hown : fields f = some own)
    (hrow : ∀ own', fields' f = some own' → own ⊆ own' ∧ ∃ x ∈ own', x ∉ own ∧ x ∈ named package) :
    potential package fields' < potential package fields := by
  unfold potential
  refine sum_lt_sum _ _ ?_ ⟨f, mem_range.mpr hf, ?_⟩
  · intro g hg
    by_cases heq : g = f
    · subst heq
      rw [hown]
      cases hown' : fields' g with
      | none => simp
      | some own' =>
        exact Nat.add_le_add_left (sublist_unwritten (hrow own' hown').1).length_le 1
    · rw [hothers g heq]
  · rw [hown]
    cases hown' : fields' f with
    | none => simp
    | some own' =>
      obtain ⟨hkept, x, hx, hnot, hnamed⟩ := hrow own' hown'
      refine Nat.add_lt_add_left (Nat.lt_of_not_le ?_) 1
      intro hle
      have hin : x ∈ (named package).filter (· ∉ own) := by
        simp [hnamed, hnot]
      rw [← (sublist_unwritten hkept).eq_of_length_le hle] at hin
      simp [hx] at hin

/-- One look at a function settles it and disturbs its callers only. -/
theorem settles : Settles (update package) (callers package) (Known package) (potential package)
      package.functions.length where
  inv := by
    intro f fields hf hknown
    cases hown : fields f with
    | none =>
      rw [update, absorb_of_none hown]
      exact hknown
    | some own =>
      intro g row hrow
      by_cases hg : g = f
      · subst hg
        have habsorbed := @update_row Op Ty _ _ _ package hown
        rw [hrow] at habsorbed
        cases habsorbed with
        | grown _ hkept _ honly =>
          obtain ⟨⟨direct, hdirect, hsub⟩, hnamed⟩ := hknown g own hown
          refine ⟨⟨direct, hdirect, fun x hx => hkept (hsub hx)⟩, ?_⟩
          intro x hx
          rcases honly x hx with hx | ⟨c, -, written, hwritten, hin⟩
          · exact hnamed x hx
          · exact (hknown c written hwritten).2 x hin
      · rw [update_of_ne hg] at hrow
        exact hknown g row hrow
  same := by
    intro f fields hstable
    cases hown : fields f with
    | none => rw [update, absorb_of_none hown]
    | some own => rw [update, absorb_of_covered hown (stable_iff.mp hstable own hown)]
  lowers := by
    intro f fields hf hknown hchanged
    cases hown : fields f with
    | none =>
      rw [update, absorb_of_none hown] at hchanged
      cases hchanged
    | some own =>
      refine potential_lt hf (fun g hg => update_of_ne hg) hown ?_
      intro own' hown'
      have habsorbed := @update_row Op Ty _ _ _ package hown
      rw [hown'] at habsorbed
      cases habsorbed with
      | grown _ hkept _ honly =>
        refine ⟨hkept, ?_⟩
        obtain ⟨-, -, hsame | ⟨-, hnew⟩⟩ := absorb_of_some (not_mem_calls f) false hown
        · rw [update, hsame] at hchanged
          cases hchanged
        · obtain ⟨x, hx, hnot⟩ := hnew own' hown'
          refine ⟨x, hx, hnot, ?_⟩
          rcases honly x hx with hin | ⟨c, -, written, hwritten, hin⟩
          · exact absurd hin hnot
          · exact (hknown c written hwritten).2 x hin
  settles := by
    intro f fields
    rw [stable_iff]
    intro own' hown' c hc
    have hne : c ≠ f := fun h => not_mem_calls f (h ▸ hc)
    rw [update_of_ne hne]
    cases hown : fields f with
    | none =>
      rw [update, absorb_of_none hown] at hown'
      exact absurd hown' (by simp [hown])
    | some own =>
      have habsorbed := @update_row Op Ty _ _ _ package hown
      rw [hown'] at habsorbed
      cases habsorbed with
      | grown _ _ hcovers _ => exact hcovers c hc
  disturbs := by
    intro f g fields hnot hne hstable
    rw [stable_iff] at hstable ⊢
    intro own hown c hc
    rw [update_of_ne hne] at hown
    by_cases hcf : c = f
    · subst hcf
      refine absurd (mem_filter.mpr ⟨mem_range.mpr (lt_of_mem_calls hc), ?_⟩) hnot
      simpa using hc
    · rw [update_of_ne hcf]
      exact hstable own hown c hc
  below := by
    intro f g hg
    exact mem_range.mp (mem_filter.mp hg).1

theorem everyFunction_sound : (everyFunction package).Sound package.functions.length where
  marked := by simp [everyFunction]
  nodup := nodup_reverse.mpr nodup_range
  below := by simp [everyFunction]

theorem ownFields_known : Known package (ownFields package) := by
  intro f own hown
  have hf : f < package.functions.length := by
    by_contra hge
    have hnone : package.functions[f]? = none := List.getElem?_eq_none (not_lt.mp hge)
    simp [ownFields, direct, hnone] at hown
  refine ⟨⟨own, hown, fun x hx => hx⟩, ?_⟩
  intro x hx
  exact mem_flatMap.mpr ⟨f, mem_range.mpr hf, by simpa [hown] using hx⟩

/-- A known row covers what its function writes by itself and the rows of
everything it calls. -/
theorem ofModule_closed (hown : (ofModule package).fields f = some own) :
    (∃ direct, ownFields package f = some direct ∧ direct ⊆ own) ∧
      ∀ c ∈ calls package f, ∃ written, (ofModule package).fields c = some written ∧
        written ⊆ own := by
  obtain ⟨hknown, hstable⟩ := drain_stable settles ownFields_known everyFunction_sound
    (fun row hrow => Or.inl (by simpa [everyFunction] using hrow))
    (by simp [everyFunction] : (everyFunction package).pending.length +
      potential package (ownFields package) * (package.functions.length + 1) ≤
        package.functions.length +
          potential package (ownFields package) * (package.functions.length + 1))
  obtain ⟨⟨direct, hdirect, hsub⟩, -⟩ := hknown f own hown
  have hf : f < package.functions.length := by
    by_contra hge
    have hnone : package.functions[f]? = none := List.getElem?_eq_none (not_lt.mp hge)
    rw [ownFields, CalleeWrites.direct, hnone] at hdirect
    cases hdirect
  exact ⟨⟨direct, hdirect, hsub⟩, stable_iff.mp (hstable f hf) own hown⟩

end

end Wado.Wir.CalleeWrites
