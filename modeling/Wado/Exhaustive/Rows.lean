/-
A value reaching a row of the matrix, and what each rewriting of the rows keeps of it:
expanding the or-patterns, dropping a column, and going on with some of the rows.
-/
import Wado.Exhaustive.Values

namespace Wado.Exhaustive

open List

variable {row : ArmRow} {vs : List Value}

namespace ArmRow

/-- The row may take the values. -/
def mayTake (row : ArmRow) (vs : List Value) : Bool := takesAll true row.pats vs

/-- The row is sure to take the values, and no guard stands before it. -/
def covers (row : ArmRow) (vs : List Value) : Bool := row.guardless && takesAll false row.pats vs

theorem mayTake_of_covers (h : row.covers vs = true) :
    row.mayTake vs = true := by
  rw [covers, Bool.and_eq_true] at h
  exact takesAll_may _ _ h.2

end ArmRow

/-- The values reach a row of the arm: it may take them, and no row ahead of it covers
them. -/
def Reaches (vs : List Value) (arm : Nat) : List ArmRow → Prop
  | [] => False
  | row :: rows =>
    row.arm = arm ∧ row.mayTake vs = true ∨ row.covers vs = false ∧ Reaches vs arm rows

section Reaches

variable {vs ws : List Value} {arm : Nat}

theorem reaches_append {rows rows' : List ArmRow} : Reaches vs arm (rows ++ rows') ↔
      Reaches vs arm rows ∨ (∀ row ∈ rows, row.covers vs = false) ∧ Reaches vs arm rows' := by
  induction rows with
  | nil => simp only [nil_append, Reaches, not_mem_nil, false_imp_iff, implies_true,
      true_and, false_or]
  | cons row rows ih =>
    rw [cons_append, Reaches, Reaches, ih, forall_mem_cons]
    tauto

variable {rows : List ArmRow}

/-- A reached row, with what stands around it. -/
theorem reaches_iff : Reaches vs arm rows ↔
      ∃ before row after, rows = before ++ row :: after ∧ row.arm = arm ∧
        row.mayTake vs = true ∧ ∀ r ∈ before, r.covers vs = false := by
  constructor
  · intro h
    induction rows with
    | nil => exact h.elim
    | cons row rows ih =>
      obtain ⟨harm, hmay⟩ | ⟨hrow, h⟩ := h
      · exact ⟨[], row, rows, rfl, harm, hmay, fun r hr => absurd hr (not_mem_nil)⟩
      · obtain ⟨before, reached, after, rfl, harm, hmay, hbefore⟩ := ih h
        exact ⟨row :: before, reached, after, rfl, harm, hmay,
          forall_mem_cons.mpr ⟨hrow, hbefore⟩⟩
  · rintro ⟨before, row, after, rfl, harm, hmay, hbefore⟩
    exact reaches_append.mpr (.inr ⟨hbefore, .inl ⟨harm, hmay⟩⟩)

variable {f : ArmRow → Option ArmRow}

/-- Going on with some of the rows keeps a reached row reached, when it goes on and
nothing that goes on covers more than it did. -/
theorem Reaches.filterMap (hmay : ∀ row ∈ rows, row.mayTake vs = true →
      ∃ row', f row = some row' ∧ row'.arm = row.arm ∧ row'.mayTake ws = true)
    (hcovers : ∀ row ∈ rows, ∀ row', f row = some row' → row'.covers ws = true →
      row.covers vs = true)
    (h : Reaches vs arm rows) : Reaches ws arm (rows.filterMap f) := by
  induction rows with
  | nil => exact h.elim
  | cons row rows ih =>
    rw [forall_mem_cons] at hmay hcovers
    obtain ⟨harm, htakes⟩ | ⟨hrow, h⟩ := h
    · obtain ⟨row', hrow', harm', htakes'⟩ := hmay.1 htakes
      rw [filterMap_cons_some hrow']
      exact .inl ⟨harm'.trans harm, htakes'⟩
    · have hrest := ih hmay.2 hcovers.2 h
      cases hf : f row with
      | none => rwa [filterMap_cons_none hf]
      | some row' =>
        rw [filterMap_cons_some hf]
        refine .inr ⟨?_, hrest⟩
        rw [← Bool.not_eq_true]
        intro hcovered
        rw [hcovers.1 row' hf hcovered] at hrow
        cases hrow

/-- A row reached among those that go on was reached, when it takes nothing new and
what covers the values goes on. -/
theorem Reaches.of_filterMap (hmay : ∀ row ∈ rows, ∀ row', f row = some row' → row'.arm = row.arm ∧
      (row'.mayTake ws = true → row.mayTake vs = true))
    (hcovers : ∀ row ∈ rows, row.covers vs = true →
      ∃ row', f row = some row' ∧ row'.covers ws = true)
    (h : Reaches ws arm (rows.filterMap f)) : Reaches vs arm rows := by
  induction rows with
  | nil => exact h.elim
  | cons row rows ih =>
    rw [forall_mem_cons] at hmay hcovers
    have hkeeps : ∀ row', f row = some row' → row'.covers ws = false → row.covers vs = false := by
      intro row' hf hrow'
      rw [← Bool.not_eq_true]
      intro hcovered
      obtain ⟨row'', hf', hcovered'⟩ := hcovers.1 hcovered
      obtain rfl := Option.some.inj (hf.symm.trans hf')
      rw [hrow'] at hcovered'
      cases hcovered'
    cases hf : f row with
    | none =>
      rw [filterMap_cons_none hf] at h
      refine .inr ⟨?_, ih hmay.2 hcovers.2 h⟩
      rw [← Bool.not_eq_true]
      intro hcovered
      obtain ⟨row', hf', -⟩ := hcovers.1 hcovered
      rw [hf] at hf'
      cases hf'
    | some row' =>
      rw [filterMap_cons_some hf] at h
      obtain ⟨harm, htakes⟩ | ⟨hrow', h⟩ := h
      · exact .inl ⟨(hmay.1 row' hf).1.symm.trans harm, (hmay.1 row' hf).2 htakes⟩
      · exact .inr ⟨hkeeps row' hf hrow', ih hmay.2 hcovers.2 h⟩

/-- Rows of one arm, all guarded or none: the values reach it there when some row of
them may take the values, and pass them when none covers. -/
theorem reaches_block {block rows : List ArmRow} (hblock : ∀ r ∈ block, r.arm = row.arm)
    (hmay : (∃ r ∈ block, r.mayTake vs = true) ↔ row.mayTake vs = true)
    (hcovers : (∃ r ∈ block, r.covers vs = true) ↔ row.covers vs = true) :
    Reaches vs arm (block ++ rows) ↔ Reaches vs arm (row :: rows) := by
  rw [reaches_append, Reaches]
  have hnone : (∀ r ∈ block, r.covers vs = false) ↔ row.covers vs = false := by
    rw [← Bool.not_eq_true (row.covers vs), ← hcovers]
    simp only [not_exists, not_and, Bool.not_eq_true]
  rw [hnone]
  refine or_congr_left ?_
  rw [reaches_iff]
  constructor
  · rintro ⟨before, r, after, rfl, harm, htakes, -⟩
    have hr : r ∈ before ++ r :: after := mem_append_right _ (mem_cons_self)
    exact ⟨(hblock r hr).symm.trans harm, hmay.mp ⟨r, hr, htakes⟩⟩
  · rintro ⟨harm, htakes⟩
    have hsome : ∃ r ∈ block, r.mayTake vs = true := hmay.mpr htakes
    -- the first row that may take the values: none ahead of it even may
    obtain ⟨before, r, after, rfl, htaken, hbefore⟩ :
        ∃ before r after, block = before ++ r :: after ∧ r.mayTake vs = true ∧
          ∀ b ∈ before, ¬ b.mayTake vs = true := by
      obtain ⟨r, hr⟩ := Option.isSome_iff_exists.mp (List.find?_isSome.mpr hsome)
      obtain ⟨htaken, before, after, rfl, hbefore⟩ := List.find?_eq_some_iff_append.mp hr
      refine ⟨before, r, after, rfl, htaken, fun b hb => ?_⟩
      rw [(Bool.not_eq_true' _).mp (hbefore b hb)]
      exact Bool.false_ne_true
    refine ⟨before, r, after, rfl, ?_, htaken, fun b hb => ?_⟩
    · exact (hblock r (mem_append_right _ mem_cons_self)).trans harm
    · rw [← Bool.not_eq_true]
      exact fun hcovered => hbefore b hb (ArmRow.mayTake_of_covers hcovered)

end Reaches

section Expand

mutual

theorem mem_pushExpanded {row r : ArmRow} {rest : List Pat} : ∀ {head : Pat},
    r ∈ pushExpanded row rest head → r.arm = row.arm ∧ r.guardless = row.guardless
  | .or alternatives, h => by
    rw [pushExpanded] at h
    exact mem_pushAlternatives h
  | .wild, h => by obtain rfl := mem_singleton.mp h; exact ⟨rfl, rfl⟩
  | .case _ _ _, h => by obtain rfl := mem_singleton.mp h; exact ⟨rfl, rfl⟩
  | .bool _, h => by obtain rfl := mem_singleton.mp h; exact ⟨rfl, rfl⟩
  | .int _ _ _, h => by obtain rfl := mem_singleton.mp h; exact ⟨rfl, rfl⟩
  | .product _, h => by obtain rfl := mem_singleton.mp h; exact ⟨rfl, rfl⟩
  | .narrow _, h => by obtain rfl := mem_singleton.mp h; exact ⟨rfl, rfl⟩
  | .opaqueValue, h => by obtain rfl := mem_singleton.mp h; exact ⟨rfl, rfl⟩

theorem mem_pushAlternatives {row r : ArmRow} {rest : List Pat} : ∀ {alternatives : List Pat},
    r ∈ pushAlternatives row rest alternatives → r.arm = row.arm ∧ r.guardless = row.guardless
  | [], h => absurd h not_mem_nil
  | _ :: _, h => by
    rw [pushAlternatives, mem_append] at h
    exact h.elim mem_pushExpanded mem_pushAlternatives

end

mutual

theorem takesAll_pushExpanded {atom : Bool} {row : ArmRow} {rest : List Pat} {v : Value}
    {vs : List Value} : ∀ {head : Pat},
    (∃ r ∈ pushExpanded row rest head, takesAll atom r.pats (v :: vs) = true) ↔
      takesAll atom (head :: rest) (v :: vs) = true
  | .or alternatives => by
    rw [pushExpanded, takesAll_pushAlternatives, takesAll, takes]
  | .wild => by simp only [pushExpanded, mem_singleton, exists_eq_left, ArmRow.withPats_pats]
  | .case _ _ _ => by
    simp only [pushExpanded, mem_singleton, exists_eq_left, ArmRow.withPats_pats]
  | .bool _ => by
    simp only [pushExpanded, mem_singleton, exists_eq_left, ArmRow.withPats_pats]
  | .int _ _ _ => by
    simp only [pushExpanded, mem_singleton, exists_eq_left, ArmRow.withPats_pats]
  | .product _ => by
    simp only [pushExpanded, mem_singleton, exists_eq_left, ArmRow.withPats_pats]
  | .narrow _ => by
    simp only [pushExpanded, mem_singleton, exists_eq_left, ArmRow.withPats_pats]
  | .opaqueValue => by
    simp only [pushExpanded, mem_singleton, exists_eq_left, ArmRow.withPats_pats]

theorem takesAll_pushAlternatives {atom : Bool} {row : ArmRow} {rest : List Pat} {v : Value}
    {vs : List Value} : ∀ {alternatives : List Pat},
    (∃ r ∈ pushAlternatives row rest alternatives, takesAll atom r.pats (v :: vs) = true) ↔
      (takesAny atom alternatives v && takesAll atom rest vs) = true
  | [] => by simp only [pushAlternatives, not_mem_nil, false_and, exists_false, takesAny,
      Bool.false_and, Bool.false_eq_true]
  | alternative :: alternatives => by
    have hhead := @takesAll_pushExpanded atom row rest v vs alternative
    have htail := @takesAll_pushAlternatives atom row rest v vs alternatives
    rw [takesAll] at hhead
    rw [pushAlternatives, takesAny, Bool.and_or_distrib_right, Bool.or_eq_true, ← hhead, ← htail]
    simp only [mem_append, or_and_right, exists_or]

end

theorem mem_expandRow {row r : ArmRow} (h : r ∈ expandRow row) :
    r.arm = row.arm ∧ r.guardless = row.guardless := by
  unfold expandRow at h
  split at h
  · obtain rfl := mem_singleton.mp h
    exact ⟨rfl, rfl⟩
  · exact mem_pushExpanded h

theorem takesAll_expandRow {atom : Bool} {row : ArmRow} {vs : List Value}
    (h : row.pats ≠ [] → vs ≠ []) :
    (∃ r ∈ expandRow row, takesAll atom r.pats vs = true) ↔ takesAll atom row.pats vs = true := by
  obtain ⟨pats, arm, guardless⟩ := row
  cases pats with
  | nil => simp only [expandRow, mem_singleton, exists_eq_left]
  | cons head rest =>
    cases vs with
    | nil => exact absurd rfl (h (cons_ne_nil _ _))
    | cons v vs => exact takesAll_pushExpanded

/-- Expanding the or-patterns changes nothing about what the values reach. -/
theorem reaches_expandOr {v : Value} {arm : Nat} (rows : List ArmRow) :
    Reaches (v :: vs) arm (expandOr rows) ↔ Reaches (v :: vs) arm rows := by
  induction rows with
  | nil => exact Iff.rfl
  | cons row rows ih =>
    have htakes := fun atom =>
      @takesAll_expandRow atom row (v :: vs) fun _ => cons_ne_nil _ _
    rw [expandOr, flatMap_cons, ← expandOr, reaches_block
      (fun r hr => (mem_expandRow hr).1) (htakes true), Reaches, Reaches, ih]
    rw [ArmRow.covers, Bool.and_eq_true, ← htakes false]
    constructor
    · rintro ⟨r, hr, hcovers⟩
      rw [ArmRow.covers, Bool.and_eq_true, (mem_expandRow hr).2] at hcovers
      exact ⟨hcovers.1, r, hr, hcovers.2⟩
    · rintro ⟨hguardless, r, hr, htaken⟩
      refine ⟨r, hr, ?_⟩
      rw [ArmRow.covers, Bool.and_eq_true, (mem_expandRow hr).2]
      exact ⟨hguardless, htaken⟩

end Expand

end Wado.Exhaustive
