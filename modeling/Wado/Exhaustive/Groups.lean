/-
What the values reach in a column and in the groups the column splits into: the rows
expanded, specialized to the constructor of a value, or split by value where the
column is open.
-/
import Wado.Exhaustive.Split

namespace Wado.Exhaustive

open List Option

variable {τ : Type} {shape : τ → Shape τ}

section Columns

variable {t : τ} {ts : List τ} {v : Value} {vs args : List Value} {arm : Nat}
  {rows : List ArmRow}

theorem FitsEach.mem {alternatives : List Pat} (h : FitsEach shape alternatives t) {p : Pat}
    (hp : p ∈ alternatives) : Fits shape p t := by
  induction alternatives with
  | nil => cases hp
  | cons q alternatives ih =>
    cases h with
    | cons head tail =>
      rcases mem_cons.mp hp with rfl | hp
      · exact head
      · exact ih tail hp

theorem closedAll_iff {ps : List Pat} : closedAll ps = true ↔ ∀ p ∈ ps, p.closed = true := by
  induction ps with
  | nil => simp only [closedAll, not_mem_nil, false_imp_iff, implies_true]
  | cons p ps ih => rw [closedAll, Bool.and_eq_true, ih, forall_mem_cons]

mutual

/-- Each row a head expands to stands for one of its alternatives. -/
theorem pats_pushExpanded {row r : ArmRow} {rest : List Pat} : ∀ {head : Pat},
    r ∈ pushExpanded row rest head →
      ∃ p, r.pats = p :: rest ∧ p.isOr = false ∧ (Fits shape head t → Fits shape p t) ∧
        (head.closed = true → p.closed = true)
  | .or alternatives, h => by
    rw [pushExpanded] at h
    obtain ⟨q, hq, p, hpats, hor, hfits, hclosed⟩ := pats_pushAlternatives h
    refine ⟨p, hpats, hor, fun hhead => ?_, fun hhead => ?_⟩
    · cases hhead with
      | or halternatives => exact hfits (halternatives.mem hq)
    · rw [Pat.closed] at hhead
      exact hclosed (closedAll_iff.mp hhead q hq)
  | .wild, h => by obtain rfl := mem_singleton.mp h; exact ⟨_, rfl, rfl, id, id⟩
  | .case _ _ _, h => by obtain rfl := mem_singleton.mp h; exact ⟨_, rfl, rfl, id, id⟩
  | .bool _, h => by obtain rfl := mem_singleton.mp h; exact ⟨_, rfl, rfl, id, id⟩
  | .int _ _ _, h => by obtain rfl := mem_singleton.mp h; exact ⟨_, rfl, rfl, id, id⟩
  | .product _, h => by obtain rfl := mem_singleton.mp h; exact ⟨_, rfl, rfl, id, id⟩
  | .narrow _, h => by obtain rfl := mem_singleton.mp h; exact ⟨_, rfl, rfl, id, id⟩
  | .opaqueValue, h => by obtain rfl := mem_singleton.mp h; exact ⟨_, rfl, rfl, id, id⟩

theorem pats_pushAlternatives {row r : ArmRow} {rest : List Pat} : ∀ {alternatives : List Pat},
    r ∈ pushAlternatives row rest alternatives →
      ∃ q ∈ alternatives, ∃ p, r.pats = p :: rest ∧ p.isOr = false ∧
        (Fits shape q t → Fits shape p t) ∧ (q.closed = true → p.closed = true)
  | alternative :: alternatives, h => by
    rw [pushAlternatives, mem_append] at h
    rcases h with h | h
    · exact ⟨alternative, mem_cons_self, pats_pushExpanded h⟩
    · obtain ⟨q, hq, hrest⟩ := pats_pushAlternatives h
      exact ⟨q, mem_cons_of_mem _ hq, hrest⟩

end

theorem expanded_expandOr (hfits : ∀ row ∈ rows, FitsAll shape row.pats (t :: ts)) :
    Expanded shape (expandOr rows) t ts := by
  have hrow : ∀ r ∈ expandOr rows, ∃ p rest, r.pats = p :: rest ∧ p.isOr = false ∧
      Fits shape p t ∧ FitsAll shape rest ts := by
    intro r hr
    obtain ⟨row, hrow, hr⟩ := mem_flatMap.mp hr
    have hrowFits := hfits row hrow
    obtain ⟨pats, arm, guardless⟩ := row
    cases hrowFits with
    | cons head tail =>
      obtain ⟨p, hpats, hor, hp, -⟩ := pats_pushExpanded hr
      exact ⟨p, _, hpats, hor, hp head, tail⟩
  constructor
  · intro r hr
    obtain ⟨p, rest, hpats, -, hp, hrest⟩ := hrow r hr
    rw [hpats]
    exact .cons hp hrest
  · intro r hr
    obtain ⟨p, rest, hpats, hor, -⟩ := hrow r hr
    rw [ArmRow.head, hpats, headD_cons]
    exact hor

theorem closedAll_expandOr (hclosed : ∀ row ∈ rows, closedAll row.pats = true) :
    ∀ r ∈ expandOr rows, closedAll r.pats = true := by
  intro r hr
  obtain ⟨row, hrow, hr⟩ := mem_flatMap.mp hr
  have hrowClosed := hclosed row hrow
  obtain ⟨pats, arm, guardless⟩ := row
  cases pats with
  | nil =>
    obtain rfl := mem_singleton.mp hr
    exact hrowClosed
  | cons head rest =>
    rw [closedAll, Bool.and_eq_true] at hrowClosed
    obtain ⟨p, hpats, -, -, hp⟩ := @pats_pushExpanded Unit (fun _ => .bool) () _ _ _ _ hr
    rw [hpats, closedAll, Bool.and_eq_true]
    exact ⟨hp hrowClosed.1, hrowClosed.2⟩

theorem eq_opaqueValue {p : Pat} (h : p.isOpaque = true) : p = .opaqueValue := by
  cases p <;> first | rfl | cases h

theorem eq_wild {p : Pat} (h : p.isWild = true) : p = .wild := by
  cases p <;> first | rfl | cases h

variable {ctors : List Ctor} {position : Nat} {ctor : Ctor} {row : ArmRow} {rest : List Pat}

theorem specializeAt_opaqueValue (h : row.pats = .opaqueValue :: rest) :
    specializeAt ctors position ctor row = some (row.guarded (wilds ctor.arity ++ rest)) := by
  rw [specializeAt, h]

theorem specializeAt_named {head : Pat} (h : row.pats = head :: rest)
    (hOpq : head.isOpaque = false) :
    specializeAt ctors position ctor row =
      if (reach head ctors).1 ≤ position ∧ position < (reach head ctors).2 then
        (specializeRow head rest ctor).map row.withPats
      else none := by
  cases head with
  | opaqueValue => cases hOpq
  | _ => rw [specializeAt, h]

/-- In order, a row goes on to a constructor's group as its head, specialized, does. -/
theorem specializeAt_eq {head : Pat} (horder : InOrder ctors) (hctor : ctors[position]? = some ctor)
    (hpiece : ctor.piece.1 ≤ ctor.piece.2) (h : row.pats = head :: rest)
    (hOpq : head.isOpaque = false) :
    specializeAt ctors position ctor row = (specializeRow head rest ctor).map row.withPats := by
  rw [specializeAt_named h hOpq]
  split
  · rfl
  · rename_i hreach
    cases hspecialize : specializeRow head rest ctor with
    | none => rfl
    | some pats => exact absurd (reach_of_specializeRow horder hctor hpiece hspecialize) hreach

/-- A row goes on under its own arm, behind a guard where only the run can tell. -/
theorem specializeAt_kept {row row' : ArmRow}
    (h : specializeAt ctors position ctor row = some row') :
    row'.arm = row.arm ∧ row'.guardless = (row.guardless && !row.head.isOpaque) := by
  obtain ⟨pats, arm, guardless⟩ := row
  cases pats with
  | nil => cases h
  | cons head rest =>
    cases hOpq : head.isOpaque with
    | true =>
      obtain rfl := eq_opaqueValue hOpq
      obtain rfl := Option.some.inj ((specializeAt_opaqueValue rfl).symm.trans h)
      exact ⟨rfl, (Bool.and_false _).symm⟩
    | false =>
      rw [specializeAt_named rfl hOpq] at h
      split at h
      · obtain ⟨pats, -, rfl⟩ := map_eq_some_iff.mp h
        exact ⟨rfl, by rw [ArmRow.head, headD_cons, hOpq]; exact (Bool.and_true _).symm⟩
      · cases h

section Group

variable {ctors : List Ctor} {position : Nat} {ctor : Ctor} {argTs : List τ}

/-- A row whose head is told before the run takes a value the constructor builds as
the row it goes on to takes the arguments. -/
theorem specializeAt_takes (hexpanded : Expanded shape rows t ts)
    (hcolumn : Column shape rows t ctors) (hctor : ctors[position]? = some ctor)
    (hof : ctor.Of shape t argTs) (hargs : HasTypes shape args argTs)
    (hbuilds : Builds ctor args v) {row : ArmRow} (hrow : row ∈ rows)
    (hOpq : row.head.isOpaque = false) (atom : Bool) :
    takesAll atom row.pats (v :: vs) = true ↔
      ∃ row', specializeAt ctors position ctor row = some row' ∧
        takesAll atom row'.pats (args ++ vs) = true := by
  obtain ⟨head, rest, hpats, hhead, hfits, -, hor⟩ := hexpanded.head hrow
  have huncut := hcolumn.uncut ctor (mem_of_getElem? hctor) row hrow
  rw [hhead] at hOpq huncut
  rw [hpats, takesAll_specializeRow hof hargs hbuilds hfits hOpq hor huncut,
    specializeAt_eq hcolumn.inOrder hctor hof.piece_le hpats hOpq]
  constructor
  · rintro ⟨pats, hspecialize, htakes⟩
    refine ⟨row.withPats pats, ?_, htakes⟩
    rw [hspecialize, map_some]
  · rintro ⟨row', hmap, htakes⟩
    obtain ⟨pats, hspecialize, rfl⟩ := map_eq_some_iff.mp hmap
    exact ⟨pats, hspecialize, htakes⟩

/-- What the values reach in the column, the arguments reach in the group of the
constructor that builds the head from them. -/
theorem Reaches.specialize (hexpanded : Expanded shape rows t ts)
    (hcolumn : Column shape rows t ctors) (hctor : ctors[position]? = some ctor)
    (hof : ctor.Of shape t argTs) (hargs : HasTypes shape args argTs)
    (hbuilds : Builds ctor args v) (h : Reaches (v :: vs) arm rows) :
    Reaches (args ++ vs) arm (rows.filterMap (specializeAt ctors position ctor)) := by
  have htakes := fun row hrow => @specializeAt_takes τ shape t ts v vs args rows ctors position
    ctor argTs hexpanded hcolumn hctor hof hargs hbuilds row hrow
  refine h.filterMap (fun row hrow hmay => ?_) fun row hrow row' hrow' hcovers => ?_
  · cases hOpq : row.head.isOpaque with
    | false =>
      obtain ⟨row', hrow', hmay'⟩ := (htakes row hrow hOpq true).mp hmay
      exact ⟨row', hrow', (specializeAt_kept hrow').1, hmay'⟩
    | true =>
      have hlength : args.length = ctor.arity := hargs.length.trans hof.arity_eq.symm
      obtain ⟨head, rest, hpats, hhead, -⟩ := hexpanded.head hrow
      obtain rfl := eq_opaqueValue (hhead ▸ hOpq)
      refine ⟨_, specializeAt_opaqueValue hpats, rfl, ?_⟩
      rw [ArmRow.mayTake, hpats, takesAll, Bool.and_eq_true] at hmay
      rw [ArmRow.mayTake, ArmRow.guarded_pats,
        takesAll_append (by rw [wilds, length_replicate, hlength]),
        takesAll_wilds hlength, hmay.2, Bool.and_self]
  · rw [ArmRow.covers, Bool.and_eq_true, (specializeAt_kept hrow').2, Bool.and_eq_true,
      Bool.not_eq_true'] at hcovers
    rw [ArmRow.covers, Bool.and_eq_true]
    exact ⟨hcovers.1.1, (htakes row hrow hcovers.1.2 false).mpr ⟨row', hrow', hcovers.2⟩⟩

/-- On rows told before the run, and back. -/
theorem Reaches.of_specialize (hexpanded : Expanded shape rows t ts)
    (hcolumn : Column shape rows t ctors) (hctor : ctors[position]? = some ctor)
    (hof : ctor.Of shape t argTs) (hargs : HasTypes shape args argTs)
    (hbuilds : Builds ctor args v) (hOpq : ∀ row ∈ rows, row.head.isOpaque = false)
    (h : Reaches (args ++ vs) arm (rows.filterMap (specializeAt ctors position ctor))) :
    Reaches (v :: vs) arm rows := by
  have htakes := fun row hrow => @specializeAt_takes τ shape t ts v vs args rows ctors position
    ctor argTs hexpanded hcolumn hctor hof hargs hbuilds row hrow (hOpq row hrow)
  refine h.of_filterMap (fun row hrow row' hrow' => ?_) fun row hrow hcovers => ?_
  · exact ⟨(specializeAt_kept hrow').1, fun hmay => (htakes row hrow true).mpr ⟨row', hrow', hmay⟩⟩
  · rw [ArmRow.covers, Bool.and_eq_true] at hcovers
    obtain ⟨row', hrow', hcovered⟩ := (htakes row hrow false).mp hcovers.2
    refine ⟨row', hrow', ?_⟩
    rw [ArmRow.covers, (specializeAt_kept hrow').2, hcovers.1, hOpq row hrow, hcovered]
    rfl

end Group

section OpenColumn

section

variable (hpats : row.pats ≠ [])
include hpats

theorem tail_mayTake (h : row.mayTake (v :: vs) = true) : row.tail.mayTake vs = true := by
  obtain ⟨pats, rowArm, guardless⟩ := row
  cases pats with
  | nil => exact absurd rfl hpats
  | cons head rest =>
    rw [ArmRow.mayTake, takesAll, Bool.and_eq_true] at h
    exact h.2

/-- A wildcard row takes a value as what is left of it takes the rest. -/
theorem takesAll_tail (hwild : row.head.isWild = true)
    (atom : Bool) : takesAll atom row.pats (v :: vs) = takesAll atom row.tail.pats vs := by
  obtain ⟨pats, rowArm, guardless⟩ := row
  cases pats with
  | nil => exact absurd rfl hpats
  | cons head rest =>
    obtain rfl := eq_wild hwild
    rw [takesAll, takes, Bool.true_and]
    rfl

theorem covers_tail (hwild : row.head.isWild = true) :
    row.tail.covers vs = row.covers (v :: vs) := by
  rw [ArmRow.covers, ArmRow.covers, takesAll_tail hpats hwild]
  rfl

end

/-- The wildcard rows ahead of a row cover no more of the columns left. -/
theorem wilds_ahead {before : List ArmRow} (hpats : ∀ row ∈ before, row.pats ≠ [])
    (h : ∀ r ∈ before, r.covers (v :: vs) = false) :
    ∀ r ∈ (before.filter (·.head.isWild)).map (·.tail), r.covers vs = false := by
  intro r hr
  obtain ⟨row, hrow, rfl⟩ := mem_map.mp hr
  obtain ⟨hmem, hwild⟩ := mem_filter.mp hrow
  rw [covers_tail (hpats row hmem) hwild]
  exact h row hmem

section

variable (hpats : ∀ row ∈ rows, row.pats ≠ [])
include hpats

/-- What the values reach in an open column, they reach in one of its groups. -/
theorem Reaches.openGroups
    (h : Reaches (v :: vs) arm rows) : ∃ group ∈ openGroups rows, Reaches vs arm group := by
  obtain ⟨before, row, after, rfl, harm, hmay, hbefore⟩ := reaches_iff.mp h
  have hrow : row ∈ before ++ row :: after := mem_append_right _ mem_cons_self
  have hahead := wilds_ahead (fun r hr => hpats r (mem_append_left _ hr)) hbefore
  have hmay' := tail_mayTake (hpats row hrow) hmay
  cases hwild : row.head.isWild with
  | true =>
    refine ⟨_, mem_openGroups.mpr (.inr rfl), reaches_iff.mpr
      ⟨_, row.tail, defaultRows after, ?_, harm, hmay', hahead⟩⟩
    rw [defaultRows, defaultRows, filter_append, filter_cons, if_pos hwild,
      map_append, map_cons]
  | false =>
    refine ⟨_, mem_openGroups.mpr (.inl ⟨before, row, after, rfl, hwild, rfl⟩), reaches_iff.mpr
      ⟨_, row.tail, (after.filter (·.head.isWild)).map (·.tail), ?_, harm, hmay', hahead⟩⟩
    rw [map_append, map_cons]

/-- A column of wildcards alone is passed by every value. -/
theorem Reaches.of_wilds
    (hwild : ∀ row ∈ rows, row.head.isWild = true) (h : Reaches vs arm (defaultRows rows)) :
    Reaches (v :: vs) arm rows := by
  rw [defaultRows, filter_eq_self.mpr hwild, ← filterMap_eq_map] at h
  refine h.of_filterMap (fun row hrow row' hrow' => ?_) fun row hrow hcovers => ?_
  · obtain rfl := Option.some.inj hrow'
    refine ⟨rfl, fun hmay => ?_⟩
    rw [ArmRow.mayTake, takesAll_tail (hpats row hrow) (hwild row hrow)]
    exact hmay
  · exact ⟨row.tail, rfl, by rw [covers_tail (hpats row hrow) (hwild row hrow)]; exact hcovers⟩

end

end OpenColumn

end Columns

end Wado.Exhaustive
