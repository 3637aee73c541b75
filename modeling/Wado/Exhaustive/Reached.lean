/-
Which arms are marked: every arm some value reaches, and on closed patterns over a type
that has a value, only those.
-/
import Wado.Exhaustive.Groups

namespace Wado.Exhaustive

open List

variable {τ : Type} {shape : τ → Shape τ}

variable {rows : List ArmRow} {reached : List Bool}

section Marks

variable {arm : Nat}

/-- Marking keeps the marks there are. -/
theorem markLeaf_keeps
    (h : reached[arm]? = some true) : (markLeaf rows reached)[arm]? = some true := by
  induction rows generalizing reached with
  | nil => exact h
  | cons row rows ih =>
    have hset : (reached.set row.arm true)[arm]? = some true := by
      rw [List.getElem?_set]
      split
      · rename_i heq
        subst heq
        rw [if_pos (List.getElem?_eq_some_iff.mp h).1]
      · exact h
    rw [markLeaf]
    split
    · exact hset
    · exact ih hset

variable {groups : List (List ArmRow)}

theorem foldl_keeps (hkeeps : ∀ group ∈ groups, ∀ reached : List Bool, reached[arm]? = some true →
      (markReached group reached)[arm]? = some true)
    (h : reached[arm]? = some true) :
    (groups.foldl (fun reached group => markReached group reached) reached)[arm]? = some true := by
  induction groups generalizing reached with
  | nil => exact h
  | cons group groups ih =>
    rw [forall_mem_cons] at hkeeps
    exact ih hkeeps.2 (hkeeps.1 reached h)

theorem markReached_keeps (rows : List ArmRow) : ∀ reached : List Bool,
    reached[arm]? = some true → (markReached rows reached)[arm]? = some true := by
  induction rows using matrix_induction with
  | nil =>
    intro reached h
    rwa [markReached]
  | leaf first rest hfirst =>
    intro reached h
    rw [markReached_leaf hfirst]
    exact markLeaf_keeps h
  | split first rest hfirst ih =>
    intro reached h
    rw [markReached_groups hfirst]
    exact foldl_keeps ih h

theorem markReached_length (rows : List ArmRow) : ∀ reached : List Bool,
    (markReached rows reached).length = reached.length := by
  induction rows using matrix_induction with
  | nil =>
    intro reached
    rw [markReached]
  | leaf first rest hfirst =>
    intro reached
    rw [markReached_leaf hfirst, markLeaf_length]
  | split first rest hfirst ih =>
    intro reached
    rw [markReached_groups hfirst]
    generalize groups (expandOr (first :: rest)) = groups at ih
    induction groups generalizing reached with
    | nil => rfl
    | cons group groups ihGroups =>
      rw [forall_mem_cons] at ih
      rw [foldl_cons, ihGroups _ ih.2, ih.1]

/-- A group that marks the arm marks it whatever the other groups mark. -/
theorem foldl_marks {group : List ArmRow} (hmem : group ∈ groups) (harm : arm < reached.length)
    (hmarks : ∀ reached : List Bool, arm < reached.length →
      (markReached group reached)[arm]? = some true) :
    (groups.foldl (fun reached group => markReached group reached) reached)[arm]? = some true := by
  induction groups generalizing reached with
  | nil => cases hmem
  | cons g groups ih =>
    rw [foldl_cons]
    rcases mem_cons.mp hmem with rfl | hmem
    · exact foldl_keeps (fun _ _ => markReached_keeps _) (hmarks reached harm)
    · exact ih hmem (by rwa [markReached_length])

/-- A mark the groups leave was there, or one of them made it. -/
theorem exists_of_foldl
    (h : (groups.foldl (fun reached group => markReached group reached) reached)[arm]? =
      some true) :
    reached[arm]? = some true ∨ ∃ group ∈ groups, ∃ reached : List Bool,
      reached[arm]? ≠ some true ∧ (markReached group reached)[arm]? = some true := by
  induction groups generalizing reached with
  | nil => exact .inl h
  | cons group groups ih =>
    rw [foldl_cons] at h
    by_cases hreached : reached[arm]? = some true
    · exact .inl hreached
    · right
      obtain hmark | ⟨g, hg, hmarks⟩ := ih h
      · exact ⟨group, mem_cons_self, reached, hreached, hmark⟩
      · exact ⟨g, mem_cons_of_mem _ hg, hmarks⟩

end Marks

variable {row : ArmRow}

section Leaf

variable {arm : Nat} {rows : List ArmRow}

theorem takesAll_nil (h : row.pats = []) (atom : Bool) :
    takesAll atom row.pats [] = true := by
  rw [h]
  rfl

/-- With no column left, the arms marked are those reached. -/
theorem markLeaf_iff (hrows : ∀ row ∈ rows, row.pats = []) (harm : arm < reached.length) :
    (markLeaf rows reached)[arm]? = some true ↔
      reached[arm]? = some true ∨ Reaches [] arm rows := by
  induction rows generalizing reached with
  | nil => simp only [markLeaf, Reaches, or_false]
  | cons row rows ih =>
    rw [forall_mem_cons] at hrows
    have hmay : row.mayTake [] = true := takesAll_nil hrows.1 true
    have hcovers : row.covers [] = row.guardless := by
      rw [ArmRow.covers, takesAll_nil hrows.1, Bool.and_true]
    have hset : (reached.set row.arm true)[arm]? = some true ↔
        reached[arm]? = some true ∨ row.arm = arm := by
      rw [List.getElem?_set]
      split
      · rename_i heq
        simp only [heq, harm, if_true, or_true]
      · rename_i hne
        simp only [hne, or_false]
    rw [markLeaf, Reaches, hcovers]
    split
    · rename_i hguardless
      rw [hset, hguardless]
      simp only [hmay, and_true, Bool.true_eq_false, false_and, or_false]
    · rename_i hguardless
      rw [ih hrows.2 (by rwa [length_set]), hset, (Bool.not_eq_true _).mp hguardless]
      simp only [hmay, and_true, true_and, or_assoc]

end Leaf

variable {ts : List τ} {t : τ}

variable {ctors : List Ctor} {position : Nat}

section Sound

variable {arm : Nat}

variable {pats : List Pat}

theorem FitsAll.of_nil (h : FitsAll shape pats ts) (hpats : pats = []) : ts = [] := by
  subst hpats
  cases h
  rfl

theorem FitsAll.ne_nil (h : FitsAll shape pats (t :: ts)) :
    pats ≠ [] := by
  cases h
  exact cons_ne_nil _ _

/-- Every group of a column fits the columns it goes on with. -/
theorem fits_specialize {ts argTs : List τ} {ctor : Ctor} (hexpanded : Expanded shape rows t ts)
    (hof : ctor.Of shape t argTs) :
    ∀ row' ∈ rows.filterMap (specializeAt ctors position ctor),
      FitsAll shape row'.pats (argTs ++ ts) := by
  intro row' hrow'
  obtain ⟨row, hrow, hspecialize⟩ := mem_filterMap.mp hrow'
  obtain ⟨head, rest, hpats, hhead, hfits, hrest, -⟩ := hexpanded.head hrow
  cases hOpq : head.isOpaque with
  | true =>
    obtain rfl := eq_opaqueValue hOpq
    obtain rfl := Option.some.inj ((specializeAt_opaqueValue hpats).symm.trans hspecialize)
    rw [ArmRow.guarded_pats, hof.arity_eq]
    exact (FitsAll.wilds argTs).append hrest
  | false =>
    rw [specializeAt_named hpats hOpq] at hspecialize
    split at hspecialize
    · obtain ⟨pats, hpats', rfl⟩ := Option.map_eq_some_iff.mp hspecialize
      exact fitsAll_specializeRow hof hfits hrest hpats'
    · cases hspecialize

theorem fits_tail (hexpanded : Expanded shape rows t ts)
    (hrow : row ∈ rows) : FitsAll shape row.tail.pats ts := by
  obtain ⟨head, rest, hpats, -, -, hrest, -⟩ := hexpanded.head hrow
  rw [ArmRow.tail, ArmRow.withPats_pats, hpats]
  exact hrest

theorem fits_openGroups {rows group : List ArmRow}
    (hexpanded : Expanded shape rows t ts) (hgroup : group ∈ openGroups rows) :
    ∀ row' ∈ group, FitsAll shape row'.pats ts := by
  obtain ⟨before, row, after, rfl, hwild, rfl⟩ | rfl := mem_openGroups.mp hgroup
  · intro row' hrow'
    obtain ⟨r, hr, rfl⟩ := mem_map.mp hrow'
    refine fits_tail hexpanded ?_
    rw [mem_append, mem_cons] at hr ⊢
    rcases hr with hr | rfl | hr
    · exact .inl (mem_of_mem_filter hr)
    · exact .inr (.inl rfl)
    · exact .inr (.inr (mem_of_mem_filter hr))
  · intro row' hrow'
    obtain ⟨r, hr, rfl⟩ := mem_map.mp hrow'
    exact fits_tail hexpanded (mem_of_mem_filter hr)

/-- Every arm typed values reach is marked. -/
theorem marks_of_reaches (rows : List ArmRow) : ∀ (ts : List τ) (vs : List Value)
    (reached : List Bool), (∀ row ∈ rows, FitsAll shape row.pats ts) → HasTypes shape vs ts →
      arm < reached.length → Reaches vs arm rows →
        (markReached rows reached)[arm]? = some true := by
  induction rows using matrix_induction with
  | nil =>
    intro ts vs reached _ _ _ h
    exact h.elim
  | leaf first rest hfirst =>
    intro ts vs reached hfits hvs harm h
    obtain rfl := (hfits first mem_cons_self).of_nil hfirst
    cases hvs
    have hrows : ∀ row ∈ first :: rest, row.pats = [] := fun row hrow =>
      length_eq_zero_iff.mp (hfits row hrow).length
    rw [markReached_leaf hfirst]
    exact (markLeaf_iff hrows harm).mpr (.inr h)
  | split first rest hfirst ih =>
    intro ts vs reached hfits hvs harm h
    cases hvs with
    | nil =>
      have hnil := length_eq_zero_iff.mp (hfits first mem_cons_self).length
      exact absurd hnil hfirst
    | @cons v t vs ts hv hvs =>
      have hexpanded := expanded_expandOr hfits
      have hpats : ∀ row ∈ expandOr (first :: rest), row.pats ≠ [] :=
        fun row hrow => (hexpanded.fits row hrow).ne_nil
      have hreaches := (reaches_expandOr (first :: rest)).mpr h
      rw [markReached_groups hfirst]
      cases hsignature : signature (expandOr (first :: rest)) with
      | some ctors =>
        have hcolumn := column_of_signature hexpanded hsignature
        obtain ⟨ctor, hctor, args, argTs, hof, hargs, hbuilds⟩ := hcolumn.built v hv
        obtain ⟨position, hlt, hposition⟩ := getElem_of_mem hctor
        have hposition' := List.getElem?_eq_some_iff.mpr ⟨hlt, hposition⟩
        have hgroup : (expandOr (first :: rest)).filterMap
            (specializeAt ctors position ctor) ∈ groups (expandOr (first :: rest)) := by
          rw [groups, hsignature]
          exact mem_specializeEach.mpr ⟨position, ctor, hposition', rfl⟩
        refine foldl_marks hgroup harm fun reached harm => ?_
        exact ih _ hgroup (argTs ++ ts) (args ++ vs) reached
          (fits_specialize hexpanded hof) (hargs.append hvs) harm
          (hreaches.specialize hexpanded hcolumn hposition' hof hargs hbuilds)
      | none =>
        obtain ⟨group, hgroup, hreaches'⟩ := hreaches.openGroups hpats
        have hgroup' : group ∈ groups (expandOr (first :: rest)) := by
          rw [groups, hsignature]
          exact hgroup
        refine foldl_marks hgroup' harm fun reached harm => ?_
        exact ih group hgroup' ts vs reached (fits_openGroups hexpanded hgroup) hvs harm
          hreaches'

end Sound

section Exact

variable {arm : Nat}

theorem closed_specialize {ctor : Ctor} (hclosed : ∀ row ∈ rows, closedAll row.pats = true) :
    ∀ row' ∈ rows.filterMap (specializeAt ctors position ctor), closedAll row'.pats = true := by
  intro row' hrow'
  obtain ⟨row, hrow, hspecialize⟩ := mem_filterMap.mp hrow'
  have hrowClosed := hclosed row hrow
  obtain ⟨pats, rowArm, guardless⟩ := row
  cases pats with
  | nil => cases hspecialize
  | cons head rest =>
    have hOpq : head.isOpaque = false := by
      rw [closedAll, Bool.and_eq_true] at hrowClosed
      cases head <;> first | rfl | cases hrowClosed.1
    rw [specializeAt_named rfl hOpq] at hspecialize
    split at hspecialize
    · obtain ⟨pats, hpats', rfl⟩ := Option.map_eq_some_iff.mp hspecialize
      exact closedAll_specializeRow hrowClosed hpats'
    · cases hspecialize

/-- A closed column that names no constructor is all wildcards. -/
theorem wild_of_signature
    (hexpanded : Expanded shape rows t ts) (hclosed : ∀ row ∈ rows, closedAll row.pats = true)
    (hsignature : signature rows = none) : ∀ row ∈ rows, row.head.isWild = true := by
  have hheads : ∀ row ∈ rows, row.head.closed = true := by
    intro row hrow
    obtain ⟨head, rest, hpats, hhead, -⟩ := hexpanded.head hrow
    have := hclosed row hrow
    rw [hpats, closedAll, Bool.and_eq_true] at this
    rw [hhead]
    exact this.1
  have hOpq : ∀ row ∈ rows, row.head.isOpaque = false := by
    intro row hrow
    have := hheads row hrow
    cases hhead : row.head <;> first | rfl | (rw [hhead] at this; cases this)
  cases hnamed : namedHead rows with
  | none =>
    intro row hrow
    have := List.find?_eq_none.mp hnamed row.head (mem_map_of_mem hrow)
    rw [hOpq row hrow] at this
    simpa only [Bool.or_false, Bool.not_eq_true, Bool.not_eq_false'] using this
  | some head =>
    exfalso
    have hmem := mem_of_find?_eq_some hnamed
    have hsome := List.find?_some hnamed
    obtain ⟨row, hrow, rfl⟩ := mem_map.mp hmem
    have hor := hexpanded.noOr row hrow
    have hrowClosed := hheads row hrow
    rw [signature, hnamed] at hsignature
    generalize row.head = head at hsome hor hrowClosed hsignature
    cases head with
    | wild => cases hsome
    | opaqueValue => cases hsome
    | or _ => cases hor
    | narrow _ => cases hrowClosed
    | int lo hi domain =>
      cases domain with
      | none => cases hrowClosed
      | some d => cases hsignature
    | case _ _ _ => cases hsignature
    | bool _ => cases hsignature
    | product _ => cases hsignature

/-- On closed rows over columns that have values, a mark made is of a row reached. -/
theorem reaches_of_marks (rows : List ArmRow) : ∀ (ts : List τ) (reached : List Bool),
    (∀ row ∈ rows, FitsAll shape row.pats ts) → (∀ row ∈ rows, closedAll row.pats = true) →
      (∃ vs, HasTypes shape vs ts) → reached[arm]? ≠ some true →
        (markReached rows reached)[arm]? = some true →
          ∃ vs, HasTypes shape vs ts ∧ Reaches vs arm rows := by
  induction rows using matrix_induction with
  | nil =>
    intro ts reached _ _ _ hreached h
    rw [markReached] at h
    exact absurd h hreached
  | leaf first rest hfirst =>
    intro ts reached hfits _ _ hreached h
    obtain rfl := (hfits first mem_cons_self).of_nil hfirst
    have hrows : ∀ row ∈ first :: rest, row.pats = [] := fun row hrow =>
      length_eq_zero_iff.mp (hfits row hrow).length
    rw [markReached_leaf hfirst] at h
    have harm : arm < reached.length := by
      rw [← markLeaf_length (first :: rest)]
      exact (List.getElem?_eq_some_iff.mp h).1
    exact ⟨[], .nil, ((markLeaf_iff hrows harm).mp h).resolve_left hreached⟩
  | split first rest hfirst ih =>
    intro ts reached hfits hclosed hinhabited hreached h
    obtain ⟨vs, hvs⟩ := hinhabited
    cases hvs with
    | nil =>
      have hnil := length_eq_zero_iff.mp (hfits first mem_cons_self).length
      exact absurd hnil hfirst
    | @cons v t vs ts hv hvs =>
      have hexpanded := expanded_expandOr hfits
      have hclosed' := closedAll_expandOr hclosed
      have hpats : ∀ row ∈ expandOr (first :: rest), row.pats ≠ [] :=
        fun row hrow => (hexpanded.fits row hrow).ne_nil
      rw [markReached_groups hfirst] at h
      obtain ⟨group, hgroup, reached', hreached', hmarks⟩ :=
        (exists_of_foldl h).resolve_left hreached
      cases hsignature : signature (expandOr (first :: rest)) with
      | some ctors =>
        have hcolumn := column_of_signature hexpanded hsignature
        have hgroup' := hgroup
        rw [groups, hsignature] at hgroup'
        obtain ⟨position, ctor, hposition, rfl⟩ := mem_specializeEach.mp hgroup'
        obtain ⟨argTs, hof⟩ := hcolumn.ofMem ctor (mem_of_getElem? hposition)
        obtain ⟨args, hargs⟩ := hof.inhabited ⟨v, hv⟩
        obtain ⟨ws, hws, hreaches⟩ := ih _ hgroup (argTs ++ ts) reached'
          (fits_specialize hexpanded hof) (closed_specialize hclosed')
          ⟨args ++ vs, hargs.append hvs⟩ hreached' hmarks
        obtain ⟨args', vs', rfl, hargs', hvs'⟩ := hws.split
        obtain ⟨v', hv', hbuilds⟩ := hof.exists_value hargs'
        refine ⟨v' :: vs', .cons hv' hvs', (reaches_expandOr (first :: rest)).mp ?_⟩
        refine Reaches.of_specialize hexpanded hcolumn hposition hof hargs' hbuilds
          (fun row hrow => ?_) hreaches
        obtain ⟨head, rest', hpats', hhead, -⟩ := hexpanded.head hrow
        have hrowClosed := hclosed' row hrow
        rw [hpats', closedAll, Bool.and_eq_true] at hrowClosed
        rw [hhead]
        cases head <;> first | rfl | cases hrowClosed.1
      | none =>
        have hwild := wild_of_signature hexpanded hclosed' hsignature
        have hgroup' := hgroup
        rw [groups, hsignature] at hgroup'
        have hdefault : group = defaultRows (expandOr (first :: rest)) := by
          obtain ⟨before, row, after, hsplit, hnamed, -⟩ | hdefault :=
            mem_openGroups.mp hgroup'
          · have hrow := hwild row
              (hsplit ▸ mem_append_right _ mem_cons_self)
            rw [hnamed] at hrow
            cases hrow
          · exact hdefault
        have hgroupClosed : ∀ row ∈ group, closedAll row.pats = true := by
          intro row' hrow'
          rw [hdefault] at hrow'
          obtain ⟨r, hr, rfl⟩ := mem_map.mp hrow'
          have hrClosed := hclosed' r (mem_of_mem_filter hr)
          obtain ⟨head, rest', hpats', -⟩ := hexpanded.head (mem_of_mem_filter hr)
          rw [hpats', closedAll, Bool.and_eq_true] at hrClosed
          rw [ArmRow.tail, ArmRow.withPats_pats, hpats']
          exact hrClosed.2
        obtain ⟨ws, hws, hreaches⟩ := ih group hgroup ts reached'
          (fits_openGroups hexpanded hgroup') hgroupClosed ⟨vs, hvs⟩ hreached' hmarks
        refine ⟨v :: ws, .cons hv hws, (reaches_expandOr (first :: rest)).mp ?_⟩
        exact Reaches.of_wilds hpats hwild (hdefault ▸ hreaches)

end Exact

section Arms

variable {arms : List (Bool × Pat)} {i : Nat} {v : Value}

theorem getElem?_armRows (j : Nat) :
    (armRows arms)[j]? = arms[j]?.map fun a => ⟨[a.2], j, a.1⟩ := by
  rw [armRows, List.getElem?_mapIdx]

theorem mayTake_armRow (a : Bool × Pat) (j : Nat) :
    (ArmRow.mk [a.2] j a.1).mayTake [v] = takes true a.2 v := by
  rw [ArmRow.mayTake, takesAll, takesAll, Bool.and_true]

theorem covers_armRow (a : Bool × Pat) (j : Nat) :
    (ArmRow.mk [a.2] j a.1).covers [v] = (a.1 && takes false a.2 v) := by
  rw [ArmRow.covers, takesAll, takesAll, Bool.and_true]

/-- A value reaches an arm that may take it when no guardless arm before it is sure to. -/
theorem reaches_armRows : Reaches [v] i (armRows arms) ↔
      ∃ a, arms[i]? = some a ∧ takes true a.2 v = true ∧
        ∀ j < i, ∀ b, arms[j]? = some b → b.1 = true → takes false b.2 v = false := by
  rw [reaches_iff]
  constructor
  · rintro ⟨before, row, after, hsplit, harm, hmay, hbefore⟩
    have hrow : (armRows arms)[before.length]? = some row := by
      rw [hsplit, List.getElem?_append_right (le_refl _), Nat.sub_self, List.getElem?_cons_zero]
    rw [getElem?_armRows, Option.map_eq_some_iff] at hrow
    obtain ⟨a, ha, rfl⟩ := hrow
    obtain rfl : before.length = i := harm
    refine ⟨a, ha, (mayTake_armRow a before.length).symm.trans hmay, fun j hj b hb hguardless => ?_⟩
    have hmem : ArmRow.mk [b.2] j b.1 ∈ before := by
      have hj' : (armRows arms)[j]? = some ⟨[b.2], j, b.1⟩ := by
        rw [getElem?_armRows, hb, Option.map_some]
      rw [hsplit, List.getElem?_append_left hj] at hj'
      exact mem_of_getElem? hj'
    have hcovers := hbefore _ hmem
    rwa [covers_armRow, hguardless, Bool.true_and] at hcovers
  · rintro ⟨a, ha, hmay, hbefore⟩
    have hrow : (armRows arms)[i]? = some ⟨[a.2], i, a.1⟩ := by
      rw [getElem?_armRows, ha, Option.map_some]
    obtain ⟨hlt, hget⟩ := List.getElem?_eq_some_iff.mp hrow
    refine ⟨(armRows arms).take i, ⟨[a.2], i, a.1⟩, (armRows arms).drop (i + 1), ?_, rfl,
      (mayTake_armRow a i).trans hmay, fun r hr => ?_⟩
    · rw [← hget, getElem_cons_drop, take_append_drop]
    · obtain ⟨j, hj⟩ := List.getElem?_of_mem hr
      rw [List.getElem?_take] at hj
      split at hj
      · rename_i hji
        rw [getElem?_armRows, Option.map_eq_some_iff] at hj
        obtain ⟨b, hb, rfl⟩ := hj
        rw [covers_armRow]
        cases hguardless : b.1 with
        | false => rfl
        | true => exact hbefore j hji b hb hguardless
      · cases hj

theorem fits_armRows (hfits : ∀ a ∈ arms, Fits shape a.2 t) :
    ∀ row ∈ armRows arms, FitsAll shape row.pats [t] := by
  intro row hrow
  obtain ⟨j, hlt, rfl⟩ := mem_mapIdx.mp hrow
  exact .cons (hfits _ (getElem_mem hlt)) .nil

theorem closed_armRows (hclosed : ∀ a ∈ arms, a.2.closed = true) :
    ∀ row ∈ armRows arms, closedAll row.pats = true := by
  intro row hrow
  obtain ⟨j, hlt, rfl⟩ := mem_mapIdx.mp hrow
  rw [closedAll, hclosed _ (getElem_mem hlt), closedAll, Bool.and_self]

theorem getElem?_replicate_ne {n : Nat} : (List.replicate n false)[i]? ≠ some true := by
  rw [List.getElem?_replicate]
  split
  · exact fun h => Bool.false_ne_true (Option.some.inj h)
  · exact fun h => nomatch h

/-- An arm not marked takes no value: whatever the run may let it take, a guardless arm
before it is sure to.  On closed patterns over a type that has a value, an arm marked
takes a value that no guardless arm before it does. -/
theorem reachedArms_exact {t : τ} (hfits : ∀ a ∈ arms, Fits shape a.2 t) :
    (∀ (i : Nat) (a : Bool × Pat), arms[i]? = some a → (reachedArms arms)[i]? = some false →
      ∀ v, HasType shape v t → takes true a.2 v = true →
        ∃ j < i, ∃ b, arms[j]? = some b ∧ b.1 = true ∧ takes false b.2 v = true) ∧
    ((∀ a ∈ arms, a.2.closed = true) → Inhabited shape t →
      ∀ (i : Nat) (a : Bool × Pat), arms[i]? = some a → (reachedArms arms)[i]? = some true →
        ∃ v, HasType shape v t ∧ takes true a.2 v = true ∧
          ∀ j < i, ∀ b, arms[j]? = some b → b.1 = true → takes true b.2 v = false) := by
  refine ⟨fun i a ha hmark v hv htakes => ?_, fun hclosed hinhabited i a ha hmark => ?_⟩
  · by_contra hnone
    have hbefore : ∀ j < i, ∀ b, arms[j]? = some b → b.1 = true → takes false b.2 v = false := by
      intro j hj b hb hguardless
      rw [← Bool.not_eq_true]
      exact fun hsure => hnone ⟨j, hj, b, hb, hguardless, hsure⟩
    have hlt : i < (List.replicate arms.length false).length := by
      rw [List.length_replicate]
      exact (List.getElem?_eq_some_iff.mp ha).1
    have hmarked := marks_of_reaches (armRows arms) [t] [v] (List.replicate arms.length false)
      (fits_armRows hfits) (.cons hv .nil) hlt (reaches_armRows.mpr ⟨a, ha, htakes, hbefore⟩)
    rw [← reachedArms, hmark] at hmarked
    cases hmarked
  · obtain ⟨v, hv⟩ := hinhabited
    obtain ⟨vs, hvs, hreaches⟩ := reaches_of_marks (armRows arms) [t]
      (List.replicate arms.length false) (fits_armRows hfits) (closed_armRows hclosed)
      ⟨[v], .cons hv .nil⟩ getElem?_replicate_ne hmark
    cases hvs with
    | cons hw hnil =>
      cases hnil
      obtain ⟨a', ha', htakes, hbefore⟩ := reaches_armRows.mp hreaches
      obtain rfl := Option.some.inj (ha.symm.trans ha')
      refine ⟨_, hw, htakes, fun j hj b hb hguardless => ?_⟩
      rw [takes_closed true false b.2 _ (hclosed b (List.mem_of_getElem? hb))]
      exact hbefore j hj b hb hguardless

/-- The arms `true`, `false` and `_` over a `bool`: the first two are marked. -/
theorem reachedArms_bool : reachedArms [(true, .bool true), (true, .bool false), (true, .wild)] =
      [true, true, false] := by
  have hrows : armRows [(true, .bool true), (true, .bool false), (true, .wild)] =
      [⟨[.bool true], 0, true⟩, ⟨[.bool false], 1, true⟩, ⟨[.wild], 2, true⟩] := rfl
  have hgroups : groups (expandOr
      [⟨[.bool true], 0, true⟩, ⟨[.bool false], 1, true⟩, ⟨[.wild], 2, true⟩]) =
        [[⟨[], 0, true⟩, ⟨[], 2, true⟩], [⟨[], 1, true⟩, ⟨[], 2, true⟩]] := rfl
  rw [reachedArms, hrows, markReached_groups (cons_ne_nil _ _), hgroups, foldl_cons,
    foldl_cons, markReached_leaf rfl, markReached_leaf rfl]
  rfl

theorem reachedArms_exact_bool :
    (∃ v, HasType (fun _ : Unit => .bool) v () ∧ takes true (.bool false) v = true) ∧
      ∃ j < 2, ∃ b, [(true, Pat.bool true), (true, .bool false), (true, .wild)][j]? = some b ∧
        b.1 = true ∧ takes false b.2 (.bool false) = true := by
  have hfits : ∀ a ∈ [(true, Pat.bool true), (true, .bool false), (true, .wild)],
      Fits (fun _ : Unit => .bool) a.2 () := by
    intro a ha
    rcases List.mem_cons.mp ha with rfl | ha
    · exact .bool true rfl
    · rcases List.mem_pair.mp ha with rfl | rfl
      · exact .bool false rfl
      · exact .wild ()
  have hclosed : ∀ a ∈ [(true, Pat.bool true), (true, .bool false), (true, .wild)],
      a.2.closed = true := by
    intro a ha
    rcases List.mem_cons.mp ha with rfl | ha
    · rfl
    · rcases List.mem_pair.mp ha with rfl | rfl <;> rfl
  obtain ⟨hsound, hexact⟩ := reachedArms_exact hfits
  obtain ⟨v, hv, htakes, -⟩ := hexact hclosed ⟨.bool true, .bool true rfl⟩ 1 (true, .bool false)
    rfl (by rw [reachedArms_bool]; rfl)
  exact ⟨⟨v, hv, htakes⟩, hsound 2 (true, .wild) rfl (by rw [reachedArms_bool]; rfl) (.bool false)
    (.bool false rfl) rfl⟩

/-- Over a type with no value a wildcard arm is marked, and takes nothing. -/
theorem reachedArms_uninhabited :
    Fits (fun _ : Unit => .cases []) .wild () ∧ Pat.wild.closed = true ∧
      (reachedArms [(true, .wild)])[0]? = some true ∧
        ¬ ∃ v, HasType (fun _ : Unit => .cases []) v () ∧ takes true .wild v = true := by
  refine ⟨.wild (), rfl, ?_, ?_⟩
  · have hgroups : groups (expandOr [⟨[.wild], 0, true⟩]) = [[⟨[], 0, true⟩]] := rfl
    have hrows : armRows [(true, .wild)] = [⟨[.wild], 0, true⟩] := rfl
    rw [reachedArms, hrows, markReached_groups (List.cons_ne_nil _ _), hgroups, List.foldl_cons,
      markReached_leaf rfl]
    rfl
  · rintro ⟨v, hv, -⟩
    obtain ⟨index, payload, value, -, hindex, -⟩ := hv.form
    cases hindex

end Arms

end Wado.Exhaustive
