/-
Marking the arms some value reaches: each step of the matrix makes its rows lighter
or narrower, so the marking ends, and it only ever marks.
-/
import Mathlib.Algebra.BigOperators.Group.List.Basic
import Mathlib.Algebra.Order.BigOperators.Group.List
import Mathlib.Data.Prod.Lex
import Mathlib.Tactic.Linarith
import Wado.Exhaustive.Matrix

namespace Wado.Exhaustive

open List

variable (row : ArmRow)

section Weight

mutual

/-- How much splitting is left in a pattern. -/
def Pat.weight : Pat → Nat
  | .wild => 1
  | .case _ _ payload => 1 + payloadWeight payload
  | .bool _ => 2
  | .int _ _ _ => 2
  | .product elements => 1 + weightAll elements
  | .narrow _ => 2
  | .opaqueValue => 2
  | .or alternatives => 2 + weightSum alternatives

def payloadWeight : Option Pat → Nat
  | none => 1
  | some payload => payload.weight

/-- The rows a list of patterns can still split into. -/
def weightAll : List Pat → Nat
  | [] => 1
  | p :: ps => p.weight * weightAll ps

def weightSum : List Pat → Nat
  | [] => 0
  | p :: ps => p.weight + weightSum ps

end

attribute [grind =] Pat.weight

mutual

theorem Pat.weight_pos : ∀ p : Pat, 0 < p.weight
  | .wild => by simp only [Pat.weight]; omega
  | .case _ _ _ => by simp only [Pat.weight]; omega
  | .bool _ => by simp only [Pat.weight]; omega
  | .int _ _ _ => by simp only [Pat.weight]; omega
  | .product _ => by simp only [Pat.weight]; omega
  | .narrow _ => by simp only [Pat.weight]; omega
  | .opaqueValue => by simp only [Pat.weight]; omega
  | .or _ => by simp only [Pat.weight]; omega

end

theorem weightAll_pos (ps : List Pat) : 0 < weightAll ps := by
  induction ps with
  | nil => exact Nat.one_pos
  | cons p ps ih => exact Nat.mul_pos p.weight_pos ih

theorem weightAll_append (ps qs : List Pat) :
    weightAll (ps ++ qs) = weightAll ps * weightAll qs := by
  induction ps with
  | nil => exact (Nat.one_mul _).symm
  | cons p ps ih => rw [cons_append, weightAll, weightAll, ih, Nat.mul_assoc]

@[simp] theorem weightAll_wilds (n : Nat) : weightAll (wilds n) = 1 := by
  induction n with
  | zero => rfl
  | succ n ih =>
    rw [wilds, replicate_succ, weightAll, ← wilds, ih, Pat.weight]

/-- Every pattern but a wildcard has splitting left. -/
theorem Pat.two_le_weight {p : Pat} (h : p.isWild = false) : 2 ≤ p.weight := by
  cases p with
  | wild => exact absurd h (by decide)
  | case cases index payload =>
    have hpayload : 0 < payloadWeight payload := by
      cases payload with
      | none => exact Nat.one_pos
      | some payload => exact payload.weight_pos
    rw [Pat.weight]
    omega
  | product elements =>
    have helements := weightAll_pos elements
    rw [Pat.weight]
    omega
  | bool _ => simp only [Pat.weight, le_refl]
  | int _ _ _ => simp only [Pat.weight, le_refl]
  | narrow _ => simp only [Pat.weight, le_refl]
  | opaqueValue => simp only [Pat.weight, le_refl]
  | or _ => simp only [Pat.weight]; omega

def ArmRow.weight (row : ArmRow) : Nat := weightAll row.pats

def rowsWeight (rows : List ArmRow) : Nat := (rows.map (·.weight)).sum

def rowsWidth (rows : List ArmRow) : Nat := (rows.map (·.pats.length)).sum

@[simp] theorem rowsWeight_nil : rowsWeight [] = 0 := rfl

@[simp] theorem rowsWeight_cons (row : ArmRow) (rows : List ArmRow) :
    rowsWeight (row :: rows) = row.weight + rowsWeight rows := rfl

@[simp] theorem rowsWeight_append (rows rows' : List ArmRow) :
    rowsWeight (rows ++ rows') = rowsWeight rows + rowsWeight rows' := by
  rw [rowsWeight, map_append, sum_append, ← rowsWeight, ← rowsWeight]

@[simp] theorem rowsWidth_cons (row : ArmRow) (rows : List ArmRow) :
    rowsWidth (row :: rows) = row.pats.length + rowsWidth rows := rfl

theorem ArmRow.weight_pos : 0 < row.weight := weightAll_pos row.pats

end Weight

section Expanding

mutual

theorem pushExpanded_weight (row : ArmRow) (rest : List Pat) :
    ∀ head : Pat, rowsWeight (pushExpanded row rest head) ≤ head.weight * weightAll rest
  | .or alternatives => by
    have h := pushAlternatives_weight row rest alternatives
    rw [pushExpanded, Pat.weight, Nat.add_mul]
    omega
  | .wild => le_refl _
  | .case _ _ _ => le_refl _
  | .bool _ => le_refl _
  | .int _ _ _ => le_refl _
  | .product _ => le_refl _
  | .narrow _ => le_refl _
  | .opaqueValue => le_refl _

theorem pushAlternatives_weight (row : ArmRow) (rest : List Pat) : ∀ alternatives : List Pat,
      rowsWeight (pushAlternatives row rest alternatives) ≤ weightSum alternatives * weightAll rest
  | [] => Nat.zero_le _
  | alternative :: alternatives => by
    have hhead := pushExpanded_weight row rest alternative
    have htail := pushAlternatives_weight row rest alternatives
    rw [pushAlternatives, rowsWeight_append, weightSum, Nat.add_mul]
    omega

end

/-- Expanding leaves a row alone, or makes what it stands for lighter. -/
theorem expandRow_weight :
    expandRow row = [row] ∨ rowsWeight (expandRow row) < row.weight := by
  obtain ⟨pats, arm, guardless⟩ := row
  cases pats with
  | nil => exact .inl rfl
  | cons head rest =>
    cases head with
    | or alternatives =>
      right
      have h := pushAlternatives_weight ⟨.or alternatives :: rest, arm, guardless⟩ rest
        alternatives
      have hrest := weightAll_pos rest
      rw [ArmRow.weight, weightAll, Pat.weight, Nat.add_mul]
      simp only [expandRow, pushExpanded]
      omega
    | _ => exact .inl rfl

theorem expandOr_weight (rows : List ArmRow) :
    expandOr rows = rows ∨ rowsWeight (expandOr rows) < rowsWeight rows := by
  induction rows with
  | nil => exact .inl rfl
  | cons row rows ih =>
    rw [expandOr, flatMap_cons, ← expandOr, rowsWeight_append, rowsWeight_cons]
    rcases expandRow_weight row with hrow | hrow <;> rcases ih with ih | ih
    · exact .inl (by rw [hrow, ih, singleton_append])
    · right
      rw [hrow, rowsWeight_cons, rowsWeight_nil]
      omega
    · right
      rw [ih]
      omega
    · right
      omega

end Expanding

variable {first : ArmRow}

section Splitting

/-- Rows each made no heavier weigh no more together. -/
theorem rowsWeight_filterMap_le {f : ArmRow → Option ArmRow} {rows : List ArmRow}
    (hf : ∀ row row', f row = some row' → row'.weight ≤ row.weight) :
    rowsWeight (rows.filterMap f) ≤ rowsWeight rows := by
  induction rows with
  | nil => exact le_refl _
  | cons row rows ih =>
    rw [rowsWeight_cons]
    cases hrow : f row with
    | none =>
      rw [filterMap_cons_none hrow]
      omega
    | some row' =>
      rw [filterMap_cons_some hrow, rowsWeight_cons]
      have := hf row row' hrow
      omega

variable {rows : List ArmRow}

/-- One row made lighter makes them all lighter together. -/
theorem rowsWeight_filterMap_lt {f : ArmRow → Option ArmRow}
    (hf : ∀ row row', f row = some row' → row'.weight ≤ row.weight)
    {lighter : ArmRow} (hmem : lighter ∈ rows)
    (hlt : ∀ row', f lighter = some row' → row'.weight < lighter.weight) :
    rowsWeight (rows.filterMap f) < rowsWeight rows := by
  obtain ⟨before, after, rfl⟩ := append_of_mem hmem
  have hbefore := @rowsWeight_filterMap_le f before hf
  have hafter := @rowsWeight_filterMap_le f after hf
  rw [filterMap_append, rowsWeight_append, rowsWeight_append, rowsWeight_cons]
  cases hrow : f lighter with
  | none =>
    have := lighter.weight_pos
    rw [filterMap_cons_none hrow]
    omega
  | some row' =>
    have := hlt row' hrow
    rw [filterMap_cons_some hrow, rowsWeight_cons]
    omega

theorem specializeRow_weight {head : Pat} {rest pats : List Pat} {ctor : Ctor}
    (h : specializeRow head rest ctor = some pats) :
    weightAll pats ≤ weightAll (head :: rest) ∧
      (head.isWild = false → weightAll pats < weightAll (head :: rest)) := by
  have hrest := weightAll_pos rest
  rw [weightAll]
  cases head with
  | wild =>
    obtain rfl := Option.some.inj h
    rw [weightAll_append, weightAll_wilds, Pat.weight]
    exact ⟨le_refl _, fun hwild => absurd hwild (by decide)⟩
  | case cases index payload =>
    suffices weightAll pats < (Pat.case cases index payload).weight * weightAll rest from
      ⟨this.le, fun _ => this⟩
    cases ctor with
    | case cases' wanted =>
      simp only [specializeRow] at h
      split at h
      · split at h
        · obtain rfl := Option.some.inj h
          exact lt_mul_of_one_lt_left hrest (Pat.two_le_weight rfl)
        · obtain rfl := Option.some.inj h
          rw [weightAll, Pat.weight, payloadWeight, Nat.add_mul]
          omega
        · obtain rfl := Option.some.inj h
          rw [weightAll, Pat.weight, Pat.weight, payloadWeight, Nat.add_mul]
          omega
      · cases h
    | _ => cases h
  | product elements =>
    suffices weightAll pats < (Pat.product elements).weight * weightAll rest from
      ⟨this.le, fun _ => this⟩
    cases ctor with
    | product arity =>
      obtain rfl := Option.some.inj h
      rw [weightAll_append, Pat.weight, Nat.add_mul]
      omega
    | _ => cases h
  | bool value =>
    cases ctor with
    | bool wanted =>
      simp only [specializeRow] at h
      split at h
      · obtain rfl := Option.some.inj h
        rw [Pat.weight]
        exact ⟨by omega, fun _ => by omega⟩
      · cases h
    | _ => cases h
  | int lo hi domain =>
    cases ctor with
    | int a b =>
      simp only [specializeRow] at h
      split at h
      · obtain rfl := Option.some.inj h
        rw [Pat.weight]
        exact ⟨by omega, fun _ => by omega⟩
      · cases h
    | _ => cases h
  | narrow target => cases ctor <;> cases h
  | opaqueValue => cases ctor <;> cases h
  | or alternatives => cases ctor <;> cases h

variable {ctors : List Ctor}

theorem specializeAt_weight {position : Nat} {ctor : Ctor}
    {row row' : ArmRow} (h : specializeAt ctors position ctor row = some row') :
    row'.weight ≤ row.weight ∧ (row.head.isWild = false → row'.weight < row.weight) := by
  obtain ⟨pats, arm, guardless⟩ := row
  unfold specializeAt at h
  split at h
  · cases h
  · rename_i rest hpats
    obtain rfl : pats = .opaqueValue :: rest := hpats
    obtain rfl := Option.some.inj h
    have hrest := weightAll_pos rest
    have hweight : weightAll (wilds ctor.arity ++ rest) < weightAll (.opaqueValue :: rest) := by
      rw [weightAll_append, weightAll_wilds, weightAll, Pat.weight]
      omega
    exact ⟨hweight.le, fun _ => hweight⟩
  · rename_i head rest _ hpats
    obtain rfl : pats = head :: rest := hpats
    split at h
    · obtain ⟨pats', hpats', rfl⟩ := Option.map_eq_some_iff.mp h
      exact specializeRow_weight hpats'
    · cases h

theorem tail_weight :
    row.tail.weight ≤ row.weight ∧ (row.head.isWild = false → row.tail.weight < row.weight) := by
  obtain ⟨pats, arm, guardless⟩ := row
  cases pats with
  | nil => exact ⟨le_refl _, fun hwild => absurd hwild (by simp [ArmRow.head])⟩
  | cons p ps =>
    have hp := p.weight_pos
    have hps := weightAll_pos ps
    refine ⟨Nat.le_mul_of_pos_left _ hp, fun hwild => ?_⟩
    exact lt_mul_of_one_lt_left hps (Pat.two_le_weight hwild)

theorem rowsWeight_tails_le (rows : List ArmRow) :
    rowsWeight (rows.map (·.tail)) ≤ rowsWeight rows := by
  induction rows with
  | nil => exact le_refl _
  | cons row rows ih =>
    have := (tail_weight row).1
    rw [map_cons, rowsWeight_cons, rowsWeight_cons]
    omega

variable {rows rows' : List ArmRow}

theorem rowsWeight_sublist (h : rows.Sublist rows') :
    rowsWeight rows ≤ rowsWeight rows' := by
  induction h with
  | slnil => exact le_refl _
  | cons row _ ih =>
    rw [rowsWeight_cons]
    omega
  | cons_cons row _ ih =>
    rw [rowsWeight_cons, rowsWeight_cons]
    omega

theorem rowsWidth_sublist (h : rows.Sublist rows') :
    rowsWidth rows ≤ rowsWidth rows' := by
  induction h with
  | slnil => exact le_refl _
  | cons row _ ih =>
    rw [rowsWidth_cons]
    omega
  | cons_cons row _ ih =>
    rw [rowsWidth_cons, rowsWidth_cons]
    omega

theorem rowsWidth_tails_le (rows : List ArmRow) :
    rowsWidth (rows.map (·.tail)) ≤ rowsWidth rows := by
  induction rows with
  | nil => exact le_refl _
  | cons row rows ih =>
    rw [map_cons, rowsWidth_cons, rowsWidth_cons, ArmRow.tail, ArmRow.withPats_pats,
      length_tail]
    omega

/-- The rows around a named one, split there. -/
theorem namedGroup_eq {before after : List ArmRow} {row : ArmRow} :
    namedGroup (before ++ row :: after) before.length =
      ((before.filter (·.head.isWild) ++ row :: after.filter (·.head.isWild)).map
        (·.tail)) := by
  have hafter : (before ++ row :: after).drop (before.length + 1) = after := by
    rw [← drop_drop, drop_left, drop_one, tail_cons]
  rw [namedGroup, take_left, hafter, List.getElem?_append_right (le_refl _), Nat.sub_self,
    List.getElem?_cons_zero, Option.toList_some, append_assoc, singleton_append]

variable {rows group : List ArmRow}

theorem mem_openGroups : group ∈ openGroups rows ↔
      (∃ before row after, rows = before ++ row :: after ∧ row.head.isWild = false ∧
        group = (before.filter (·.head.isWild) ++ row :: after.filter (·.head.isWild)).map
          (·.tail)) ∨
      group = defaultRows rows := by
  rw [openGroups, mem_append, mem_singleton, mem_map]
  refine or_congr_left ⟨?_, ?_⟩
  · rintro ⟨named, hnamed, rfl⟩
    obtain ⟨hlt, hwild⟩ := mem_filter.mp hnamed
    rw [mem_range] at hlt
    have hsplit : rows = rows.take named ++ rows[named] :: rows.drop (named + 1) := by
      rw [getElem_cons_drop, take_append_drop]
    have hlength : (rows.take named).length = named := length_take_of_le hlt.le
    refine ⟨rows.take named, rows[named], rows.drop (named + 1), hsplit, ?_, ?_⟩
    · simpa only [List.getElem?_eq_getElem hlt, Option.any_some, Bool.not_eq_true'] using hwild
    · rw [← namedGroup_eq, ← hsplit, hlength]
  · rintro ⟨before, row, after, rfl, hwild, rfl⟩
    refine ⟨before.length, mem_filter.mpr ⟨?_, ?_⟩, namedGroup_eq⟩
    · rw [mem_range, length_append, length_cons]
      omega
    · rw [List.getElem?_append_right (le_refl _), Nat.sub_self, List.getElem?_cons_zero,
        Option.any_some, hwild, Bool.not_false]

theorem mem_specializeEach :
    group ∈ specializeEach rows ctors ↔ ∃ position ctor, ctors[position]? = some ctor ∧
        group = rows.filterMap (specializeAt ctors position ctor) := by
  rw [specializeEach, mem_mapIdx]
  constructor
  · rintro ⟨position, hlt, rfl⟩
    exact ⟨position, ctors[position], List.getElem?_eq_getElem hlt, rfl⟩
  · rintro ⟨position, ctor, hctor, rfl⟩
    obtain ⟨hlt, rfl⟩ := List.getElem?_eq_some_iff.mp hctor
    exact ⟨position, hlt, rfl⟩

/-- A column with constructors has a row that names one. -/
theorem exists_named_of_signature (h : signature rows = some ctors) :
    ∃ row ∈ rows, row.head.isWild = false ∧ row.head.isOpaque = false := by
  cases hnamed : namedHead rows with
  | none => rw [signature, hnamed] at h; cases h
  | some head =>
    have hmem := mem_of_find?_eq_some hnamed
    have hsome := List.find?_some hnamed
    obtain ⟨row, hrow, rfl⟩ := mem_map.mp hmem
    rw [Bool.not_eq_true', Bool.or_eq_false_iff] at hsome
    exact ⟨row, hrow, hsome⟩

/-- Every group of a column is lighter than the column, or is its wildcard rows. -/
theorem groups_weight (h : group ∈ groups rows) :
    rowsWeight group < rowsWeight rows ∨
      group = defaultRows rows ∧ rowsWeight group ≤ rowsWeight rows := by
  unfold groups at h
  split at h
  · rename_i ctors hsignature
    left
    obtain ⟨position, ctor, -, rfl⟩ := mem_specializeEach.mp h
    obtain ⟨named, hmem, hwild, -⟩ := exists_named_of_signature hsignature
    exact rowsWeight_filterMap_lt (fun row row' hrow => (specializeAt_weight hrow).1) hmem
      fun row' hrow => (specializeAt_weight hrow).2 hwild
  · obtain ⟨before, row, after, rfl, hwild, rfl⟩ | rfl := mem_openGroups.mp h
    · left
      have hbefore := rowsWeight_sublist (@filter_sublist _ (·.head.isWild) before)
      have hafter := rowsWeight_sublist (@filter_sublist _ (·.head.isWild) after)
      have hbefore' := rowsWeight_tails_le (before.filter (·.head.isWild))
      have hafter' := rowsWeight_tails_le (after.filter (·.head.isWild))
      have hrow := (tail_weight row).2 hwild
      rw [map_append, map_cons, rowsWeight_append, rowsWeight_append,
        rowsWeight_cons, rowsWeight_cons]
      omega
    · exact .inr ⟨rfl, (rowsWeight_tails_le _).trans (rowsWeight_sublist filter_sublist)⟩

theorem rowsWidth_defaultRows_lt (rest : List ArmRow) (h : first.pats ≠ []) :
    rowsWidth (defaultRows (first :: rest)) < rowsWidth (first :: rest) := by
  have hlength : 0 < first.pats.length := length_pos_iff.mpr h
  have hrest := rowsWidth_sublist (@filter_sublist _ (·.head.isWild) rest)
  have hrest' := rowsWidth_tails_le (rest.filter (·.head.isWild))
  rw [defaultRows, filter_cons]
  split
  · rw [map_cons, rowsWidth_cons, rowsWidth_cons, ArmRow.tail, ArmRow.withPats_pats,
      length_tail]
    omega
  · rw [rowsWidth_cons]
    omega

/-- What the marking is well founded by: each group it goes on with is lighter than
the rows it started from, or as heavy and narrower. -/
theorem groups_expandOr_lt {rest group : List ArmRow}
    (hfirst : first.pats ≠ []) (h : group ∈ groups (expandOr (first :: rest))) :
    Prod.Lex (· < ·) (· < ·) (rowsWeight group, rowsWidth group)
      (rowsWeight (first :: rest), rowsWidth (first :: rest)) := by
  rw [Prod.lex_def]
  rcases expandOr_weight (first :: rest) with heq | hexpanded
  · rw [heq] at h
    obtain hlt | ⟨rfl, hle⟩ := groups_weight h
    · exact .inl hlt
    · have hwidth := rowsWidth_defaultRows_lt rest hfirst
      rcases hle.lt_or_eq with hlt | heq
      · exact .inl hlt
      · exact .inr ⟨heq, hwidth⟩
  · left
    obtain hlt | ⟨-, hle⟩ := groups_weight h
    · exact hlt.trans hexpanded
    · exact hle.trans_lt hexpanded

end Splitting

section Marking

/-- Rows with no column left all take the value: it reaches the first of them that is
not behind a guard, and every one ahead of it. -/
def markLeaf : List ArmRow → List Bool → List Bool
  | [], reached => reached
  | row :: rows, reached =>
    let reached := reached.set row.arm true
    if row.guardless then reached else markLeaf rows reached

/-- Marks each arm some value reaches: the first row taking it, and every guarded row
ahead of that one. -/
def markReached (rows : List ArmRow) (reached : List Bool) : List Bool :=
  match rows with
  | [] => reached
  | first :: rest =>
    if _hfirst : first.pats = [] then markLeaf (first :: rest) reached
    else
      (groups (expandOr (first :: rest))).attach.foldl
        (fun reached group => markReached group.1 reached) reached
termination_by (rowsWeight rows, rowsWidth rows)
decreasing_by exact groups_expandOr_lt _hfirst group.2

/-- The arms as rows of one column: each says whether it is guardless, and its pattern. -/
def armRows (arms : List (Bool × Pat)) : List ArmRow :=
  arms.mapIdx fun arm a => ⟨[a.2], arm, a.1⟩

/-- Whether some value reaches each arm, past the guardless arms before it.  A guarded
arm covers nothing but may be unreachable. -/
def reachedArms (arms : List (Bool × Pat)) : List Bool :=
  markReached (armRows arms) (List.replicate arms.length false)

variable {rest : List ArmRow}

theorem markReached_leaf (h : first.pats = []) (reached : List Bool) :
    markReached (first :: rest) reached = markLeaf (first :: rest) reached := by
  rw [markReached, dif_pos h]

theorem markReached_groups (h : first.pats ≠ []) (reached : List Bool) :
    markReached (first :: rest) reached = (groups (expandOr (first :: rest))).foldl
        (fun reached group => markReached group reached) reached := by
  rw [markReached, dif_neg h]
  exact foldl_attach (f := fun reached group => markReached group reached)

/-- Induction along the marking: from the groups of a column to the column. -/
theorem matrix_induction {P : List ArmRow → Prop} (nil : P [])
    (leaf : ∀ first rest, first.pats = [] → P (first :: rest))
    (split : ∀ first rest, first.pats ≠ [] →
      (∀ group ∈ groups (expandOr (first :: rest)), P group) → P (first :: rest)) :
    ∀ rows, P rows
  | [] => nil
  | first :: rest =>
    if hfirst : first.pats = [] then leaf first rest hfirst
    else split first rest hfirst fun group _hgroup =>
      matrix_induction nil leaf split group
termination_by rows => (rowsWeight rows, rowsWidth rows)
decreasing_by exact groups_expandOr_lt hfirst _hgroup

theorem markLeaf_length (rows : List ArmRow) (reached : List Bool) :
    (markLeaf rows reached).length = reached.length := by
  induction rows generalizing reached with
  | nil => rfl
  | cons row rows ih =>
    rw [markLeaf]
    split
    · exact length_set
    · rw [ih, length_set]

end Marking

end Wado.Exhaustive
