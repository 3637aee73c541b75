/-
Splitting the head column: the constructors of a column are all its type has, each
takes arguments of known types, and none splits a range of the column.
-/
import Wado.Exhaustive.Rows

namespace Wado.Exhaustive

open List

variable {τ : Type} (shape : τ → Shape τ)

/-- The constructor builds values of the type, from arguments of the types listed. -/
inductive Ctor.Of (t : τ) : Ctor → List τ → Prop where
  | case {payloads : List (Option τ)} {cases : List Case} {index : Nat} {payload : Option τ}
      (hshape : shape t = .cases payloads) (hcases : Describes shape cases payloads)
      (hindex : payloads[index]? = some payload)
      (hinhabited : ∀ u ∈ payload, Inhabited shape u) : Of t (.case cases index) payload.toList
  | bool (value : Bool) (hshape : shape t = .bool) : Of t (.bool value) []
  | int {d : IntDomain} {a b : Int} (hshape : shape t = .int (some d)) (hrange : a ≤ b)
      (hholds : d.Holds a) : Of t (.int a b) []
  | product {types : List τ} (hshape : shape t = .product types) :
      Of t (.product types.length) types

/-- The constructor builds the value from the arguments. -/
inductive Builds : Ctor → List Value → Value → Prop where
  | case (cases : List Case) (index : Nat) (payload : Option Value) :
      Builds (.case cases index) payload.toList (.case index payload)
  | bool (value : Bool) : Builds (.bool value) [] (.bool value)
  | int {a b key : Int} (hlo : a ≤ key) (hhi : key ≤ b) : Builds (.int a b) [] (.int key)
  | product (vs : List Value) : Builds (.product vs.length) vs (.product vs)

variable {args : List Value}

theorem Builds.product_eq {n : Nat} {v : Value}
    (h : Builds (.product n) args v) : v = .product args := by
  cases h
  rfl

/-- A range of the column lies wholly inside the constructor's piece, or outside. -/
def Uncut (ctor : Ctor) (head : Pat) : Prop :=
  ∀ lo hi domain a b key, head = .int lo hi domain → ctor = .int a b →
    a ≤ key → key ≤ b → lo ≤ key → key ≤ hi → lo ≤ a ∧ b ≤ hi

/-- The constructors stand in the order their columns are searched by. -/
def InOrder (ctors : List Ctor) : Prop :=
  ctors.Pairwise fun c c' => c.index ≤ c'.index ∧ c.piece.1 ≤ c'.piece.1

variable {shape}

variable {payloads : List (Option τ)}

variable {cases : List Case}

section Ctor

variable {t : τ} {ctor : Ctor} {argTs : List τ}

theorem Describes.getElem? {index : Nat} {payload : Option τ} (h : Describes shape cases payloads)
    (hindex : payloads[index]? = some payload) :
    ∃ c, cases[index]? = some c ∧ c.hasPayload = payload.isSome ∧
      (c.inhabited = true ↔ ∀ u ∈ payload, Inhabited shape u) := by
  obtain ⟨hlt, -⟩ := List.getElem?_eq_some_iff.mp hindex
  rw [← h.1] at hlt
  have hc := List.getElem?_eq_getElem hlt
  exact ⟨cases[index], hc, h.2 index cases[index] payload hc hindex⟩

section

variable (h : ctor.Of shape t argTs)
include h

theorem Ctor.Of.arity_eq : ctor.arity = argTs.length := by
  cases h with
  | case hshape hcases hindex hinhabited =>
    rename_i payloads cases index payload
    obtain ⟨c, hc, hpayload, -⟩ := hcases.getElem? hindex
    rw [Ctor.arity, hc, Option.map_some, Option.getD_some, hpayload]
    cases payload <;> rfl
  | bool _ _ => rfl
  | int _ _ _ => rfl
  | product _ => rfl

theorem Ctor.Of.piece_le : ctor.piece.1 ≤ ctor.piece.2 := by
  cases h with
  | int _ hrange _ => exact hrange
  | case _ _ _ _ => exact le_refl _
  | bool _ _ => exact le_refl _
  | product _ => exact le_refl _

/-- The arguments of a constructor of an inhabited type are of inhabited types. -/
theorem Ctor.Of.inhabited (ht : Inhabited shape t) :
    ∃ args, HasTypes shape args argTs := by
  cases h with
  | case hshape hcases hindex hinhabited =>
    rename_i payload
    cases payload with
    | none => exact ⟨[], .nil⟩
    | some u =>
      obtain ⟨v, hv⟩ := hinhabited u rfl
      exact ⟨[v], .cons hv .nil⟩
  | bool _ _ => exact ⟨[], .nil⟩
  | int _ _ _ => exact ⟨[], .nil⟩
  | product hshape =>
    obtain ⟨v, hv⟩ := ht
    have hform := hv.form
    rw [hshape] at hform
    obtain ⟨vs, -, hvs⟩ := hform
    exact ⟨vs, hvs⟩

/-- Arguments of the right types build a value. -/
theorem Ctor.Of.exists_value
    (hargs : HasTypes shape args argTs) : ∃ v, HasType shape v t ∧ Builds ctor args v := by
  cases h with
  | case hshape hcases hindex hinhabited =>
    rename_i payloads cases index payload
    cases payload with
    | none =>
      cases hargs
      exact ⟨.case index none, .case hshape hindex, .case cases index none⟩
    | some u =>
      cases hargs with
      | cons head tail =>
        cases tail
        exact ⟨.case index (some _), .payload hshape hindex head, .case cases index (some _)⟩
  | bool value hshape =>
    cases hargs
    exact ⟨.bool value, .bool value hshape, .bool value⟩
  | int hshape hrange hholds =>
    cases hargs
    refine ⟨.int _, .int hshape fun d hd => ?_, .int le_rfl hrange⟩
    obtain rfl := Option.some.inj hd
    exact hholds
  | product hshape =>
    refine ⟨.product args, .product hshape hargs, ?_⟩
    rw [← hargs.length]
    exact .product args

end

end Ctor

section Specialize

variable {t : τ} {ctor : Ctor} {argTs ts : List τ} {head : Pat} {rest pats : List Pat}

/-- Specializing a head tells what it takes of the values the constructor builds. -/
theorem takesAll_specializeRow {atom : Bool} {args vs : List Value} {v : Value}
    (hof : ctor.Of shape t argTs) (hargs : HasTypes shape args argTs) (hbuilds : Builds ctor args v)
    (hfits : Fits shape head t) (hOpq : head.isOpaque = false) (hor : head.isOr = false)
    (huncut : Uncut ctor head) :
    takesAll atom (head :: rest) (v :: vs) = true ↔
      ∃ pats, specializeRow head rest ctor = some pats ∧
        takesAll atom pats (args ++ vs) = true := by
  have harity := hof.arity_eq
  rcases hfits.names hOpq hor with hwild | hnames
  · obtain rfl : head = .wild := by cases head <;> first | rfl | cases hwild
    have hlength : args.length = ctor.arity := hargs.length.trans harity.symm
    have hargsTaken : takesAll atom (wilds ctor.arity) args = true := takesAll_wilds hlength
    simp only [specializeRow, Option.some.injEq, exists_eq_left']
    rw [takesAll_append (by rw [wilds, length_replicate, hlength]), hargsTaken, takesAll,
      takes]
  · cases hof with
    | case hshape hcases hindex hinhabited =>
      rename_i payloads cases wanted payload
      rw [hshape] at hnames
      obtain ⟨cases', index, p, rfl, -, payload', hindex', hp⟩ := hnames
      cases hbuilds with
      | case _ _ value =>
        by_cases hw : index = wanted
        · subst hw
          obtain rfl := Option.some.inj (hindex.symm.trans hindex')
          cases payload with
          | none =>
            have hnone : p = none := by
              cases p with
              | none => rfl
              | some p => obtain ⟨u, hu, -⟩ := hp p rfl; cases hu
            have hvalue : value = none := by
              cases value with
              | none => rfl
              | some _ => cases hargs
            subst hnone hvalue
            have hzero : (Ctor.case cases index).arity = 0 := harity
            simp only [specializeRow, if_true, hzero, Option.some.injEq, exists_eq_left',
              takesAll, takes, takesPayload, decide_true, Bool.true_and,
              Option.toList_none, nil_append]
          | some u =>
            have hone : (Ctor.case cases index).arity = 1 := harity
            cases value with
            | none => cases hargs
            | some w =>
              cases p with
              | none =>
                simp only [specializeRow, if_true, hone, Option.some.injEq,
                  exists_eq_left', takesAll, takes, takesPayload, decide_true,
                  Bool.true_and, Option.toList_some, singleton_append]
              | some p =>
                simp only [specializeRow, if_true, hone, Option.some.injEq,
                  exists_eq_left', takesAll, takes, takesPayload, decide_true,
                  Bool.true_and, Option.toList_some, singleton_append]
        · have hw' : wanted ≠ index := fun h => hw h.symm
          simp only [specializeRow, if_neg hw, takesAll, takes, decide_eq_false hw',
            Bool.false_and, Bool.false_eq_true, reduceCtorEq, false_and, exists_false]
    | bool wanted hshape =>
      rw [hshape] at hnames
      obtain ⟨value, rfl⟩ := hnames
      cases hbuilds
      by_cases hw : value = wanted
      · subst hw
        simp only [specializeRow, if_true, Option.some.injEq, exists_eq_left', takesAll, takes,
          beq_self_eq_true, Bool.true_and, nil_append]
      · simp only [specializeRow, if_neg hw, takesAll, takes, beq_eq_false_iff_ne.mpr hw,
          Bool.false_and, Bool.false_eq_true, reduceCtorEq, false_and, exists_false]
    | int hshape hrange hholds =>
      rw [hshape] at hnames
      obtain ⟨lo, hi, rfl, -, -⟩ := hnames
      cases hbuilds with
      | int hlo hhi =>
        rename_i a b key
        by_cases hin : lo ≤ a ∧ b ≤ hi
        · have hkey : decide (lo ≤ key) && decide (key ≤ hi) := by
            rw [Bool.and_eq_true, decide_eq_true_eq, decide_eq_true_eq]
            exact ⟨hin.1.trans hlo, hhi.trans hin.2⟩
          simp only [specializeRow, if_pos hin, Option.some.injEq, exists_eq_left', takesAll,
            takes, hkey, Bool.true_and, nil_append]
        · have hkey : (decide (lo ≤ key) && decide (key ≤ hi)) = false := by
            rw [← Bool.not_eq_true, Bool.and_eq_true, decide_eq_true_eq, decide_eq_true_eq]
            exact fun h => hin (huncut lo hi _ a b key rfl rfl hlo hhi h.1 h.2)
          simp only [specializeRow, if_neg hin, takesAll, takes, hkey, Bool.false_and,
            Bool.false_eq_true, reduceCtorEq, false_and, exists_false]
    | product hshape =>
      rw [hshape] at hnames
      obtain ⟨elements, rfl, helements⟩ := hnames
      obtain rfl := hbuilds.product_eq
      simp only [specializeRow, Option.some.injEq, exists_eq_left', takesAll, takes]
      rw [takesAll_append (helements.length.trans hargs.length.symm)]

/-- A specialized row fits the constructor's arguments and the columns left. -/
theorem fitsAll_specializeRow (hof : ctor.Of shape t argTs) (hfits : Fits shape head t)
    (hrest : FitsAll shape rest ts) (h : specializeRow head rest ctor = some pats) :
    FitsAll shape pats (argTs ++ ts) := by
  have harity := hof.arity_eq
  cases head with
  | wild =>
    obtain rfl := Option.some.inj h
    rw [harity]
    exact (FitsAll.wilds argTs).append hrest
  | case cases index p =>
    cases hof with
    | case hshape hcases hindex hinhabited =>
      rename_i payloads cases' wanted payload
      simp only [specializeRow] at h
      split at h
      · rename_i hw
        subst hw
        split at h
        · rename_i hzero
          obtain rfl := Option.some.inj h
          obtain rfl : payload = none := by
            cases payload with
            | none => rfl
            | some u => rw [harity] at hzero; cases hzero
          exact hrest
        · rename_i q n hn
          obtain rfl := Option.some.inj h
          cases hfits with
          | payload hshape' hcases' hindex' hpayload =>
            obtain rfl := Shape.cases.inj (hshape.symm.trans hshape')
            obtain rfl := Option.some.inj (hindex.symm.trans hindex')
            exact .cons hpayload hrest
        · rename_i n hn
          obtain rfl := Option.some.inj h
          cases payload with
          | none => exact absurd harity hn
          | some u => exact .cons (.wild u) hrest
      · cases h
    | _ => cases h
  | bool value =>
    cases hof with
    | bool wanted _ =>
      simp only [specializeRow] at h
      split at h
      · obtain rfl := Option.some.inj h
        exact hrest
      · cases h
    | _ => cases h
  | int lo hi domain =>
    cases hof with
    | int _ _ _ =>
      simp only [specializeRow] at h
      split at h
      · obtain rfl := Option.some.inj h
        exact hrest
      · cases h
    | _ => cases h
  | product elements =>
    cases hof with
    | product hshape =>
      obtain rfl := Option.some.inj h
      cases hfits with
      | product hshape' helements =>
        obtain rfl := Shape.product.inj (hshape.symm.trans hshape')
        exact helements.append hrest
    | _ => cases h
  | narrow target => cases ctor <;> cases h
  | opaqueValue => cases ctor <;> cases h
  | or alternatives => cases ctor <;> cases h

theorem closedAll_specializeRow (hclosed : closedAll (head :: rest) = true)
    (h : specializeRow head rest ctor = some pats) : closedAll pats = true := by
  rw [closedAll, Bool.and_eq_true] at hclosed
  cases head with
  | wild =>
    obtain rfl := Option.some.inj h
    rw [closedAll_append, closedAll_wilds, hclosed.2, Bool.and_self]
  | case cases index p =>
    cases ctor with
    | case cases' wanted =>
      simp only [specializeRow] at h
      split at h
      · split at h
        · obtain rfl := Option.some.inj h
          exact hclosed.2
        · obtain rfl := Option.some.inj h
          rw [closedAll, Bool.and_eq_true]
          exact ⟨hclosed.1, hclosed.2⟩
        · obtain rfl := Option.some.inj h
          rw [closedAll, hclosed.2, Pat.closed, Bool.and_self]
      · cases h
    | _ => cases h
  | bool value =>
    cases ctor with
    | bool wanted =>
      simp only [specializeRow] at h
      split at h
      · obtain rfl := Option.some.inj h
        exact hclosed.2
      · cases h
    | _ => cases h
  | int lo hi domain =>
    cases ctor with
    | int a b =>
      simp only [specializeRow] at h
      split at h
      · obtain rfl := Option.some.inj h
        exact hclosed.2
      · cases h
    | _ => cases h
  | product elements =>
    cases ctor with
    | product arity =>
      obtain rfl := Option.some.inj h
      rw [closedAll_append, hclosed.2, Bool.and_true]
      exact hclosed.1
    | _ => cases h
  | narrow target => cases ctor <;> cases h
  | opaqueValue => cases ctor <;> cases h
  | or alternatives => cases ctor <;> cases h

end Specialize

variable {ctors : List Ctor} {ctor : Ctor}

section Reach

variable {position : Nat}

variable {p : Ctor → Bool}

theorem partitionPoint_le (hctor : ctors[position]? = some ctor) (hp : p ctor = false) :
    partitionPoint ctors p ≤ position := by
  induction ctors generalizing position with
  | nil => cases hctor
  | cons c ctors ih =>
    rw [partitionPoint, takeWhile_cons]
    split
    · rename_i hc
      cases position with
      | zero =>
        obtain rfl := Option.some.inj hctor
        rw [hp] at hc
        cases hc
      | succ position => exact Nat.succ_le_succ (ih hctor)
    · exact Nat.zero_le _

theorem lt_partitionPoint (hlt : position < ctors.length)
    (hp : ∀ (i : Nat) (c : Ctor), i ≤ position → ctors[i]? = some c → p c = true) :
    position < partitionPoint ctors p := by
  induction ctors generalizing position with
  | nil => exact absurd hlt (Nat.not_lt_zero _)
  | cons c ctors ih =>
    rw [partitionPoint, takeWhile_cons, if_pos (hp 0 c (Nat.zero_le _) rfl)]
    cases position with
    | zero => exact Nat.succ_pos _
    | succ position =>
      exact Nat.succ_lt_succ (ih (Nat.lt_of_succ_lt_succ hlt) fun i c' hi hc' =>
        hp (i + 1) c' (Nat.succ_le_succ hi) hc')

/-- In order, the constructors up to one come no later than it. -/
theorem InOrder.le (h : InOrder ctors) {i position : Nat} {c ctor : Ctor}
    (hi : i ≤ position) (hc : ctors[i]? = some c) (hctor : ctors[position]? = some ctor) :
    c.index ≤ ctor.index ∧ c.piece.1 ≤ ctor.piece.1 := by
  rcases hi.lt_or_eq with hlt | rfl
  · obtain ⟨hilt, rfl⟩ := List.getElem?_eq_some_iff.mp hc
    obtain ⟨hplt, rfl⟩ := List.getElem?_eq_some_iff.mp hctor
    exact pairwise_iff_getElem.mp h i position hilt hplt hlt
  · obtain rfl := Option.some.inj (hc.symm.trans hctor)
    exact ⟨le_rfl, le_rfl⟩

/-- Searching the constructors misses none the head can take. -/
theorem reach_of_specializeRow {head : Pat} {rest pats : List Pat} (horder : InOrder ctors)
    (hctor : ctors[position]? = some ctor) (hpiece : ctor.piece.1 ≤ ctor.piece.2)
    (h : specializeRow head rest ctor = some pats) :
    (reach head ctors).1 ≤ position ∧ position < (reach head ctors).2 := by
  obtain ⟨hlt, -⟩ := List.getElem?_eq_some_iff.mp hctor
  cases head with
  | case cases index payload =>
    cases ctor with
    | case cases' wanted =>
      simp only [specializeRow] at h
      split at h
      · rename_i hw
        subst hw
        refine ⟨partitionPoint_le hctor (decide_eq_false (lt_irrefl index)),
          lt_partitionPoint hlt fun i c hi hc => ?_⟩
        exact decide_eq_true (horder.le hi hc hctor).1
      · cases h
    | _ => cases h
  | int lo hi domain =>
    cases ctor with
    | int a b =>
      simp only [specializeRow] at h
      split at h
      · rename_i hin
        refine ⟨partitionPoint_le hctor (decide_eq_false (not_lt_of_ge (hin.1.trans hpiece))),
          lt_partitionPoint hlt fun i c hi hc => ?_⟩
        exact decide_eq_true (((horder.le hi hc hctor).2.trans hpiece).trans hin.2)
      · cases h
    | _ => cases h
  | _ => exact ⟨Nat.zero_le _, hlt⟩

end Reach

section Signature

variable (shape)

/-- What holds of the constructors a column of the type splits into. -/
structure Column (rows : List ArmRow) (t : τ) (ctors : List Ctor) : Prop where
  inOrder : InOrder ctors
  ofMem : ∀ ctor ∈ ctors, ∃ argTs, ctor.Of shape t argTs
  uncut : ∀ ctor ∈ ctors, ∀ row ∈ rows, Uncut ctor row.head
  built : ∀ v, HasType shape v t → ∃ ctor ∈ ctors, ∃ args argTs,
    ctor.Of shape t argTs ∧ HasTypes shape args argTs ∧ Builds ctor args v

variable {shape} {t : τ} {rows : List ArmRow}

theorem column_cases
    (hshape : shape t = .cases payloads) (hcases : Describes shape cases payloads) :
    Column shape rows t (caseCtors cases) where
  inOrder := by
    rw [InOrder, caseCtors, pairwise_map]
    refine List.Pairwise.imp (fun h => ⟨Nat.le_of_lt h, le_rfl⟩)
      (List.Pairwise.sublist filter_sublist (pairwise_lt_range))
  ofMem := by
    intro ctor hctor
    obtain ⟨index, hindex, rfl⟩ := mem_map.mp hctor
    obtain ⟨hlt, hinhabited⟩ := mem_filter.mp hindex
    rw [mem_range, hcases.1] at hlt
    have hpayload := List.getElem?_eq_getElem hlt
    obtain ⟨c, hc, -, hiff⟩ := hcases.getElem? hpayload
    rw [hc, Option.map_some, Option.getD_some, hiff] at hinhabited
    exact ⟨_, .case hshape hcases hpayload hinhabited⟩
  uncut := by
    intro ctor hctor row _ lo hi domain a b key _ hint
    obtain ⟨index, -, rfl⟩ := mem_map.mp hctor
    cases hint
  built := by
    intro v hv
    have hform := hv.form
    rw [hshape] at hform
    obtain ⟨index, payload, value, rfl, hindex, hargs⟩ := hform
    obtain ⟨c, hc, -, hiff⟩ := hcases.getElem? hindex
    have hinhabited : ∀ u ∈ payload, Inhabited shape u := by
      intro u hu
      obtain rfl := Option.mem_def.mp hu
      cases value with
      | none => cases hargs
      | some w =>
        cases hargs with
        | cons head _ => exact ⟨w, head⟩
    refine ⟨.case cases index, mem_map.mpr ⟨index, mem_filter.mpr ⟨?_, ?_⟩, rfl⟩,
      value.toList, payload.toList, .case hshape hcases hindex hinhabited, hargs,
      .case cases index value⟩
    · exact mem_range.mpr (List.getElem?_eq_some_iff.mp hc).1
    · rw [hc, Option.map_some, Option.getD_some]
      exact hiff.mpr hinhabited

theorem column_bool (hshape : shape t = .bool) : Column shape rows t [.bool true, .bool false] where
  inOrder := by
    refine pairwise_cons.mpr ⟨fun c hc => ?_, pairwise_singleton _ _⟩
    obtain rfl := mem_singleton.mp hc
    exact ⟨le_rfl, le_rfl⟩
  ofMem := by
    intro ctor hctor
    rcases mem_pair.mp hctor with rfl | rfl
    · exact ⟨[], .bool true hshape⟩
    · exact ⟨[], .bool false hshape⟩
  uncut := by
    intro ctor hctor row _ lo hi domain a b key _ hint
    rcases mem_pair.mp hctor with rfl | rfl <;> cases hint
  built := by
    intro v hv
    have hform := hv.form
    rw [hshape] at hform
    obtain ⟨value, rfl⟩ := hform
    refine ⟨.bool value, ?_, [], [], .bool value hshape, .nil, .bool value⟩
    cases value
    · exact mem_cons_of_mem _ mem_cons_self
    · exact mem_cons_self

theorem column_product {types : List τ} (hshape : shape t = .product types) :
    Column shape rows t [.product types.length] where
  inOrder := pairwise_singleton _ _
  ofMem := by
    intro ctor hctor
    obtain rfl := mem_singleton.mp hctor
    exact ⟨types, .product hshape⟩
  uncut := by
    intro ctor hctor row _ lo hi domain a b key _ hint
    obtain rfl := mem_singleton.mp hctor
    cases hint
  built := by
    intro v hv
    have hform := hv.form
    rw [hshape] at hform
    obtain ⟨elements, rfl, helements⟩ := hform
    refine ⟨.product types.length, mem_cons_self, elements, types, .product hshape,
      helements, ?_⟩
    rw [← helements.length]
    exact .product elements

end Signature

section Domain

variable {t : τ} {rows : List ArmRow} {d : IntDomain}

/-- The rows of an integer column name ranges of its domain, or no value of it. -/
def RangesWithin (rows : List ArmRow) (d : IntDomain) : Prop :=
  ∀ row ∈ rows, ∀ lo hi domain, row.head = .int lo hi domain → lo ≤ hi ∧ d.min ≤ lo ∧ hi ≤ d.max

theorem mem_sortedCuts {c : Int} : c ∈ sortedCuts rows d ↔ c ∈ domainCuts rows d := by
  rw [sortedCuts, Finset.mem_sort, mem_toFinset]

theorem sortedCuts_increasing (rows : List ArmRow) (d : IntDomain) :
    (sortedCuts rows d).Pairwise (· < ·) :=
  (Finset.sortedLT_sort _).pairwise

theorem mem_splitDomain : ctor ∈ splitDomain rows d ↔
      ∃ w ∈ Windows.windows (sortedCuts rows d), d.inHole w.1 = false ∧
        ctor = .int w.1 (w.2 - 1) := by
  rw [splitDomain, mem_map]
  constructor
  · rintro ⟨w, hw, rfl⟩
    obtain ⟨hw, hhole⟩ := mem_filter.mp hw
    exact ⟨w, hw, (Bool.not_eq_true' _).mp hhole, rfl⟩
  · rintro ⟨w, hw, hhole, rfl⟩
    exact ⟨w, mem_filter.mpr ⟨hw, (Bool.not_eq_true' _).mpr hhole⟩, rfl⟩

theorem inHole_iff {key : Int} : d.inHole key = true ↔ ∃ h ∈ d.hole, h.1 ≤ key ∧ key ≤ h.2 := by
  rw [IntDomain.inHole, Option.any_eq_true]
  simp only [Bool.and_eq_true, decide_eq_true_eq, Option.mem_def]

theorem min_mem_cuts (rows : List ArmRow) (d : IntDomain) : d.min ∈ domainCuts rows d := by
  simp only [domainCuts, mem_append, mem_cons, true_or]

theorem past_max_mem_cuts (rows : List ArmRow) (d : IntDomain) : d.max + 1 ∈ domainCuts rows d := by
  simp only [domainCuts, mem_append, mem_cons, true_or, or_true]

theorem hole_mem_cuts {h : Int × Int} (hhole : h ∈ d.hole) : h.2 + 1 ∈ domainCuts rows d := by
  have hmem : h.2 + 1 ∈ d.hole.toList.flatMap fun h => [h.1, h.2 + 1] :=
    mem_flatMap.mpr ⟨h, Option.mem_toList.mpr hhole, mem_cons_of_mem _ mem_cons_self⟩
  simp only [domainCuts, mem_append, hmem, true_or, or_true]

/-- The bounds of a range in the column are cuts. -/
theorem range_mem_cuts (hwithin : RangesWithin rows d) {row : ArmRow} (hrow : row ∈ rows)
    {lo hi : Int} {domain : Option IntDomain} (hhead : row.head = .int lo hi domain) :
    lo ∈ domainCuts rows d ∧ hi + 1 ∈ domainCuts rows d := by
  obtain ⟨-, hlo, hhi⟩ := hwithin row hrow lo hi domain hhead
  have hcuts : rangeCuts d row.head = [lo, hi + 1] := by
    rw [hhead, rangeCuts, max_eq_left hlo, min_eq_left (by omega)]
  have hmem : ∀ c ∈ [lo, hi + 1], c ∈ rows.flatMap fun row => rangeCuts d row.head :=
    fun c hc => mem_flatMap.mpr ⟨row, hrow, hcuts ▸ hc⟩
  refine ⟨?_, ?_⟩
  · exact mem_append_right _ (hmem lo mem_cons_self)
  · exact mem_append_right _ (hmem (hi + 1) (mem_cons_of_mem _ mem_cons_self))

theorem cuts_within (hwithin : RangesWithin rows d) {c : Int} (hc : c ∈ domainCuts rows d) :
    d.min ≤ c ∧ c ≤ d.max + 1 := by
  have hmin := d.min_le
  rw [domainCuts, mem_append, mem_append, mem_append] at hc
  obtain ((hc | hc) | hc) | hc := hc
  · rcases mem_pair.mp hc with rfl | rfl <;> omega
  · obtain ⟨h, hhole, hc⟩ := mem_flatMap.mp hc
    obtain ⟨hlo, hle, hhi⟩ := d.hole_within h (Option.mem_toList.mp hhole)
    rcases mem_pair.mp hc with rfl | rfl <;> omega
  · split at hc
    · obtain rfl := mem_singleton.mp hc
      omega
    · cases hc
  · obtain ⟨row, hrow, hc⟩ := mem_flatMap.mp hc
    unfold rangeCuts at hc
    split at hc
    · rename_i lo hi domain hhead
      obtain ⟨hle, hlo, hhi⟩ := hwithin row hrow lo hi domain hhead
      rcases mem_pair.mp hc with rfl | rfl <;> omega
    · cases hc

/-- A value of the domain lies in a piece of it, and a piece starts at a value of it. -/
theorem column_int (hshape : shape t = .int (some d)) (hwithin : RangesWithin rows d) :
    Column shape rows t (splitDomain rows d) where
  inOrder := by
    have hincreasing := Windows.windows_increasing (sortedCuts_increasing rows d)
    rw [InOrder, splitDomain, pairwise_map]
    exact List.Pairwise.imp (fun h => ⟨le_rfl, le_of_lt h⟩)
      (List.Pairwise.sublist filter_sublist hincreasing)
  ofMem := by
    intro ctor hctor
    obtain ⟨w, hw, hhole, rfl⟩ := mem_splitDomain.mp hctor
    obtain ⟨hlt, -⟩ := Windows.windows_gap (sortedCuts_increasing rows d) hw
    obtain ⟨hfirst, hsecond⟩ := Windows.mem_of_mem_windows hw
    have hmin := cuts_within hwithin (mem_sortedCuts.mp hfirst)
    have hmax := cuts_within hwithin (mem_sortedCuts.mp hsecond)
    exact ⟨[], .int hshape (by omega) ⟨hmin.1, by omega, hhole⟩⟩
  uncut := by
    intro ctor hctor row hrow lo hi domain a b key hhead hint hak hkb hlok hkhi
    obtain ⟨w, hw, -, rfl⟩ := mem_splitDomain.mp hctor
    obtain ⟨rfl, rfl⟩ := Ctor.int.inj hint
    obtain ⟨hlt, hgap⟩ := Windows.windows_gap (sortedCuts_increasing rows d) hw
    obtain ⟨hlo, hhi⟩ := range_mem_cuts hwithin hrow hhead
    have hgapLo := hgap lo (mem_sortedCuts.mpr hlo)
    have hgapHi := hgap (hi + 1) (mem_sortedCuts.mpr hhi)
    omega
  built := by
    intro v hv
    have hform := hv.form
    rw [hshape] at hform
    obtain ⟨key, rfl, hholds⟩ := hform
    obtain ⟨hmin, hmax, hhole⟩ := hholds d rfl
    obtain ⟨w, hw, hlo, hhi⟩ := Windows.exists_window (sortedCuts_increasing rows d)
      (mem_sortedCuts.mpr (min_mem_cuts rows d)) hmin
      (mem_sortedCuts.mpr (past_max_mem_cuts rows d)) (by omega : key < d.max + 1)
    obtain ⟨hlt, hgap⟩ := Windows.windows_gap (sortedCuts_increasing rows d) hw
    -- a piece that starts inside the hole ends inside it, and holds no value
    have houtside : d.inHole w.1 = false := by
      rw [← Bool.not_eq_true]
      intro hinside
      obtain ⟨h, hmem, hbounds⟩ := inHole_iff.mp hinside
      have hgapHole := hgap (h.2 + 1) (mem_sortedCuts.mpr (hole_mem_cuts hmem))
      have hkey : d.inHole key = true := inHole_iff.mpr ⟨h, hmem, by omega⟩
      rw [hkey] at hhole
      cases hhole
    have hctor := mem_splitDomain.mpr ⟨w, hw, houtside, rfl⟩
    have hof := cuts_within hwithin (mem_sortedCuts.mp (Windows.mem_of_mem_windows hw).1)
    have hof' := cuts_within hwithin (mem_sortedCuts.mp (Windows.mem_of_mem_windows hw).2)
    exact ⟨.int w.1 (w.2 - 1), hctor, [], [],
      .int hshape (by omega) ⟨hof.1, by omega, houtside⟩, .nil, .int hlo (by omega)⟩

end Domain

section Rows

variable (shape) in
/-- The rows fit the columns, and no head is an or-pattern. -/
structure Expanded (rows : List ArmRow) (t : τ) (ts : List τ) : Prop where
  fits : ∀ row ∈ rows, FitsAll shape row.pats (t :: ts)
  noOr : ∀ row ∈ rows, row.head.isOr = false

variable {t : τ} {ts : List τ} {rows : List ArmRow}

theorem Expanded.head (h : Expanded shape rows t ts) {row : ArmRow} (hrow : row ∈ rows) :
    ∃ head rest, row.pats = head :: rest ∧ row.head = head ∧ Fits shape head t ∧
      FitsAll shape rest ts ∧ head.isOr = false := by
  have hfits := h.fits row hrow
  have hor := h.noOr row hrow
  obtain ⟨pats, arm, guardless⟩ := row
  cases hfits with
  | cons head tail => exact ⟨_, _, rfl, rfl, head, tail, hor⟩

/-- The constructors found for a column are those of its type. -/
theorem column_of_signature (h : Expanded shape rows t ts)
    (hsignature : signature rows = some ctors) : Column shape rows t ctors := by
  cases hnamed : namedHead rows with
  | none => rw [signature, hnamed] at hsignature; cases hsignature
  | some p =>
    have hmem := mem_of_find?_eq_some hnamed
    have hsome := List.find?_some hnamed
    rw [Bool.not_eq_true', Bool.or_eq_false_iff] at hsome
    obtain ⟨row, hrow, rfl⟩ := mem_map.mp hmem
    obtain ⟨head, rest, -, hhead, hfits, -, hor⟩ := h.head hrow
    rw [hhead] at hsome hnamed
    rw [signature, hnamed] at hsignature
    have hnames := (hfits.names hsome.2 hor).resolve_left (by rw [hsome.1]; decide)
    cases hshape : shape t with
    | cases payloads =>
      rw [hshape] at hnames
      obtain ⟨cases, index, q, rfl, hcases, -⟩ := hnames
      obtain rfl := Option.some.inj hsignature
      exact column_cases hshape hcases
    | bool =>
      rw [hshape] at hnames
      obtain ⟨value, rfl⟩ := hnames
      obtain rfl := Option.some.inj hsignature
      exact column_bool hshape
    | int domain =>
      rw [hshape] at hnames
      obtain ⟨lo, hi, rfl, -⟩ := hnames
      cases domain with
      | none => cases hsignature
      | some d =>
        obtain rfl := Option.some.inj hsignature
        refine column_int hshape fun row' hrow' lo' hi' domain' hhead' => ?_
        obtain ⟨head, rest, -, hhead, hfits', -, -⟩ := h.head hrow'
        rw [hhead'] at hhead
        subst hhead
        cases hfits' with
        | int hshape' hrange hwithin =>
          obtain rfl := Shape.int.inj (hshape.symm.trans hshape')
          exact ⟨hrange, hwithin d rfl⟩
    | product types =>
      rw [hshape] at hnames
      obtain ⟨elements, rfl, helements⟩ := hnames
      obtain rfl := Option.some.inj hsignature
      rw [helements.length]
      exact column_product hshape
    | other =>
      rw [hshape] at hnames
      obtain ⟨target, rfl⟩ := hnames
      cases hsignature

end Rows

end Wado.Exhaustive
