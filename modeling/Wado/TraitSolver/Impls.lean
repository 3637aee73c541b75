/-
The impls of a program: added at ascending ids, filed by trait and by the
declaration the target names, and found again by what a question names.
-/
import Mathlib.Tactic.Tauto
import Wado.TraitSolver.Program

namespace Wado.TraitSolver

open List Option

/-- Why a call does not return: it runs on past its fuel, or an assertion fails. -/
inductive Stop where
  | fuel
  | panic
deriving DecidableEq, Repr

abbrev Run (α : Type) := Except Stop α

namespace IndexMap

variable {K V : Type} [DecidableEq K]

/-- Adds `value` to the list at `key`, an empty one where there is none. -/
def pushAt (map : IndexMap K (List V)) (key : K) (value : V) : IndexMap K (List V) :=
  if (map.lookup key).isSome then
    map.map fun entry => if entry.1 = key then (entry.1, entry.2 ++ [value]) else entry
  else map ++ [(key, [value])]

def retainAt (map : IndexMap K (List V)) (keep : V → Bool) : IndexMap K (List V) :=
  map.map fun entry => (entry.1, entry.2.filter keep)

/-- The list at `key`, empty where there is none. -/
def listAt (map : IndexMap K (List V)) (key : K) : List V :=
  (map.lookup key).getD []

theorem lookup_map (f : V → V) (map : IndexMap K V) (key : K) :
    List.lookup key (map.map fun entry => (entry.1, f entry.2)) = (map.lookup key).map f := by
  induction map with
  | nil => rfl
  | cons entry map ih =>
    rw [map_cons, lookup_cons, lookup_cons]
    by_cases h : key = entry.1
    · simp [h]
    · simp [beq_false_of_ne h, ih]

theorem lookup_map_at (f : V → V) (map : IndexMap K V) (key at_ : K) :
    List.lookup key (map.map fun entry => if entry.1 = at_ then (entry.1, f entry.2) else entry) =
      if key = at_ then (map.lookup key).map f else map.lookup key := by
  induction map with
  | nil => simp
  | cons entry map ih =>
    rw [map_cons, lookup_cons, lookup_cons]
    by_cases h : key = entry.1
    · by_cases hat : entry.1 = at_
      · simp [h, hat]
      · simp [h, hat]
    · have hmapped : (key == (if entry.1 = at_ then (entry.1, f entry.2) else entry).1) =
        false := by
        by_cases hat : entry.1 = at_
        · rw [if_pos hat]
          exact beq_false_of_ne h
        · rw [if_neg hat]
          exact beq_false_of_ne h
      rw [hmapped, beq_false_of_ne h]
      exact ih

theorem lookup_append_one (map : IndexMap K V) (key key' : K) (value : V) :
    List.lookup key (map ++ [(key', value)]) =
      (map.lookup key).or (if key = key' then some value else none) := by
  induction map with
  | nil =>
    by_cases h : key = key'
    · simp [h]
    · simp [h, lookup_cons, beq_false_of_ne h]
  | cons entry map ih =>
    rw [cons_append, lookup_cons, lookup_cons]
    by_cases h : key = entry.1
    · simp [h]
    · simp [beq_false_of_ne h, ih]

theorem listAt_pushAt (map : IndexMap K (List V)) (key key' : K) (value : V) :
    (map.pushAt key' value).listAt key = map.listAt key ++ if key = key' then [value] else [] := by
  unfold pushAt listAt
  cases hat : map.lookup key' with
  | some values =>
    rw [isSome_some, if_pos rfl, lookup_map_at (fun values => values ++ [value])]
    by_cases h : key = key'
    · rw [if_pos h, h, hat]
      simp
    · simp [h]
  | none =>
    rw [isSome_none, if_neg (by simp), lookup_append_one]
    by_cases h : key = key'
    · rw [h, hat]
      simp
    · simp [h]

theorem listAt_retainAt (map : IndexMap K (List V)) (keep : V → Bool) (key : K) :
    (map.retainAt keep).listAt key = (map.listAt key).filter keep := by
  have hmap := lookup_map (fun values : List V => values.filter keep) map key
  unfold retainAt listAt
  rw [hmap]
  cases map.lookup key with
  | none => rfl
  | some values => rfl

end IndexMap

open IndexMap

/-- The declaration a type's head names. -/
def targetHead : SolverType → Option TypeDeclId
  | .decl head _ => some head
  | _ => none

namespace ImplDef

/-- Whether a parameter or pack that the type mentions is past the impl's own. -/
def undeclared (impl : ImplDef) (ty : SolverType) : Bool :=
  ty.mentions fun p =>
    match p with
    | .param index => decide (impl.params.length ≤ index)
    | .pack index => decide (impl.params.length ≤ index)
    | _ => false

/-- Whether the target, the trait arguments or a pin mentions a parameter that
the impl does not declare. -/
def mentionsUndeclared (impl : ImplDef) : Bool :=
  impl.undeclared impl.target || impl.traitArgs.any impl.undeclared ||
    (impl.params.flatMap ParamDef.pins).any fun pin => impl.undeclared pin.ty

end ImplDef

namespace Program

/-- The id after the last. -/
def nextImplId (program : Program) : ImplId :=
  match program.impls.getLast? with
  | none => ⟨0⟩
  | some last => ⟨last.1.id + 1⟩

def pushImpl (program : Program) (impl : ImplDef) : Run (Program × ImplId) :=
  if impl.mentionsUndeclared then .error .panic
  else
    let id := program.nextImplId
    let filed : Program :=
      match impl.trait_ with
      | none => program
      | some trait_ =>
        { program with
          implsByTrait := program.implsByTrait.pushAt trait_ id
          implsByTarget := program.implsByTarget.pushAt (trait_, targetHead impl.target) id }
    .ok ({ filed with impls := program.impls ++ [(id, impl)] }, id)

/-- Puts `impl` in place of the one at `id`. -/
def replaceImpl (program : Program) (id : ImplId) (impl : ImplDef) : Run Program :=
  match program.impls.lookup id with
  | none => .error .panic
  | some old =>
    if old.trait_ = impl.trait_ ∧ targetHead old.target = targetHead impl.target then
      .ok { program with
        impls := program.impls.map fun entry => if entry.1 = id then (entry.1, impl) else entry }
    else .error .panic

def removeImpls (program : Program) (ids : List ImplId) : Program :=
  { program with
    impls := program.impls.filter fun entry => !decide (entry.1 ∈ ids)
    implsByTrait := program.implsByTrait.retainAt fun id => !decide (id ∈ ids)
    implsByTarget := program.implsByTarget.retainAt fun id => !decide (id ∈ ids) }

/-- The impls at `ids`. -/
def implsAt (program : Program) (ids : List ImplId) : List (ImplId × ImplDef) :=
  ids.filterMap fun id => (program.impls.lookup id).map fun impl => (id, impl)

/-- The impls of `trait_`, in the order they were added. -/
def implsOf (program : Program) (trait_ : TraitDeclId) : List (ImplId × ImplDef) :=
  program.implsAt (program.implsByTrait.listAt trait_)

/-- Two runs of ids merged in id order, `fuel` bounding their lengths. -/
def mergeWithin : Nat → List ImplId → List ImplId → List ImplId
  | 0, _, _ => []
  | _ + 1, [], ids => ids
  | _ + 1, ids, [] => ids
  | fuel + 1, id :: ids, id' :: ids' =>
    if id'.id < id.id then id' :: mergeWithin fuel (id :: ids) ids'
    else id :: mergeWithin fuel ids (id' :: ids')

def mergeIds (ids ids' : List ImplId) : List ImplId :=
  mergeWithin (ids.length + ids'.length) ids ids'

/-- The impls of `trait_` whose target could match `ty`, in the order they were
added: those filed under no declaration and under the type's, or all of them for
an open row. -/
def implsFor (program : Program) (trait_ : TraitDeclId) (ty : SolverType) :
    List (ImplId × ImplDef) :=
  if ty = .anyRow then program.implsOf trait_
  else
    let ids := fun head => program.implsByTarget.listAt (trait_, head)
    let named :=
      match targetHead ty with
      | none => []
      | some head => ids (some head)
    program.implsAt (mergeIds (ids none) named)

end Program

/-- The programs that pushing, replacing and removing impls builds, whatever the
tables beside them hold. -/
inductive Built : Program → Prop
  | empty {program : Program} (himpls : program.impls = []) (htrait : program.implsByTrait = [])
      (htarget : program.implsByTarget = []) : Built program
  | tables {program program' : Program} (h : Built program)
      (himpls : program'.impls = program.impls)
      (htrait : program'.implsByTrait = program.implsByTrait)
      (htarget : program'.implsByTarget = program.implsByTarget) : Built program'
  | push {program program' : Program} {impl : ImplDef} {id : ImplId} (h : Built program)
      (hpush : program.pushImpl impl = .ok (program', id)) : Built program'
  | replace {program program' : Program} {impl : ImplDef} {id : ImplId} (h : Built program)
      (hdeclared : impl.mentionsUndeclared = false)
      (hreplace : program.replaceImpl id impl = .ok program') : Built program'
  | remove {program : Program} (h : Built program) (ids : List ImplId) :
      Built (program.removeImpls ids)

/-- What building keeps: ascending ids, each filed under its trait and target, of
impls that mention the parameters they declare. -/
structure Indexed (program : Program) : Prop where
  ascending : program.impls.Pairwise fun entry entry' => entry.1.id < entry'.1.id
  declared : ∀ id impl, (id, impl) ∈ program.impls → impl.mentionsUndeclared = false
  byTrait : ∀ trait_ id, id ∈ program.implsByTrait.listAt trait_ ↔
    ∃ impl, (id, impl) ∈ program.impls ∧ impl.trait_ = some trait_
  byTarget : ∀ trait_ head id, id ∈ program.implsByTarget.listAt (trait_, head) ↔
    ∃ impl, (id, impl) ∈ program.impls ∧ impl.trait_ = some trait_ ∧ targetHead impl.target = head

section Lookup

variable {impls : IndexMap ImplId ImplDef} {id : ImplId} {impl : ImplDef}

theorem lookup_of_mem (hascending : impls.Pairwise fun entry entry' => entry.1.id < entry'.1.id)
    (h : (id, impl) ∈ impls) : impls.lookup id = some impl := by
  induction impls with
  | nil => cases h
  | cons entry impls ih =>
    rw [lookup_cons]
    rcases mem_cons.mp h with rfl | hmem
    · simp
    · have hlt := rel_of_pairwise_cons hascending hmem
      have hne : id ≠ entry.1 := by
        rintro rfl
        exact absurd hlt (by simp)
      rw [beq_false_of_ne hne]
      exact ih hascending.of_cons hmem

theorem mem_of_lookup (h : impls.lookup id = some impl) : (id, impl) ∈ impls := by
  induction impls with
  | nil => cases h
  | cons entry impls ih =>
    rw [lookup_cons] at h
    by_cases hid : id = entry.1
    · rw [hid] at h ⊢
      simp only [BEq.rfl, Option.some.injEq] at h
      rw [← h]
      exact mem_cons_self
    · rw [beq_false_of_ne hid] at h
      exact mem_cons_of_mem _ (ih h)

theorem mem_mergeWithin (fuel : Nat) : ∀ ids ids' : List ImplId, ids.length + ids'.length ≤ fuel →
    (id ∈ Program.mergeWithin fuel ids ids' ↔ id ∈ ids ∨ id ∈ ids') := by
  induction fuel with
  | zero =>
    intro ids ids' hlen
    rw [eq_nil_of_length_eq_zero (show ids.length = 0 by omega),
      eq_nil_of_length_eq_zero (show ids'.length = 0 by omega)]
    simp [Program.mergeWithin]
  | succ fuel ih =>
    intro ids ids' hlen
    cases ids with
    | nil => simp [Program.mergeWithin]
    | cons first ids =>
      cases ids' with
      | nil => simp [Program.mergeWithin]
      | cons first' ids' =>
        rw [length_cons, length_cons] at hlen
        rw [Program.mergeWithin]
        split
        · rw [mem_cons, ih _ _ (by rw [length_cons]; omega)]
          simp only [mem_cons]
          tauto
        · rw [mem_cons, ih _ _ (by rw [length_cons]; omega)]
          simp only [mem_cons]
          tauto

theorem mem_mergeIds {ids ids' : List ImplId} :
    id ∈ Program.mergeIds ids ids' ↔ id ∈ ids ∨ id ∈ ids' :=
  mem_mergeWithin _ ids ids' (Nat.le_refl _)

end Lookup

variable {id : ImplId} {impl : ImplDef}

namespace Indexed

variable {program : Program}

theorem mem_implsAt (h : Indexed program) {ids : List ImplId} :
    (id, impl) ∈ program.implsAt ids ↔ id ∈ ids ∧ (id, impl) ∈ program.impls := by
  unfold Program.implsAt
  rw [mem_filterMap]
  constructor
  · rintro ⟨id', hid, hat⟩
    obtain ⟨impl', hlookup, heq⟩ := map_eq_some_iff.mp hat
    cases heq
    exact ⟨hid, mem_of_lookup hlookup⟩
  · rintro ⟨hid, hmem⟩
    exact ⟨id, hid, by rw [lookup_of_mem h.ascending hmem]; rfl⟩

theorem impl_unique (h : Indexed program) {impl impl' : ImplDef}
    (hmem : (id, impl) ∈ program.impls) (hmem' : (id, impl') ∈ program.impls) : impl = impl' := by
  have hlookup := lookup_of_mem h.ascending hmem
  rw [lookup_of_mem h.ascending hmem'] at hlookup
  exact (Option.some.inj hlookup).symm

/-- What a question's scan finds: the impls of the trait whose target names no
declaration, or the type's own, or any where the type is an open row. -/
theorem mem_implsFor (h : Indexed program) {trait_ : TraitDeclId} {ty : SolverType} :
    (id, impl) ∈ program.implsFor trait_ ty ↔
      (id, impl) ∈ program.impls ∧ impl.trait_ = some trait_ ∧
        (ty = .anyRow ∨ targetHead impl.target = none ∨
          targetHead impl.target = targetHead ty) := by
  unfold Program.implsFor
  by_cases hopen : ty = .anyRow
  · rw [if_pos hopen, Program.implsOf, h.mem_implsAt, h.byTrait]
    constructor
    · rintro ⟨⟨impl', hmem', htrait⟩, hmem⟩
      cases h.impl_unique hmem hmem'
      exact ⟨hmem, htrait, Or.inl hopen⟩
    · rintro ⟨hmem, htrait, _⟩
      exact ⟨⟨impl, hmem, htrait⟩, hmem⟩
  · rw [if_neg hopen, h.mem_implsAt, mem_mergeIds]
    have hnamed : ∀ head, id ∈ program.implsByTarget.listAt (trait_, head) →
        (id, impl) ∈ program.impls → impl.trait_ = some trait_ ∧ targetHead impl.target = head := by
      intro head hid hmem
      obtain ⟨impl', hmem', htrait, hhead⟩ := (h.byTarget trait_ head id).mp hid
      cases h.impl_unique hmem hmem'
      exact ⟨htrait, hhead⟩
    constructor
    · rintro ⟨hid | hid, hmem⟩
      · obtain ⟨htrait, hhead⟩ := hnamed none hid hmem
        exact ⟨hmem, htrait, Or.inr (Or.inl hhead)⟩
      · cases hhead' : targetHead ty with
        | none =>
          rw [hhead'] at hid
          cases hid
        | some head =>
          rw [hhead'] at hid
          obtain ⟨htrait, hhead⟩ := hnamed (some head) hid hmem
          exact ⟨hmem, htrait, Or.inr (Or.inr hhead)⟩
    · rintro ⟨hmem, htrait, hrow | hhead | hhead⟩
      · exact absurd hrow hopen
      · exact ⟨Or.inl ((h.byTarget trait_ none id).mpr ⟨impl, hmem, htrait, hhead⟩), hmem⟩
      · have hid := (h.byTarget trait_ (targetHead ty) id).mpr ⟨impl, hmem, htrait, hhead⟩
        refine ⟨?_, hmem⟩
        cases hhead' : targetHead ty with
        | none =>
          rw [hhead'] at hid
          exact Or.inl hid
        | some head =>
          rw [hhead'] at hid
          exact Or.inr hid

end Indexed

section Steps

variable {program program' : Program}

theorem lt_nextImplId (h : Indexed program)
    (hmem : (id, impl) ∈ program.impls) : id.id < program.nextImplId.id := by
  unfold Program.nextImplId
  cases hlast : program.impls.getLast? with
  | none =>
    rw [List.getLast?_eq_none_iff.mp hlast] at hmem
    cases hmem
  | some last =>
    obtain ⟨front, hfront⟩ := List.getLast?_eq_some_iff.mp hlast
    have hascending := h.ascending
    rw [hfront] at hmem hascending
    rcases mem_append.mp hmem with hin | hin
    · have hlt := (pairwise_append.mp hascending).2.2 _ hin last (by simp)
      exact Nat.lt_succ_of_lt hlt
    · rw [← mem_singleton.mp hin]
      exact Nat.lt_succ_self _

theorem Indexed.push (h : Indexed program) {impl : ImplDef} {id : ImplId}
    (hpush : program.pushImpl impl = .ok (program', id)) : Indexed program' := by
  unfold Program.pushImpl at hpush
  by_cases hmentions : impl.mentionsUndeclared
  · rw [if_pos hmentions] at hpush
    cases hpush
  rw [if_neg hmentions] at hpush
  have himpls : program'.impls = program.impls ++ [(program.nextImplId, impl)] := by
    cases htrait : impl.trait_ <;> (rw [htrait] at hpush; cases hpush; rfl)
  have htraits : ∀ trait_, program'.implsByTrait.listAt trait_ =
      program.implsByTrait.listAt trait_ ++
        if impl.trait_ = some trait_ then [program.nextImplId] else [] := by
    intro trait_
    cases htrait : impl.trait_ with
    | none =>
      rw [htrait] at hpush
      cases hpush
      simp
    | some trait_' =>
      rw [htrait] at hpush
      cases hpush
      simp only [listAt_pushAt, Option.some.injEq, eq_comm]
  have htargets : ∀ trait_ head, program'.implsByTarget.listAt (trait_, head) =
      program.implsByTarget.listAt (trait_, head) ++
        if impl.trait_ = some trait_ ∧ targetHead impl.target = head then [program.nextImplId]
        else [] := by
    intro trait_ head
    cases htrait : impl.trait_ with
    | none =>
      rw [htrait] at hpush
      cases hpush
      simp
    | some trait_' =>
      rw [htrait] at hpush
      cases hpush
      simp only [listAt_pushAt, Option.some.injEq, Prod.mk.injEq, eq_comm]
  have hmem : ∀ id' impl', (id', impl') ∈ program'.impls ↔
      (id', impl') ∈ program.impls ∨ (id' = program.nextImplId ∧ impl' = impl) := by
    intro id' impl'
    rw [himpls]
    simp
  refine ⟨?_, ?_, ?_, ?_⟩
  · rw [himpls, pairwise_append]
    refine ⟨h.ascending, pairwise_singleton _ _, ?_⟩
    rintro ⟨id', impl'⟩ hin entry hentry
    rw [mem_singleton.mp hentry]
    exact lt_nextImplId h hin
  · intro id' impl' hin
    rcases (hmem id' impl').mp hin with hold | ⟨-, rfl⟩
    · exact h.declared id' impl' hold
    · simpa using hmentions
  · intro trait_ id'
    rw [htraits, mem_append, h.byTrait]
    constructor
    · rintro (⟨impl', hin, htrait⟩ | hnew)
      · exact ⟨impl', (hmem _ _).mpr (Or.inl hin), htrait⟩
      · by_cases htrait : impl.trait_ = some trait_
        · rw [if_pos htrait] at hnew
          exact ⟨impl, (hmem _ _).mpr (Or.inr ⟨mem_singleton.mp hnew, rfl⟩), htrait⟩
        · rw [if_neg htrait] at hnew
          cases hnew
    · rintro ⟨impl', hin, htrait⟩
      rcases (hmem _ _).mp hin with hold | ⟨rfl, rfl⟩
      · exact Or.inl ⟨impl', hold, htrait⟩
      · rw [if_pos htrait]
        exact Or.inr (mem_singleton_self _)
  · intro trait_ head id'
    rw [htargets, mem_append, h.byTarget]
    constructor
    · rintro (⟨impl', hin, hfiled⟩ | hnew)
      · exact ⟨impl', (hmem _ _).mpr (Or.inl hin), hfiled⟩
      · by_cases hfiled : impl.trait_ = some trait_ ∧ targetHead impl.target = head
        · rw [if_pos hfiled] at hnew
          exact ⟨impl, (hmem _ _).mpr (Or.inr ⟨mem_singleton.mp hnew, rfl⟩), hfiled⟩
        · rw [if_neg hfiled] at hnew
          cases hnew
    · rintro ⟨impl', hin, hfiled⟩
      rcases (hmem _ _).mp hin with hold | ⟨rfl, rfl⟩
      · exact Or.inl ⟨impl', hold, hfiled⟩
      · rw [if_pos hfiled]
        exact Or.inr (mem_singleton_self _)

theorem Indexed.replace (h : Indexed program) (hdeclared : impl.mentionsUndeclared = false)
    (hreplace : program.replaceImpl id impl = .ok program') : Indexed program' := by
  unfold Program.replaceImpl at hreplace
  cases hlookup : program.impls.lookup id with
  | none =>
    rw [hlookup] at hreplace
    cases hreplace
  | some old =>
    rw [hlookup] at hreplace
    dsimp only at hreplace
    by_cases hsame : old.trait_ = impl.trait_ ∧ targetHead old.target = targetHead impl.target
    · rw [if_pos hsame] at hreplace
      cases hreplace
      have hold := mem_of_lookup hlookup
      -- An id's impl keeps what it is filed under.
      have hfiled : ∀ id' (P : Option TraitDeclId → Option TypeDeclId → Prop),
          (∃ impl', (id', impl') ∈ program.impls.map (fun entry =>
              if entry.1 = id then (entry.1, impl) else entry) ∧
            P impl'.trait_ (targetHead impl'.target)) ↔
          ∃ impl', (id', impl') ∈ program.impls ∧ P impl'.trait_ (targetHead impl'.target) := by
        intro id' P
        simp only [List.mem_map]
        constructor
        · rintro ⟨impl', ⟨⟨id'', impl''⟩, hin, heq⟩, hP⟩
          by_cases hid : id'' = id
          · rw [if_pos hid] at heq
            cases heq
            rw [hid]
            rw [← hsame.1, ← hsame.2] at hP
            exact ⟨old, hold, hP⟩
          · rw [if_neg hid] at heq
            cases heq
            exact ⟨impl', hin, hP⟩
        · rintro ⟨impl', hin, hP⟩
          by_cases hid : id' = id
          · cases hid
            rw [h.impl_unique hin hold, hsame.1, hsame.2] at hP
            exact ⟨impl, ⟨(id, old), hold, if_pos rfl⟩, hP⟩
          · exact ⟨impl', ⟨(id', impl'), hin, if_neg hid⟩, hP⟩
      refine ⟨?_, ?_, ?_, ?_⟩
      · rw [pairwise_map]
        refine h.ascending.imp ?_
        intro entry entry' hlt
        split <;> split <;> exact hlt
      · intro id' impl' hin
        obtain ⟨⟨id'', impl''⟩, hin', heq⟩ := mem_map.mp hin
        by_cases hid : id'' = id
        · rw [if_pos hid] at heq
          cases heq
          exact hdeclared
        · rw [if_neg hid] at heq
          cases heq
          exact h.declared _ _ hin'
      · intro trait_ id'
        exact (h.byTrait trait_ id').trans (hfiled id' fun t _ => t = some trait_).symm
      · intro trait_ head id'
        exact (h.byTarget trait_ head id').trans
          (hfiled id' fun t target => t = some trait_ ∧ target = head).symm
    · rw [if_neg hsame] at hreplace
      cases hreplace

theorem Indexed.remove (h : Indexed program) (ids : List ImplId) :
    Indexed (program.removeImpls ids) := by
  have hmem : ∀ id impl, (id, impl) ∈ (program.removeImpls ids).impls ↔
      (id, impl) ∈ program.impls ∧ id ∉ ids := by
    intro id impl
    simp [Program.removeImpls]
  refine ⟨h.ascending.filter _, ?_, ?_, ?_⟩
  · intro id impl hin
    exact h.declared id impl ((hmem id impl).mp hin).1
  · intro trait_ id
    show id ∈ (program.implsByTrait.retainAt _).listAt trait_ ↔ _
    rw [listAt_retainAt, mem_filter, h.byTrait]
    constructor
    · rintro ⟨⟨impl, hin, htrait⟩, hkept⟩
      exact ⟨impl, (hmem _ _).mpr ⟨hin, by simpa using hkept⟩, htrait⟩
    · rintro ⟨impl, hin, htrait⟩
      obtain ⟨hin, hkept⟩ := (hmem _ _).mp hin
      exact ⟨⟨impl, hin, htrait⟩, by simpa using hkept⟩
  · intro trait_ head id
    show id ∈ (program.implsByTarget.retainAt _).listAt (trait_, head) ↔ _
    rw [listAt_retainAt, mem_filter, h.byTarget]
    constructor
    · rintro ⟨⟨impl, hin, hfiled⟩, hkept⟩
      exact ⟨impl, (hmem _ _).mpr ⟨hin, by simpa using hkept⟩, hfiled⟩
    · rintro ⟨impl, hin, hfiled⟩
      obtain ⟨hin, hkept⟩ := (hmem _ _).mp hin
      exact ⟨⟨impl, hin, hfiled⟩, by simpa using hkept⟩

theorem Built.indexed (h : Built program) : Indexed program := by
  induction h with
  | empty himpls htrait htarget =>
    refine ⟨?_, ?_, ?_, ?_⟩
    · rw [himpls]
      exact List.Pairwise.nil
    · intro id impl hin
      rw [himpls] at hin
      cases hin
    · intro trait_ id
      rw [himpls, htrait]
      simp [listAt]
    · intro trait_ head id
      rw [himpls, htarget]
      simp [listAt]
  | tables _ himpls htrait htarget ih =>
    refine ⟨himpls ▸ ih.ascending, himpls ▸ ih.declared, ?_, ?_⟩
    · intro trait_ id
      rw [himpls, htrait]
      exact ih.byTrait trait_ id
    · intro trait_ head id
      rw [himpls, htarget]
      exact ih.byTarget trait_ head id
  | push _ hpush ih => exact ih.push hpush
  | replace _ hdeclared hreplace ih => exact ih.replace hdeclared hreplace
  | remove _ ids ih => exact ih.remove ids

end Steps

end Wado.TraitSolver
