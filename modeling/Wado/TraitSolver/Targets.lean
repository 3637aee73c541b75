/-
Matching is exact: an impl target matches a type where some substitution for its parameters
and packs gives the type, and what the match binds is that substitution.
-/
import Wado.TraitSolver.Matching

namespace Wado.TraitSolver

open List Option Matched

namespace SolverType

def isPack : SolverType → Bool
  | .pack _ => true
  | _ => false

mutual

/-- The parameters and packs that a type is made of, in order. -/
def leaves : SolverType → List SolverType
  | .param index => [.param index]
  | .pack index => [.pack index]
  | .anyRow => []
  | .decl _ inner => leavesAll inner
  | .tuple inner => leavesAll inner
  | .ref _ inner => leaves inner
  | .projection base _ _ args => leaves base ++ leavesAll args

def leavesAll : List SolverType → List SolverType
  | [] => []
  | ty :: tys => leaves ty ++ leavesAll tys

end

mutual

/-- A target without projections and open rows, whose packs are arguments of declarations
or end tuples. -/
def matchable : SolverType → Bool
  | .param _ => true
  | .decl _ args => matchableArgs args
  | .ref _ inner => matchable inner
  | .tuple elems => matchableElems elems
  | _ => false

def matchableArgs : List SolverType → Bool
  | [] => true
  | arg :: args => (arg.isPack || matchable arg) && matchableArgs args

def matchableElems : List SolverType → Bool
  | [] => true
  | elem :: elems => (elem.isPack && elems.isEmpty || matchable elem) && matchableElems elems

end

mutual

/-- Whether an open row of the type faces a part of the target that is no parameter. -/
def facesRow : SolverType → SolverType → Bool
  | .param _, _ => false
  | _, .anyRow => true
  | .decl _ args, .decl _ tyArgs => facesRowArgs args tyArgs
  | .ref _ inner, .ref _ tyInner => facesRow inner tyInner
  | .tuple elems, .tuple tyElems => facesRowElems elems tyElems
  | _, _ => false

def facesRowArgs : List SolverType → List SolverType → Bool
  | arg :: args, ty :: tys => facesRow arg ty || facesRowArgs args tys
  | _, _ => false

def facesRowElems : List SolverType → List SolverType → Bool
  | [.pack _], _ => false
  | elem :: elems, ty :: tys => facesRow elem ty || facesRowElems elems tys
  | _, _ => false

end

/-- The target with a type for each parameter and a run of elements for each pack. -/
def instantiate (subst : Nat → Binding) (target : SolverType) : Option SolverType :=
  target.mapParams fun i => some (subst i).asType

end SolverType

open SolverType

/-- A substitution gives parameters types and packs runs of elements. -/
structure Fits (subst : Nat → Binding) (leaves : List SolverType) : Prop where
  param : ∀ i, .param i ∈ leaves → ∃ ty, subst i = .one ty
  pack : ∀ i, .pack i ∈ leaves → ∃ elems, subst i = .pack elems

/-- The target of an impl with so many parameters.  A position is a parameter or a pack, and
a pack is written once. -/
structure ImplTarget (params : Nat) where
  ty : SolverType
  matchable : ty.matchable = true
  declared : ∀ i, .param i ∈ ty.leaves ∨ .pack i ∈ ty.leaves → i < params
  kinds : ∀ i, .param i ∈ ty.leaves → .pack i ∉ ty.leaves
  once : (ty.leaves.filter SolverType.isPack).Nodup

variable {first rest : List SolverType}

theorem mem_leaves_left {i : Nat}
    (h : .param i ∈ first ∨ .pack i ∈ first) : .param i ∈ first ++ rest ∨ .pack i ∈ first ++ rest :=
  h.imp (mem_append_left _) (mem_append_left _)

theorem mem_leaves_right {i : Nat}
    (h : .param i ∈ rest ∨ .pack i ∈ rest) : .param i ∈ first ++ rest ∨ .pack i ∈ first ++ rest :=
  h.imp (mem_append_right _) (mem_append_right _)

theorem Fits.left {subst : Nat → Binding} {first rest : List SolverType}
    (h : Fits subst (first ++ rest)) : Fits subst first :=
  ⟨fun i hi => h.param i (mem_append_left _ hi),
    fun i hi => h.pack i (mem_append_left _ hi)⟩

theorem Fits.right {subst : Nat → Binding} {first rest : List SolverType}
    (h : Fits subst (first ++ rest)) : Fits subst rest :=
  ⟨fun i hi => h.param i (mem_append_right _ hi),
    fun i hi => h.pack i (mem_append_right _ hi)⟩

theorem eq_pack {ty : SolverType} (h : ty.isPack = true) : ∃ index, ty = .pack index := by
  cases ty with
  | pack index => exact ⟨index, rfl⟩
  | _ => cases h

variable {state : Matched} {index : Nat} {binding : Binding}

namespace Matched

theorem bindingAt_bind_self (h : index < state.bindings.length) :
    (state.bind index binding).bindingAt index = some binding := by
  unfold bindingAt bind
  rw [List.getElem?_set_self h]
  rfl

theorem bindingAt_bind_ne {index i : Nat} (h : index ≠ i) :
    (state.bind index binding).bindingAt i = state.bindingAt i := by
  unfold bindingAt bind
  rw [List.getElem?_set_ne h]

theorem length_bind (state : Matched) (index : Nat) (binding : Binding) :
    (state.bind index binding).bindings.length = state.bindings.length := length_set

end Matched

variable {arg : Nat → Option SolverType}

section Lists

theorem matchElems_pack (index : Nat) (tys : List SolverType) (state : Matched) :
    matchElems [.pack index] tys state = some (state.bind index (.pack tys)) := by
  rw [matchElems]

variable {elem : SolverType}

section

variable (helem : elem.matchable = true)
include helem

section

variable (elems : List SolverType)
include elems

theorem matchElems_cons (ty : SolverType) (tys : List SolverType) (state : Matched) :
    matchElems (elem :: elems) (ty :: tys) state =
      (matchTarget elem ty state).bind (matchElems elems tys) := by
  rw [matchElems]
  intro index hpack _
  rw [hpack] at helem
  cases helem

theorem matchElems_cons_nil (state : Matched) : matchElems (elem :: elems) [] state = none := by
  cases elem with
  | pack index => cases helem
  | _ => simp [matchElems]

theorem facesRowElems_cons (ty : SolverType) (tys : List SolverType) :
    facesRowElems (elem :: elems) (ty :: tys) = (facesRow elem ty || facesRowElems elems tys) := by
  cases elem with
  | pack index => cases helem
  | _ => simp [facesRowElems]

end

theorem mapElems_cons (arg : Nat → Option SolverType) (elems : List SolverType) :
    mapElems arg (elem :: elems) =
      (mapParams arg elem).bind fun mapped => (mapElems arg elems).map (mapped :: ·) := by
  rw [mapElems]
  cases elem with
  | pack index => cases helem
  | _ => rfl

end

theorem mapElems_pack {elems : List SolverType}
    (h : arg index = some (.tuple elems)) : mapElems arg [.pack index] = some elems := by
  rw [mapElems, mapElems, mapParams, h]
  exact congrArg some (append_nil elems)

end Lists

variable {state mid state' : Matched}

section Complete

variable {subst : Nat → Binding}

/-- A match that binds `leaves` as `subst` has them, and all else stays. -/
structure Takes (subst : Nat → Binding) (leaves : List SolverType) (state state' : Matched) :
    Prop where
  agrees : ∀ i binding, state'.bindingAt i = some binding → subst i = binding
  kept : ∀ i binding, state.bindingAt i = some binding → state'.bindingAt i = some binding
  bound : ∀ i, .param i ∈ leaves ∨ .pack i ∈ leaves → state'.bindingAt i = some (subst i)
  length : state'.bindings.length = state.bindings.length

theorem Takes.trans (h : Takes subst first state mid) (h' : Takes subst rest mid state') :
    Takes subst (first ++ rest) state state' := by
  refine ⟨h'.agrees, fun i binding hi => h'.kept i binding (h.kept i binding hi), ?_,
    h'.length.trans h.length⟩
  intro i hi
  rw [mem_append, mem_append] at hi
  rcases hi with (hi | hi) | (hi | hi)
  · exact h'.kept i _ (h.bound i (.inl hi))
  · exact h'.bound i (.inl hi)
  · exact h'.kept i _ (h.bound i (.inr hi))
  · exact h'.bound i (.inr hi)

/-- Binding an index to what the substitution has there. -/
theorem Takes.bind {leaf : SolverType}
    (hleaf : leaf = .param index ∨ leaf = .pack index) (hlt : index < state.bindings.length)
    (hagrees : ∀ i binding, state.bindingAt i = some binding → subst i = binding) :
    Takes subst [leaf] state (state.bind index (subst index)) := by
  refine ⟨?_, ?_, ?_, length_bind _ _ _⟩
  · intro i binding hi
    by_cases heq : index = i
    · subst heq
      rw [bindingAt_bind_self hlt] at hi
      exact Option.some.inj hi
    · rw [bindingAt_bind_ne heq] at hi
      exact hagrees i binding hi
  · intro i binding hi
    by_cases heq : index = i
    · subst heq
      rw [bindingAt_bind_self hlt, hagrees index binding hi]
    · rw [bindingAt_bind_ne heq]
      exact hi
  · intro i hi
    have heq : index = i := by
      rcases hleaf with rfl | rfl
      · simpa [eq_comm] using hi
      · simpa [eq_comm] using hi
    subst heq
    exact bindingAt_bind_self hlt

mutual

/-- A target that a substitution makes the type matches it, binding what that has. -/
theorem matchTarget_complete : ∀ {target ty : SolverType} {state : Matched},
    (target.isPack || target.matchable) = true → Fits subst target.leaves →
    (∀ i, .param i ∈ target.leaves ∨ .pack i ∈ target.leaves → i < state.bindings.length) →
    (∀ i binding, state.bindingAt i = some binding → subst i = binding) →
    target.instantiate subst = some ty →
    ∃ state', matchTarget target ty state = some state' ∧ Takes subst target.leaves state state'
  | .param index, ty, state, _, hfits, hlt, hagrees, hmap => by
    obtain ⟨bound, hbound⟩ := hfits.param index (mem_singleton_self _)
    have hty : bound = ty := by
      rw [instantiate, mapParams, hbound] at hmap
      exact Option.some.inj hmap
    subst hty
    have htakes := Takes.bind (.inl rfl) (hlt index (.inl (mem_singleton_self _))) hagrees
    rw [matchTarget]
    cases hslot : state.bindingAt index with
    | none =>
      refine ⟨_, rfl, ?_⟩
      rw [← hbound]
      exact htakes
    | some binding =>
      have hone : binding = .one bound := (hagrees index binding hslot).symm.trans hbound
      refine ⟨state, if_pos hone, ⟨hagrees, fun _ _ h => h, ?_, rfl⟩⟩
      intro i hi
      have heq : i = index := by simpa [leaves] using hi
      rw [heq, hslot, hagrees index binding hslot]
  | .pack index, ty, state, _, hfits, hlt, hagrees, hmap => by
    obtain ⟨run, hrun⟩ := hfits.pack index (mem_singleton_self _)
    have hty : SolverType.tuple run = ty := by
      rw [instantiate, mapParams, hrun] at hmap
      exact Option.some.inj hmap
    subst hty
    refine ⟨_, matchTarget.eq_def .., ?_⟩
    rw [← hrun]
    exact Takes.bind (.inr rfl) (hlt index (.inr (mem_singleton_self _))) hagrees
  | .decl head args, ty, state, hform, hfits, hlt, hagrees, hmap => by
    rw [instantiate, mapParams] at hmap
    obtain ⟨tyArgs, hargs, rfl⟩ := map_eq_some_iff.mp hmap
    obtain ⟨hlength, state', hmatch, htakes⟩ :=
      matchEach_complete hform hfits hlt hagrees hargs
    refine ⟨state', ?_, htakes⟩
    rw [matchTarget, if_pos ⟨rfl, hlength⟩]
    exact hmatch
  | .ref isMut inner, ty, state, hform, hfits, hlt, hagrees, hmap => by
    rw [instantiate, mapParams] at hmap
    obtain ⟨tyInner, hinner, rfl⟩ := map_eq_some_iff.mp hmap
    obtain ⟨state', hmatch, htakes⟩ := @matchTarget_complete inner tyInner state
      (Bool.or_eq_true_iff.mpr (.inr hform)) hfits hlt hagrees hinner
    refine ⟨state', ?_, htakes⟩
    rw [matchTarget, if_pos rfl]
    exact hmatch
  | .tuple elems, ty, state, hform, hfits, hlt, hagrees, hmap => by
    rw [instantiate, mapParams] at hmap
    obtain ⟨tyElems, helems, rfl⟩ := map_eq_some_iff.mp hmap
    obtain ⟨state', hmatch, htakes⟩ := matchElems_complete hform hfits hlt hagrees helems
    refine ⟨state', ?_, htakes⟩
    rw [matchTarget]
    exact hmatch
  | .projection _ _ _ _, _, _, hform, _, _, _, _ => by cases hform
  | .anyRow, _, _, hform, _, _, _, _ => by cases hform

theorem matchEach_complete : ∀ {targets tys : List SolverType} {state : Matched},
    matchableArgs targets = true → Fits subst (leavesAll targets) →
    (∀ i, .param i ∈ leavesAll targets ∨ .pack i ∈ leavesAll targets → i < state.bindings.length) →
    (∀ i binding, state.bindingAt i = some binding → subst i = binding) →
    mapEach (fun i => some (subst i).asType) targets = some tys →
    targets.length = tys.length ∧ ∃ state', matchEach targets tys state = some state' ∧
      Takes subst (leavesAll targets) state state'
  | [], tys, state, _, _, _, hagrees, hmap => by
    rw [mapEach] at hmap
    obtain rfl := Option.some.inj hmap
    refine ⟨rfl, state, by simp [matchEach], hagrees, fun _ _ h => h, ?_, rfl⟩
    intro i hi
    simp [leavesAll] at hi
  | target :: targets, tys, state, hform, hfits, hlt, hagrees, hmap => by
    rw [matchableArgs, Bool.and_eq_true_iff] at hform
    rw [mapEach] at hmap
    obtain ⟨ty, hty, hmap⟩ := bind_eq_some_iff.mp hmap
    obtain ⟨rest, hrest, rfl⟩ := map_eq_some_iff.mp hmap
    obtain ⟨mid, hmid, htakes⟩ := @matchTarget_complete target ty state hform.1
      (hfits.left) (fun i hi => hlt i (mem_leaves_left hi)) hagrees hty
    obtain ⟨hlength, state', hmatch, htakes'⟩ := matchEach_complete hform.2
      (hfits.right) (fun i hi => htakes.length ▸ hlt i (mem_leaves_right hi))
      htakes.agrees hrest
    refine ⟨congrArg (· + 1) hlength, state', ?_, htakes.trans htakes'⟩
    rw [matchEach, hmid]
    exact hmatch

theorem matchElems_complete : ∀ {targets tys : List SolverType} {state : Matched},
    matchableElems targets = true → Fits subst (leavesAll targets) →
    (∀ i, .param i ∈ leavesAll targets ∨ .pack i ∈ leavesAll targets → i < state.bindings.length) →
    (∀ i binding, state.bindingAt i = some binding → subst i = binding) →
    mapElems (fun i => some (subst i).asType) targets = some tys →
    ∃ state', matchElems targets tys state = some state' ∧
      Takes subst (leavesAll targets) state state'
  | [], tys, state, _, _, _, hagrees, hmap => by
    rw [mapElems] at hmap
    obtain rfl := Option.some.inj hmap
    refine ⟨state, by simp [matchElems], hagrees, fun _ _ h => h, ?_, rfl⟩
    intro i hi
    simp [leavesAll] at hi
  | target :: targets, tys, state, hform, hfits, hlt, hagrees, hmap => by
    rw [matchableElems, Bool.and_eq_true_iff] at hform
    rcases Bool.or_eq_true_iff.mp hform.1 with hpack | hplain
    · rw [Bool.and_eq_true_iff, List.isEmpty_iff] at hpack
      obtain ⟨index, rfl⟩ := eq_pack hpack.1
      obtain rfl := hpack.2
      obtain ⟨run, hrun⟩ := hfits.pack index (by simp [leavesAll, leaves])
      rw [mapElems_pack (congrArg (fun b => some (Binding.asType b)) hrun)] at hmap
      obtain rfl := Option.some.inj hmap
      refine ⟨_, matchElems_pack index run state, ?_⟩
      rw [← hrun]
      exact Takes.bind (.inr rfl) (hlt index (.inr (by simp [leavesAll, leaves]))) hagrees
    · rw [mapElems_cons hplain] at hmap
      obtain ⟨ty, hty, hmap⟩ := bind_eq_some_iff.mp hmap
      obtain ⟨rest, hrest, rfl⟩ := map_eq_some_iff.mp hmap
      obtain ⟨mid, hmid, htakes⟩ := @matchTarget_complete target ty state
        (Bool.or_eq_true_iff.mpr (.inr hplain))
        (hfits.left) (fun i hi => hlt i (mem_leaves_left hi)) hagrees hty
      obtain ⟨state', hmatch, htakes'⟩ := matchElems_complete hform.2
        (hfits.right) (fun i hi => htakes.length ▸ hlt i (mem_leaves_right hi))
        htakes.agrees hrest
      refine ⟨state', ?_, htakes.trans htakes'⟩
      rw [matchElems_cons hplain, hmid]
      exact hmatch

end

end Complete

section Sound

/-- What a match binds: each leaf, as its kind has it, and nothing else. -/
structure Binds (leaves : List SolverType) (state state' : Matched) : Prop where
  kept : ∀ i binding, state.bindingAt i = some binding → state'.bindingAt i = some binding
  new : ∀ i binding, state'.bindingAt i = some binding → state.bindingAt i = some binding ∨
    (.param i ∈ leaves ∧ ∃ ty, binding = .one ty) ∨
    (.pack i ∈ leaves ∧ ∃ elems, binding = .pack elems)
  bound : ∀ i, .param i ∈ leaves ∨ .pack i ∈ leaves → ∃ binding, state'.bindingAt i = some binding
  length : state'.bindings.length = state.bindings.length
  deferred : state'.deferred = state.deferred

theorem Binds.refl (state : Matched) : Binds [] state state := by
  refine ⟨fun _ _ h => h, fun _ _ h => .inl h, ?_, rfl, rfl⟩
  rintro i (h | h)
  · cases h
  · cases h

theorem Binds.trans (h : Binds first state mid) (h' : Binds rest mid state') :
    Binds (first ++ rest) state state' := by
  refine ⟨fun i b hi => h'.kept i b (h.kept i b hi), ?_, ?_, h'.length.trans h.length,
    h'.deferred.trans h.deferred⟩
  · intro i b hi
    rcases h'.new i b hi with hmid | ⟨hleaf, hb⟩ | ⟨hleaf, hb⟩
    · rcases h.new i b hmid with hold | ⟨hleaf, hb⟩ | ⟨hleaf, hb⟩
      · exact .inl hold
      · exact .inr (.inl ⟨mem_append_left _ hleaf, hb⟩)
      · exact .inr (.inr ⟨mem_append_left _ hleaf, hb⟩)
    · exact .inr (.inl ⟨mem_append_right _ hleaf, hb⟩)
    · exact .inr (.inr ⟨mem_append_right _ hleaf, hb⟩)
  · intro i hi
    rw [mem_append, mem_append] at hi
    have hsplit : (.param i ∈ first ∨ .pack i ∈ first) ∨ (.param i ∈ rest ∨ .pack i ∈ rest) := by
      tauto
    rcases hsplit with hfirst | hrest
    · obtain ⟨b, hb⟩ := h.bound i hfirst
      exact ⟨b, h'.kept i b hb⟩
    · exact h'.bound i hrest

/-- Binding an index that is not bound yet. -/
theorem Binds.bind {leaf : SolverType} (hleaf : (leaf = .param index ∧ ∃ ty, binding = .one ty) ∨
      (leaf = .pack index ∧ ∃ elems, binding = .pack elems))
    (hlt : index < state.bindings.length) (hfree : state.bindingAt index = none) :
    Binds [leaf] state (state.bind index binding) := by
  refine ⟨?_, ?_, ?_, length_bind _ _ _, rfl⟩
  · intro i b hi
    rw [bindingAt_bind_ne, hi]
    rintro rfl
    rw [hfree] at hi
    cases hi
  · intro i b hi
    by_cases heq : index = i
    · subst heq
      rw [bindingAt_bind_self hlt] at hi
      obtain rfl := Option.some.inj hi
      rcases hleaf with ⟨rfl, hkind⟩ | ⟨rfl, hkind⟩
      · exact .inr (.inl ⟨mem_singleton_self _, hkind⟩)
      · exact .inr (.inr ⟨mem_singleton_self _, hkind⟩)
    · rw [bindingAt_bind_ne heq] at hi
      exact .inl hi
  · intro i hi
    have heq : i = index := by
      rcases hleaf with ⟨rfl, -⟩ | ⟨rfl, -⟩
      · simpa using hi
      · simpa using hi
    rw [heq]
    exact ⟨_, bindingAt_bind_self hlt⟩

/-- What the leaves of a part of a target have to meet before it is matched. -/
structure Ready (leaves : List SolverType) (state : Matched) : Prop where
  declared : ∀ i, .param i ∈ leaves ∨ .pack i ∈ leaves → i < state.bindings.length
  kinds : ∀ i, .param i ∈ leaves → .pack i ∉ leaves
  once : (leaves.filter SolverType.isPack).Nodup
  free : ∀ i, .pack i ∈ leaves → state.bindingAt i = none

theorem Ready.left {first rest : List SolverType} {state : Matched}
    (h : Ready (first ++ rest) state) : Ready first state := by
  refine ⟨fun i hi => h.declared i (mem_leaves_left hi), ?_, ?_, ?_⟩
  · exact fun i hi hpack => h.kinds i (mem_append_left _ hi) (mem_append_left _ hpack)
  · have honce := h.once
    rw [filter_append] at honce
    exact honce.of_append_left
  · exact fun i hi => h.free i (mem_append_left _ hi)

/-- The rest of a target is ready once its first part is matched. -/
theorem Ready.right {first rest : List SolverType} {state mid : Matched}
    (h : Ready (first ++ rest) state) (hbinds : Binds first state mid) : Ready rest mid := by
  have honce := h.once
  rw [filter_append] at honce
  refine ⟨fun i hi => hbinds.length ▸ h.declared i (mem_leaves_right hi), ?_,
    honce.of_append_right, ?_⟩
  · exact fun i hi hpack => h.kinds i (mem_append_right _ hi) (mem_append_right _ hpack)
  · intro i hi
    cases hmid : mid.bindingAt i with
    | none => rfl
    | some b =>
      rcases hbinds.new i b hmid with hold | ⟨hparam, -⟩ | ⟨hpack, -⟩
      · rw [h.free i (mem_append_right _ hi)] at hold
        cases hold
      · exact absurd (mem_append_right _ hi) (h.kinds i (mem_append_left _ hparam))
      · have hin : ∀ leaves : List SolverType, .pack i ∈ leaves →
            SolverType.pack i ∈ leaves.filter SolverType.isPack :=
          fun leaves hleaf => mem_filter.mpr ⟨hleaf, rfl⟩
        exact absurd rfl ((nodup_append.mp honce).2.2 _ (hin first hpack) _ (hin rest hi))

/-- `arg` gives what is bound. -/
def Gives (arg : Nat → Option SolverType) (state : Matched) : Prop :=
  ∀ i binding, state.bindingAt i = some binding → arg i = some binding.asType

theorem Gives.mono {leaves : List SolverType}
    {state state' : Matched} (h : Gives arg state') (hbinds : Binds leaves state state') :
    Gives arg state := fun i b hi => h i b (hbinds.kept i b hi)

mutual

/-- A match binds the leaves of the target so that the type is the target at what is bound. -/
theorem matchTarget_sound : ∀ {target ty : SolverType} {state state' : Matched},
    (target.isPack || target.matchable) = true → facesRow target ty = false →
    Ready target.leaves state → matchTarget target ty state = some state' →
    Binds target.leaves state state' ∧ ∀ arg, Gives arg state' → mapParams arg target = some ty
  | .param index, ty, state, state', _, _, hready, h => by
    have hlt := hready.declared index (.inl (mem_singleton_self _))
    rw [matchTarget] at h
    cases hslot : state.bindingAt index with
    | none =>
      rw [hslot] at h
      obtain rfl := Option.some.inj h
      refine ⟨Binds.bind (.inl ⟨rfl, ty, rfl⟩) hlt hslot, fun arg harg => ?_⟩
      exact harg index _ (bindingAt_bind_self hlt)
    | some binding =>
      rw [hslot] at h
      dsimp only at h
      split at h
      · rename_i hone
        obtain rfl := Option.some.inj h
        subst hone
        refine ⟨⟨fun _ _ hi => hi, fun _ _ hi => .inl hi, ?_, rfl, rfl⟩, ?_⟩
        · intro i hi
          have heq : i = index := by simpa [leaves] using hi
          exact ⟨_, heq ▸ hslot⟩
        · exact fun arg harg => harg index _ hslot
      · cases h
  | .pack index, ty, state, state', _, hrow, hready, h => by
    have hlt := hready.declared index (.inr (mem_singleton_self _))
    have hfree := hready.free index (mem_singleton_self _)
    cases ty with
    | tuple tyElems =>
      rw [matchTarget] at h
      obtain rfl := Option.some.inj h
      refine ⟨Binds.bind (.inr ⟨rfl, tyElems, rfl⟩) hlt hfree, fun arg harg => ?_⟩
      exact harg index _ (bindingAt_bind_self hlt)
    | anyRow => cases hrow
    | _ => simp [matchTarget] at h
  | .decl head args, ty, state, state', hform, hrow, hready, h => by
    cases ty with
    | decl tyHead tyArgs =>
      rw [matchTarget] at h
      split at h
      · rename_i hhead
        obtain ⟨hbinds, hmap⟩ := matchEach_sound hhead.2 hform hrow hready h
        refine ⟨hbinds, fun arg harg => ?_⟩
        rw [mapParams, hmap arg harg, hhead.1]
        rfl
      · cases h
    | anyRow => cases hrow
    | _ => simp [matchTarget] at h
  | .ref isMut inner, ty, state, state', hform, hrow, hready, h => by
    cases ty with
    | ref tyMut tyInner =>
      rw [matchTarget] at h
      split at h
      · rename_i hmut
        obtain ⟨hbinds, hmap⟩ := @matchTarget_sound inner tyInner state state'
          (Bool.or_eq_true_iff.mpr (.inr hform)) hrow hready h
        refine ⟨hbinds, fun arg harg => ?_⟩
        rw [mapParams, hmap arg harg, hmut]
        rfl
      · cases h
    | anyRow => cases hrow
    | _ => simp [matchTarget] at h
  | .tuple elems, ty, state, state', hform, hrow, hready, h => by
    cases ty with
    | tuple tyElems =>
      rw [matchTarget] at h
      obtain ⟨hbinds, hmap⟩ := matchElems_sound hform hrow hready h
      refine ⟨hbinds, fun arg harg => ?_⟩
      rw [mapParams, hmap arg harg]
      rfl
    | anyRow => cases hrow
    | _ => simp [matchTarget] at h
  | .projection _ _ _ _, _, _, _, hform, _, _, _ => by cases hform
  | .anyRow, _, _, _, hform, _, _, _ => by cases hform

theorem matchEach_sound : ∀ {targets tys : List SolverType} {state state' : Matched},
    targets.length = tys.length → matchableArgs targets = true →
    facesRowArgs targets tys = false → Ready (leavesAll targets) state →
    matchEach targets tys state = some state' →
    Binds (leavesAll targets) state state' ∧
      ∀ arg, Gives arg state' → mapEach arg targets = some tys
  | [], [], state, state', _, _, _, _, h => by
    simp only [matchEach, Option.some.injEq] at h
    subst h
    exact ⟨.refl state, fun arg _ => rfl⟩
  | target :: targets, ty :: tys, state, state', hlength, hform, hrow, hready, h => by
    rw [matchableArgs, Bool.and_eq_true_iff] at hform
    rw [facesRowArgs, Bool.or_eq_false_iff] at hrow
    rw [matchEach] at h
    obtain ⟨mid, hmid, h⟩ := bind_eq_some_iff.mp h
    obtain ⟨hbinds, hmap⟩ := @matchTarget_sound target ty state mid hform.1 hrow.1
      hready.left hmid
    obtain ⟨hbinds', hmap'⟩ := matchEach_sound (Nat.succ.inj hlength) hform.2 hrow.2
      (hready.right hbinds) h
    refine ⟨hbinds.trans hbinds', fun arg harg => ?_⟩
    rw [mapEach, hmap arg (harg.mono hbinds'), hmap' arg harg]
    rfl

theorem matchElems_sound : ∀ {targets tys : List SolverType} {state state' : Matched},
    matchableElems targets = true → facesRowElems targets tys = false →
    Ready (leavesAll targets) state → matchElems targets tys state = some state' →
    Binds (leavesAll targets) state state' ∧
      ∀ arg, Gives arg state' → mapElems arg targets = some tys
  | [], tys, state, state', _, _, _, h => by
    cases tys with
    | nil =>
      simp only [matchElems, Option.some.injEq] at h
      subst h
      exact ⟨.refl state, fun arg _ => by rw [mapElems]⟩
    | cons ty tys => simp [matchElems] at h
  | target :: targets, tys, state, state', hform, hrow, hready, h => by
    rw [matchableElems, Bool.and_eq_true_iff] at hform
    rcases Bool.or_eq_true_iff.mp hform.1 with hpack | hplain
    · rw [Bool.and_eq_true_iff, List.isEmpty_iff] at hpack
      obtain ⟨index, rfl⟩ := eq_pack hpack.1
      obtain rfl := hpack.2
      have hin : SolverType.pack index ∈ leavesAll [.pack index] := by simp [leavesAll, leaves]
      have hlt := hready.declared index (.inr hin)
      rw [matchElems_pack] at h
      obtain rfl := Option.some.inj h
      refine ⟨Binds.bind (.inr ⟨rfl, tys, rfl⟩) hlt (hready.free index hin), ?_⟩
      exact fun arg harg => mapElems_pack (harg index _ (bindingAt_bind_self hlt))
    · cases tys with
      | nil =>
        rw [matchElems_cons_nil hplain] at h
        cases h
      | cons ty tys =>
        rw [facesRowElems_cons hplain, Bool.or_eq_false_iff] at hrow
        rw [matchElems_cons hplain] at h
        obtain ⟨mid, hmid, h⟩ := bind_eq_some_iff.mp h
        obtain ⟨hbinds, hmap⟩ := @matchTarget_sound target ty state mid
          (Bool.or_eq_true_iff.mpr (.inr hplain)) hrow.1 hready.left hmid
        obtain ⟨hbinds', hmap'⟩ := matchElems_sound hform.2 hrow.2 (hready.right hbinds) h
        refine ⟨hbinds.trans hbinds', fun arg harg => ?_⟩
        rw [mapElems_cons hplain, hmap arg (harg.mono hbinds'), hmap' arg harg]
        rfl

end

end Sound

/-- Matching a target from no bindings succeeds exactly where a substitution gives the type,
and leaves that substitution. -/
theorem matchTarget_exact {params : Nat} (target : ImplTarget params) (ty : SolverType)
    (hrow : facesRow target.ty ty = false) :
    ((∃ state, matchTarget target.ty ty (.unbound params) = some state) ↔
      ∃ subst, Fits subst target.ty.leaves ∧ target.ty.instantiate subst = some ty) ∧
    ∀ state, matchTarget target.ty ty (.unbound params) = some state →
      target.ty.mapParams state.typeAt = some ty ∧ state.deferred = [] ∧
      ∀ subst, Fits subst target.ty.leaves → target.ty.instantiate subst = some ty →
        ∀ i, .param i ∈ target.ty.leaves ∨ .pack i ∈ target.ty.leaves →
          state.bindingAt i = some (subst i) := by
  have hlength : (Matched.unbound params).bindings.length = params := List.length_replicate
  have hform : (target.ty.isPack || target.ty.matchable) = true :=
    Bool.or_eq_true_iff.mpr (.inr target.matchable)
  have hdeclared : ∀ i, .param i ∈ target.ty.leaves ∨ .pack i ∈ target.ty.leaves →
      i < (Matched.unbound params).bindings.length := by
    intro i hi
    rw [hlength]
    exact target.declared i hi
  have hready : Ready target.ty.leaves (.unbound params) :=
    ⟨hdeclared, target.kinds, target.once, fun i _ => Matched.bindingAt_unbound params i⟩
  have hnone : ∀ (subst : Nat → Binding) i binding,
      (Matched.unbound params).bindingAt i = some binding → subst i = binding := by
    intro subst i binding hi
    rw [Matched.bindingAt_unbound] at hi
    cases hi
  refine ⟨⟨?_, ?_⟩, ?_⟩
  · rintro ⟨state, hmatch⟩
    obtain ⟨hbinds, hmap⟩ := matchTarget_sound hform hrow hready hmatch
    refine ⟨fun i => (state.bindingAt i).getD (.one .anyRow), ⟨?_, ?_⟩, hmap _ ?_⟩
    · intro i hi
      obtain ⟨binding, hbound⟩ := hbinds.bound i (.inl hi)
      rcases hbinds.new i binding hbound with hold | ⟨-, tyAt, hkind⟩ | ⟨hpack, -⟩
      · rw [Matched.bindingAt_unbound] at hold
        cases hold
      · exact ⟨tyAt, by rw [hbound, hkind]; rfl⟩
      · exact absurd hpack (target.kinds i hi)
    · intro i hi
      obtain ⟨binding, hbound⟩ := hbinds.bound i (.inr hi)
      rcases hbinds.new i binding hbound with hold | ⟨hparam, -⟩ | ⟨-, elems, hkind⟩
      · rw [Matched.bindingAt_unbound] at hold
        cases hold
      · exact absurd hi (target.kinds i hparam)
      · exact ⟨elems, by rw [hbound, hkind]; rfl⟩
    · intro i binding hi
      dsimp only
      rw [hi]
      rfl
  · rintro ⟨subst, hfits, hmap⟩
    obtain ⟨state, hmatch, -⟩ := matchTarget_complete hform hfits hdeclared (hnone subst) hmap
    exact ⟨state, hmatch⟩
  · intro state hmatch
    obtain ⟨hbinds, hmap⟩ := matchTarget_sound hform hrow hready hmatch
    refine ⟨hmap _ ?_, hbinds.deferred, ?_⟩
    · intro i binding hi
      unfold Matched.typeAt
      rw [hi]
      rfl
    · intro subst hfits hsubst i hi
      obtain ⟨state', hmatch', htakes⟩ :=
        matchTarget_complete hform hfits hdeclared (hnone subst) hsubst
      obtain rfl := Option.some.inj (hmatch.symm.trans hmatch')
      exact htakes.bound i hi

/-- `Pair<T, [T, ..U]>`. -/
def pairTarget : ImplTarget 2 where
  ty := .decl ⟨0⟩ [.param 0, .tuple [.param 0, .pack 1]]
  matchable := by decide
  declared := by
    intro i hi
    have hor : i = 0 ∨ i = 1 := by simpa [leaves, leavesAll] using hi
    omega
  kinds := by
    intro i hi
    have hzero : i = 0 := by simpa [leaves, leavesAll] using hi
    subst hzero
    decide
  once := by decide

theorem matchTarget_exact_pair :
    (∃ state, matchTarget pairTarget.ty (.decl ⟨0⟩ [.anyRow, .tuple [.anyRow, .param 3]])
      (.unbound 2) = some state) ↔
      ∃ subst, Fits subst pairTarget.ty.leaves ∧ pairTarget.ty.instantiate subst =
        some (.decl ⟨0⟩ [.anyRow, .tuple [.anyRow, .param 3]]) :=
  (matchTarget_exact pairTarget _ (by decide)).1

/-- An open row meets a declaration, which no substitution makes it. -/
theorem matchTarget_meets_row : (SolverType.decl ⟨0⟩ []).matchable = true ∧
    (matchTarget (.decl ⟨0⟩ []) .anyRow (.unbound 0)).isSome = true ∧
    ¬ ∃ subst, (SolverType.decl ⟨0⟩ []).instantiate subst = some .anyRow := by
  refine ⟨by decide, by decide, ?_⟩
  rintro ⟨subst, h⟩
  cases h

end Wado.TraitSolver
