/-
What matching a target against a type binds lies within the type, and a type that
holds no projection puts none in what is bound.
-/
import Wado.TraitSolver.Rules

namespace Wado.TraitSolver

open List Option

namespace SolverType

theorem mem_within_self : ∀ ty : SolverType, ty ∈ within ty
  | .decl _ _ => mem_cons_self
  | .param _ => mem_cons_self
  | .pack _ => mem_cons_self
  | .ref _ _ => mem_cons_self
  | .tuple _ => mem_cons_self
  | .projection _ _ _ _ => mem_cons_self
  | .anyRow => mem_cons_self

variable {tys : List SolverType} {question : SolverType × TraitDeclId}

theorem mem_withinAll {found : SolverType} :
    found ∈ withinAll tys ↔ ∃ ty ∈ tys, found ∈ within ty := by
  induction tys with
  | nil => simp [withinAll]
  | cons ty tys ih => simp [withinAll, ih]

theorem mem_projectedAll :
    question ∈ projectedAll tys ↔ ∃ ty ∈ tys, question ∈ projected ty := by
  induction tys with
  | nil => simp [projectedAll]
  | cons ty tys ih => simp [projectedAll, ih]

theorem projectedAll_eq_nil :
    projectedAll tys = [] ↔ ∀ ty ∈ tys, projected ty = [] := by
  induction tys with
  | nil => simp [projectedAll]
  | cons ty tys ih => simp [projectedAll, ih]

mutual

theorem within_trans {inner ty : SolverType} :
    ∀ outer, ty ∈ within outer → inner ∈ within ty → inner ∈ within outer
  | .decl head args, hty, hinner => by
    rcases mem_cons.mp hty with rfl | hty
    · exact hinner
    · exact mem_cons_of_mem _ (withinAll_trans args hty hinner)
  | .param index, hty, hinner => by
    rw [mem_singleton.mp hty] at hinner
    exact hinner
  | .pack index, hty, hinner => by
    rw [mem_singleton.mp hty] at hinner
    exact hinner
  | .ref isMut pointee, hty, hinner => by
    rcases mem_cons.mp hty with rfl | hty
    · exact hinner
    · exact mem_cons_of_mem _ (within_trans pointee hty hinner)
  | .tuple elems, hty, hinner => by
    rcases mem_cons.mp hty with rfl | hty
    · exact hinner
    · exact mem_cons_of_mem _ (withinAll_trans elems hty hinner)
  | .projection base trait_ assoc args, hty, hinner => by
    rcases mem_cons.mp hty with rfl | hty
    · exact hinner
    · apply mem_cons_of_mem
      rcases mem_append.mp hty with hbase | hargs
      · exact mem_append_left _ (within_trans base hbase hinner)
      · exact mem_append_right _ (withinAll_trans args hargs hinner)
  | .anyRow, hty, hinner => by
    rw [mem_singleton.mp hty] at hinner
    exact hinner

theorem withinAll_trans {inner ty : SolverType} :
    ∀ outers, ty ∈ withinAll outers → inner ∈ within ty → inner ∈ withinAll outers
  | [], hty, _ => by cases hty
  | outer :: outers, hty, hinner => by
    rcases mem_append.mp hty with hhead | htail
    · exact mem_append_left _ (within_trans outer hhead hinner)
    · exact mem_append_right _ (withinAll_trans outers htail hinner)

end

mutual

/-- What a type within another projects off, the other does. -/
theorem projected_of_within {ty : SolverType} :
    ∀ outer, ty ∈ within outer → question ∈ projected ty → question ∈ projected outer
  | .decl head args, hty, hq => by
    rcases mem_cons.mp hty with rfl | hty
    · exact hq
    · exact projectedAll_of_within args hty hq
  | .param index, hty, hq => by
    rw [mem_singleton.mp hty] at hq
    exact hq
  | .pack index, hty, hq => by
    rw [mem_singleton.mp hty] at hq
    exact hq
  | .ref isMut pointee, hty, hq => by
    rcases mem_cons.mp hty with rfl | hty
    · exact hq
    · exact projected_of_within pointee hty hq
  | .tuple elems, hty, hq => by
    rcases mem_cons.mp hty with rfl | hty
    · exact hq
    · exact projectedAll_of_within elems hty hq
  | .projection base trait_ assoc args, hty, hq => by
    rcases mem_cons.mp hty with rfl | hty
    · exact hq
    · apply mem_append_left
      rcases mem_append.mp hty with hbase | hargs
      · exact mem_append_left _ (projected_of_within base hbase hq)
      · exact mem_append_right _ (projectedAll_of_within args hargs hq)
  | .anyRow, hty, hq => by
    rw [mem_singleton.mp hty] at hq
    exact hq

theorem projectedAll_of_within {ty : SolverType} :
    ∀ outers, ty ∈ withinAll outers → question ∈ projected ty → question ∈ projectedAll outers
  | [], hty, _ => by cases hty
  | outer :: outers, hty, hq => by
    rcases mem_append.mp hty with hhead | htail
    · exact mem_append_left _ (projected_of_within outer hhead hq)
    · exact mem_append_right _ (projectedAll_of_within outers htail hq)

end

theorem projected_eq_nil_of_within {ty outer : SolverType} (h : ty ∈ within outer)
    (hnone : projected outer = []) : projected ty = [] := by
  apply eq_nil_iff_forall_not_mem.mpr
  intro question hq
  have hin := projected_of_within outer h hq
  rw [hnone] at hin
  cases hin

mutual

/-- What a type projects off lies within it. -/
theorem within_of_projected :
    ∀ ty, question ∈ projected ty → question.1 ∈ within ty
  | .decl head args, hq => mem_cons_of_mem _ (withinAll_of_projected args hq)
  | .param index, hq => by cases hq
  | .pack index, hq => by cases hq
  | .ref isMut pointee, hq => mem_cons_of_mem _ (within_of_projected pointee hq)
  | .tuple elems, hq => mem_cons_of_mem _ (withinAll_of_projected elems hq)
  | .projection base trait_ assoc args, hq => by
    apply mem_cons_of_mem
    rcases mem_append.mp hq with hin | hself
    · rcases mem_append.mp hin with hbase | hargs
      · exact mem_append_left _ (within_of_projected base hbase)
      · exact mem_append_right _ (withinAll_of_projected args hargs)
    · rw [mem_singleton.mp hself]
      exact mem_append_left _ (mem_within_self base)
  | .anyRow, hq => by cases hq

theorem withinAll_of_projected :
    ∀ tys, question ∈ projectedAll tys → question.1 ∈ withinAll tys
  | [], hq => by cases hq
  | ty :: tys, hq => by
    rcases mem_append.mp hq with hhead | htail
    · exact mem_append_left _ (within_of_projected ty hhead)
    · exact mem_append_right _ (withinAll_of_projected tys htail)

end

section MapParams

variable {arg : Nat → Option SolverType}

/-- A projection that instantiating brings in comes from an argument. -/
def FromArg (arg : Nat → Option SolverType) (question : SolverType × TraitDeclId) : Prop :=
  ∃ i ty, arg i = some ty ∧ question ∈ projected ty

mutual

theorem projected_mapParams : ∀ {ty ty' : SolverType}, projected ty = [] →
    mapParams arg ty = some ty' → question ∈ projected ty' → FromArg arg question
  | .decl head args, ty', hnone, hmap, hq => by
    rw [mapParams] at hmap
    obtain ⟨args', hargs, rfl⟩ := map_eq_some_iff.mp hmap
    exact projected_mapEach hnone hargs hq
  | .param index, ty', _, hmap, hq => ⟨index, ty', hmap, hq⟩
  | .pack index, ty', _, hmap, hq => ⟨index, ty', hmap, hq⟩
  | .ref isMut pointee, ty', hnone, hmap, hq => by
    rw [mapParams] at hmap
    obtain ⟨pointee', hpointee, rfl⟩ := map_eq_some_iff.mp hmap
    exact @projected_mapParams pointee pointee' hnone hpointee hq
  | .tuple elems, ty', hnone, hmap, hq => by
    rw [mapParams] at hmap
    obtain ⟨elems', helems, rfl⟩ := map_eq_some_iff.mp hmap
    exact projected_mapElems hnone helems hq
  | .projection base trait_ assoc args, ty', hnone, _, _ => by
    simp [projected] at hnone
  | .anyRow, ty', _, hmap, hq => by
    rw [mapParams] at hmap
    cases hmap
    cases hq

theorem projected_mapEach : ∀ {tys tys' : List SolverType}, projectedAll tys = [] →
    mapEach arg tys = some tys' → question ∈ projectedAll tys' → FromArg arg question
  | [], tys', _, hmap, hq => by
    rw [mapEach] at hmap
    cases hmap
    cases hq
  | ty :: tys, tys', hnone, hmap, hq => by
    obtain ⟨hty, htys⟩ := append_eq_nil_iff.mp hnone
    rw [mapEach] at hmap
    obtain ⟨ty', hty', hmap⟩ := bind_eq_some_iff.mp hmap
    obtain ⟨rest, hrest, rfl⟩ := map_eq_some_iff.mp hmap
    rcases mem_append.mp hq with hhead | htail
    · exact projected_mapParams hty hty' hhead
    · exact projected_mapEach htys hrest htail

theorem projected_mapElems : ∀ {tys tys' : List SolverType}, projectedAll tys = [] →
    mapElems arg tys = some tys' → question ∈ projectedAll tys' → FromArg arg question
  | [], tys', _, hmap, hq => by
    rw [mapElems] at hmap
    cases hmap
    cases hq
  | ty :: tys, tys', hnone, hmap, hq => by
    obtain ⟨hty, htys⟩ := append_eq_nil_iff.mp hnone
    rw [mapElems] at hmap
    obtain ⟨ty', hty', hmap⟩ := bind_eq_some_iff.mp hmap
    obtain ⟨rest, hrest, rfl⟩ := map_eq_some_iff.mp hmap
    have hsplit : question ∈ projected ty' ∨ question ∈ projectedAll rest := by
      rw [mem_projectedAll] at hq
      obtain ⟨found, hfound, hq⟩ := hq
      split at hfound
      · rcases mem_append.mp hfound with hspliced | hin
        · exact Or.inl (mem_projectedAll.mpr ⟨found, hspliced, hq⟩)
        · exact Or.inr (mem_projectedAll.mpr ⟨found, hin, hq⟩)
      · rcases mem_cons.mp hfound with rfl | hin
        · exact Or.inl hq
        · exact Or.inr (mem_projectedAll.mpr ⟨found, hin, hq⟩)
    rcases hsplit with hhead | htail
    · exact projected_mapParams hty hty' hhead
    · exact projected_mapElems htys hrest htail

end

end MapParams

end SolverType

open SolverType

namespace Matched

theorem bindingAt_unbound (params i : Nat) : (unbound params).bindingAt i = none := by
  unfold bindingAt unbound
  rw [List.getElem?_replicate]
  split <;> rfl

theorem bindingAt_bind {state : Matched} {index i : Nat} {binding bound : Binding}
    (h : (state.bind index binding).bindingAt i = some bound) :
    bound = binding ∨ state.bindingAt i = some bound := by
  unfold bindingAt bind at *
  rw [List.getElem?_set] at h
  split at h
  · split at h
    · exact Or.inl (Option.some.inj h).symm
    · cases h
  · exact Or.inr h

end Matched

/-- What a match of a target against a type leaves: each new binding lies within the
type, and no projection is deferred. -/
structure MatchedWithin (types : List SolverType) (state state' : Matched) : Prop where
  bound : ∀ i binding, state'.bindingAt i = some binding →
    state.bindingAt i = some binding ∨ ∀ element ∈ binding.elements, element ∈ withinAll types
  deferred : state'.deferred = state.deferred

namespace MatchedWithin

variable {types types' : List SolverType} {state state' state'' : Matched}

theorem refl (types : List SolverType) (state : Matched) : MatchedWithin types state state :=
  ⟨fun _ _ h => Or.inl h, rfl⟩

theorem trans (h : MatchedWithin types state state') (h' : MatchedWithin types state' state'') :
    MatchedWithin types state state'' := by
  refine ⟨?_, h'.deferred.trans h.deferred⟩
  intro i binding hbinding
  rcases h'.bound i binding hbinding with hold | hin
  · exact h.bound i binding hold
  · exact Or.inr hin

theorem mono (h : MatchedWithin types state state')
    (hsub : ∀ ty, ty ∈ withinAll types → ty ∈ withinAll types') :
    MatchedWithin types' state state' := by
  refine ⟨?_, h.deferred⟩
  intro i binding hbinding
  rcases h.bound i binding hbinding with hold | hin
  · exact Or.inl hold
  · exact Or.inr fun element helement => hsub _ (hin element helement)

theorem bind {index : Nat} {binding : Binding}
    (h : ∀ element ∈ binding.elements, element ∈ withinAll types) :
    MatchedWithin types state (state.bind index binding) := by
  refine ⟨?_, rfl⟩
  intro i bound hbound
  rcases Matched.bindingAt_bind hbound with rfl | hold
  · exact Or.inr h
  · exact Or.inl hold

end MatchedWithin

mutual

theorem matchTarget_within : ∀ {target ty : SolverType} {state state' : Matched},
    projected target = [] → matchTarget target ty state = some state' →
    MatchedWithin [ty] state state'
  | .param index, ty, state, state', _, h => by
    rw [matchTarget] at h
    cases hbound : state.bindingAt index with
    | some bound =>
      rw [hbound] at h
      dsimp only at h
      split at h
      · cases h
        exact .refl _ _
      · cases h
    | none =>
      rw [hbound] at h
      cases h
      apply MatchedWithin.bind
      intro element helement
      rw [mem_singleton.mp helement]
      exact mem_append_left _ (mem_within_self ty)
  | .decl head args, ty, state, state', hnone, h => by
    cases ty with
    | decl tyHead tyArgs =>
      rw [matchTarget] at h
      split at h
      · apply (matchEach_within hnone h).mono
        intro found hfound
        exact mem_append_left _ (mem_cons_of_mem _ hfound)
      · cases h
    | anyRow =>
      rw [matchTarget] at h
      · cases h
        exact .refl _ _
      all_goals simp
    | _ => simp [matchTarget] at h
  | .ref isMut pointee, ty, state, state', hnone, h => by
    cases ty with
    | ref tyMut tyPointee =>
      rw [matchTarget] at h
      split at h
      · apply (@matchTarget_within pointee tyPointee state state' hnone h).mono
        intro found hfound
        rw [withinAll, withinAll, append_nil] at hfound
        exact mem_append_left _ (mem_cons_of_mem _ hfound)
      · cases h
    | anyRow =>
      rw [matchTarget] at h
      · cases h
        exact .refl _ _
      all_goals simp
    | _ => simp [matchTarget] at h
  | .tuple elems, ty, state, state', hnone, h => by
    cases ty with
    | tuple tyElems =>
      rw [matchTarget] at h
      apply (matchElems_within hnone h).mono
      intro found hfound
      exact mem_append_left _ (mem_cons_of_mem _ hfound)
    | anyRow =>
      rw [matchTarget] at h
      · cases h
        exact .refl _ _
      all_goals simp
    | _ => simp [matchTarget] at h
  | .pack index, ty, state, state', _, h => by
    cases ty with
    | tuple tyElems =>
      rw [matchTarget] at h
      cases h
      apply MatchedWithin.bind
      intro element helement
      have hin : element ∈ withinAll tyElems :=
        mem_withinAll.mpr ⟨element, helement, mem_within_self element⟩
      rw [withinAll, withinAll, append_nil, within]
      exact mem_cons_of_mem _ hin
    | anyRow =>
      rw [matchTarget] at h
      · cases h
        exact .refl _ _
      all_goals simp
    | _ => simp [matchTarget] at h
  | .projection base trait_ assoc args, ty, state, state', hnone, _ => by
    simp [projected] at hnone
  | .anyRow, ty, state, state', _, h => by
    rw [matchTarget] at h
    cases h
    exact .refl _ _

theorem matchEach_within : ∀ {targets types : List SolverType} {state state' : Matched},
    projectedAll targets = [] → matchEach targets types state = some state' →
    MatchedWithin types state state'
  | [], types, state, state', _, h => by
    rw [matchEach] at h
    · cases h
      exact .refl _ _
    · simp
  | target :: targets, [], state, state', _, h => by
    rw [matchEach] at h
    · cases h
      exact .refl _ _
    · simp
  | target :: targets, ty :: types, state, state', hnone, h => by
    obtain ⟨hhead, htail⟩ := append_eq_nil_iff.mp hnone
    rw [matchEach] at h
    obtain ⟨middle, hmiddle, hrest⟩ := bind_eq_some_iff.mp h
    have hfirst : MatchedWithin (ty :: types) state middle := by
      apply (matchTarget_within hhead hmiddle).mono
      intro found hfound
      rw [withinAll, withinAll, append_nil] at hfound
      exact mem_append_left _ hfound
    have hothers : MatchedWithin (ty :: types) middle state' := by
      apply (matchEach_within htail hrest).mono
      intro found hfound
      exact mem_append_right _ hfound
    exact hfirst.trans hothers

theorem matchElems_within : ∀ {targets types : List SolverType} {state state' : Matched},
    projectedAll targets = [] → matchElems targets types state = some state' →
    MatchedWithin types state state'
  | [], types, state, state', _, h => by
    cases types with
    | nil =>
      rw [matchElems] at h
      cases h
      exact .refl _ _
    | cons ty types => simp [matchElems] at h
  | target :: targets, types, state, state', hnone, h => by
    by_cases hpack : ∃ index, target = .pack index ∧ targets = []
    · obtain ⟨index, rfl, rfl⟩ := hpack
      rw [matchElems] at h
      cases h
      apply MatchedWithin.bind
      intro element helement
      exact mem_withinAll.mpr ⟨element, helement, mem_within_self element⟩
    · obtain ⟨hhead, htail⟩ := append_eq_nil_iff.mp hnone
      cases types with
      | nil =>
        rw [matchElems] at h
        · cases h
        all_goals simp_all
      | cons ty types =>
        rw [matchElems] at h
        · obtain ⟨middle, hmiddle, hrest⟩ := bind_eq_some_iff.mp h
          have hfirst : MatchedWithin (ty :: types) state middle := by
            apply (matchTarget_within hhead hmiddle).mono
            intro found hfound
            rw [withinAll, withinAll, append_nil] at hfound
            exact mem_append_left _ hfound
          have hothers : MatchedWithin (ty :: types) middle state' := by
            apply (matchElems_within htail hrest).mono
            intro found hfound
            exact mem_append_right _ hfound
          exact hfirst.trans hothers
        · intro index htarget htargets
          exact hpack ⟨index, htarget, htargets⟩

end

end Wado.TraitSolver
