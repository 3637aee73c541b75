/-
The solver decides derivability: it answers every question, with a bound that holds
exactly where the rules derive it, in whatever order the impls were added.
-/
import Wado.TraitSolver.Settles

namespace Wado.TraitSolver

open SolverType CutSearch List Function

variable {program program' : Program} {env : Env} {ty : SolverType} {trait_ : TraitDeclId}
  {args : List SolverType}

variable {question : Question}

/-- What is asked is settled where a question is open already, and where what it asks
in turn is. -/
theorem settled_step (hindexed : Indexed program) (hplain : Plain program)
    (hasserted : Asserted program) {fuel : Nat} {asking : List Question}
    (hunprojected : Unprojected program env question.ty) (hfuel : 1 ≤ fuel)
    (hwalks : WalksAnswer program env fuel question.ty)
    (hasked : question ∉ asking → ∀ asked, AskedBy program env question asked →
      Settled program env fuel (asking ++ [question]) asked) :
    Settled program env (fuel + 1) asking question := by
  have hholds : ((Query.mk program env none).asksWithin (fuel + 1)).holds
      (asking.map Question.asOpen) false question.ty question.trait_ question.args none =
      (Query.mk program env none).holdsAt fuel (Opened.asks program env fuel)
        (asking.map Question.asOpen) false question.ty question.trait_ question.args none := rfl
  unfold Settled
  rw [hholds, derivableUnder_iff]
  unfold Query.holdsAt
  by_cases hin : question ∈ asking
  · have hfound : ∃ at_, (asking.map Question.asOpen).findIdx? (fun asked =>
        asked.ty = question.ty && asked.trait_ = question.trait_ && asked.args = question.args) =
          some at_ := by
      rw [← Option.isSome_iff_exists, List.findIdx?_isSome, any_map, any_eq_true]
      exact ⟨question, hin, by simp [Question.asOpen]⟩
    obtain ⟨at_, hat⟩ := hfound
    have hmembers : ((asking.map Question.asOpen).drop (at_ + 1)).any Open.throughMember =
        false := by
      rw [any_eq_false]
      intro asked hdrop
      obtain ⟨asked', -, rfl⟩ := mem_map.mp (mem_of_mem_drop hdrop)
      simp [Question.asOpen]
    rw [hat]
    dsimp only
    rw [hmembers]
    refine ⟨none, rfl, ?_, ?_⟩
    · constructor
      · intro hfalse
        cases hfalse
      · rintro ⟨hout, -⟩
        exact absurd hin hout
    · intro _ holds hfalse
      cases hfalse
  · have hnone : (asking.map Question.asOpen).findIdx? (fun asked =>
        asked.ty = question.ty && asked.trait_ = question.trait_ && asked.args = question.args) =
          none := by
      rw [List.findIdx?_eq_none_iff]
      intro asked hasked
      obtain ⟨asked', hmem, rfl⟩ := mem_map.mp hasked
      by_contra hsame
      apply hin
      simp only [Question.asOpen, Bool.not_eq_false, Bool.and_eq_true] at hsame
      obtain ⟨⟨hty, htrait⟩, hargs⟩ := hsame
      have heq : asked' = question := by
        cases asked'
        cases question
        rw [Question.mk.injEq]
        exact ⟨of_decide_eq_true hty, of_decide_eq_true htrait, of_decide_eq_true hargs⟩
      rw [← heq]
      exact hmem
    have hopened : Opened program env fuel (asking ++ [question]) question :=
      ⟨hindexed, hplain, hasserted, hunprojected, hasked hin⟩
    obtain ⟨r, hr, hrule, hassoc⟩ := hopened.decide_eq hfuel hwalks
    rw [map_append] at hr
    rw [hnone]
    refine ⟨r, hr, ?_, hassoc⟩
    rw [hrule]
    constructor
    · intro hpremises
      exact ⟨hin, hpremises⟩
    · exact And.right

section Questions

/-- The types a question can lead to. -/
def typesOf (env : Env) (ty : SolverType) : List SolverType :=
  within ty ++ env.types

/-- The traits a question can lead to. -/
def traitsOf (program : Program) (env : Env) (ty : SolverType) (trait_ : TraitDeclId) :
    List TraitDeclId :=
  trait_ :: (program.impls.flatMap fun entry =>
      entry.2.params.flatMap fun param => param.bounds.map ParamBound.trait_) ++
    ((typesOf env ty).flatMap projected).map Prod.snd

/-- The arguments a question can lead to. -/
def argListsOf (program : Program) (env : Env) (ty : SolverType) (args : List SolverType) :
    List (List SolverType) :=
  args :: [] :: (typesOf env ty).flatMap fun subject =>
    program.impls.flatMap fun entry =>
      match matchTarget entry.2.target subject (.unbound entry.2.params.length) with
      | none => []
      | some state => (state.questions entry.2).map Question.args

/-- The questions one can lead to. -/
def questionsOf (program : Program) (env : Env) (question : Question) : List Question :=
  (typesOf env question.ty).flatMap fun ty =>
    (traitsOf program env question.ty question.trait_).flatMap fun trait_ =>
      (argListsOf program env question.ty question.args).map fun args => ⟨ty, trait_, args⟩

theorem mem_questionsOf {question asked : Question} :
    asked ∈ questionsOf program env question ↔ asked.ty ∈ typesOf env question.ty ∧
      asked.trait_ ∈ traitsOf program env question.ty question.trait_ ∧
      asked.args ∈ argListsOf program env question.ty question.args := by
  unfold questionsOf
  simp only [mem_flatMap, mem_map]
  constructor
  · rintro ⟨ty, hty, trait_, htrait, args, hargs, rfl⟩
    exact ⟨hty, htrait, hargs⟩
  · rintro ⟨hty, htrait, hargs⟩
    exact ⟨_, hty, _, htrait, _, hargs, rfl⟩

theorem mem_questionsOf_self (question : Question) : question ∈ questionsOf program env
    question := by
  rw [mem_questionsOf]
  exact ⟨mem_append_left _ (mem_within_self _), mem_cons_self, mem_cons_self⟩

theorem within_typesOf {subject inner : SolverType} (h : subject ∈ typesOf env ty)
    (hinner : inner ∈ within subject) : inner ∈ typesOf env ty := by
  rcases mem_append.mp h with hin | hin
  · exact mem_append_left _ (within_trans ty hin hinner)
  · apply mem_append_right
    obtain ⟨bounds, hbounds, hin⟩ := mem_flatMap.mp hin
    obtain ⟨bound, hbound, hin⟩ := mem_flatMap.mp hin
    apply mem_flatMap.mpr
    refine ⟨bounds, hbounds, mem_flatMap.mpr ⟨bound, hbound, ?_⟩⟩
    exact withinAll_trans bound.args hin hinner

/-- What a question asks in turn is among what the first can lead to. -/
theorem questionsOf_closed (hplain : Plain program) {question asker asked : Question}
    (hasker : asker ∈ questionsOf program env question) (h : AskedBy program env asker asked) :
    asked ∈ questionsOf program env question := by
  obtain ⟨hty, htrait, hargs⟩ := mem_questionsOf.mp hasker
  rw [mem_questionsOf]
  cases h with
  | @base ty base trait_ hin hbase =>
    have hfrom : ty ∈ typesOf env question.ty := by
      rcases hin with hin | hin
      · exact within_typesOf hty hin
      · exact mem_append_right _ hin
    refine ⟨within_typesOf hfrom (within_of_projected ty hbase), ?_, ?_⟩
    · apply mem_append_right
      exact mem_map.mpr ⟨(base, trait_), mem_flatMap.mpr ⟨ty, hfrom, hbase⟩, rfl⟩
    · exact mem_cons_of_mem _ mem_cons_self
  | @bound id impl state asked hmem htargets hasked =>
    obtain ⟨param, hparam, hin⟩ := mem_flatMap.mp hasked
    cases hbinding : state.bindingAt param.2 with
    | none =>
      rw [hbinding] at hin
      cases hin
    | some binding =>
      rw [hbinding] at hin
      obtain ⟨bound, hbound, hin⟩ := mem_flatMap.mp hin
      obtain ⟨element, helement, rfl⟩ := mem_map.mp hin
      have hwithin := matchTarget_within (hplain.noProjections id impl hmem).1 htargets
      refine ⟨?_, ?_, ?_⟩
      · rcases hwithin.bound param.2 binding hbinding with hold | hin
        · rw [Matched.bindingAt_unbound] at hold
          cases hold
        · have hin := hin element helement
          rw [withinAll, withinAll, append_nil] at hin
          exact within_typesOf hty hin
      · apply mem_append_left
        apply mem_cons_of_mem
        apply mem_flatMap.mpr
        refine ⟨(id, impl), hmem, mem_flatMap.mpr ⟨param.1,
          fst_mem_of_mem_zipIdx hparam, mem_map.mpr ⟨bound, hbound, rfl⟩⟩⟩
      · apply mem_cons_of_mem
        apply mem_cons_of_mem
        apply mem_flatMap.mpr
        refine ⟨asker.ty, hty, mem_flatMap.mpr ⟨(id, impl), hmem, ?_⟩⟩
        dsimp only
        rw [htargets]
        exact mem_map.mpr ⟨_, hasked, rfl⟩
  | @pointee isMut inner href =>
    refine ⟨within_typesOf hty ?_, htrait, hargs⟩
    rw [href, within]
    exact mem_cons_of_mem _ (mem_within_self inner)

theorem unprojected_of_typesOf (h : Unprojected program env ty) {subject : SolverType}
    (hsubject : subject ∈ typesOf env ty) : Unprojected program env subject := by
  rcases h with hnone | ⟨hty, henv⟩
  · exact Or.inl hnone
  · refine Or.inr ⟨?_, henv⟩
    rcases mem_append.mp hsubject with hin | hin
    · exact projected_eq_nil_of_within hin hty
    · obtain ⟨bounds, hbounds, hin⟩ := mem_flatMap.mp hin
      obtain ⟨bound, hbound, hin⟩ := mem_flatMap.mp hin
      obtain ⟨outer, houter, hin⟩ := mem_withinAll.mp hin
      exact projected_eq_nil_of_within hin
        (projectedAll_eq_nil.mp (henv bounds hbounds bound hbound) outer houter)

end Questions

/-- Some fuel serves every walk of the questions on the types. -/
theorem walks_least (hclauses : FiniteClauses program env) (types : List SolverType) :
    ∃ least, ∀ subject ∈ types, ∀ fuel, least ≤ fuel → WalksAnswer program env fuel subject := by
  apply exists_least
  intro subject _
  have hbounds : ∃ least, ∀ bounds ∈ env.paramBounds, ∀ fuel, least ≤ fuel →
      ∀ bound ∈ bounds, WalkAnswers program fuel bound subject := by
    apply exists_least
    intro bounds hbounds
    obtain ⟨least, hleast⟩ := exists_least (fun bound hbound =>
      argsReaching_ends (hclauses.inForce bounds hbounds bound hbound subject))
    exact ⟨least, fun fuel hfuel bound hbound => hleast bound hbound fuel hfuel⟩
  have hdeclared : ∃ least, ∀ fuel, least ≤ fuel → ∀ base of assoc args traitDef bounds,
      subject = .projection base of assoc args → program.traits.lookup of = some traitDef →
      traitDef.assocBounds.lookup assoc = some bounds →
      ∀ bound ∈ bounds, WalkAnswers program fuel (.bare bound) subject := by
    by_cases hsome : ∃ base of assoc args traitDef bounds,
        subject = .projection base of assoc args ∧ program.traits.lookup of = some traitDef ∧
        traitDef.assocBounds.lookup assoc = some bounds
    · obtain ⟨base, of, assoc, args, traitDef, bounds, hsubject, htrait, hlookup⟩ := hsome
      obtain ⟨least, hleast⟩ := exists_least (fun bound hbound =>
        argsReaching_ends (hclauses.declared of traitDef assoc bounds htrait hlookup bound hbound
          subject))
      refine ⟨least, ?_⟩
      intro fuel hfuel base' of' assoc' args' traitDef' bounds' hsubject' htrait' hlookup' bound
        hbound
      rw [hsubject] at hsubject'
      cases hsubject'
      rw [htrait] at htrait'
      cases htrait'
      rw [hlookup] at hlookup'
      cases hlookup'
      exact hleast bound hbound fuel hfuel
    · refine ⟨0, ?_⟩
      intro fuel _ base of assoc args traitDef bounds hsubject htrait hlookup
      exact absurd ⟨base, of, assoc, args, traitDef, bounds, hsubject, htrait, hlookup⟩ hsome
  obtain ⟨least, hleast⟩ := hbounds
  obtain ⟨least', hleast'⟩ := hdeclared
  refine ⟨max least least', ?_⟩
  intro fuel hfuel
  refine ⟨?_, ?_⟩
  · intro bounds hbounds bound hbound
    exact hleast bounds hbounds fuel (le_trans (Nat.le_max_left _ _) hfuel) bound hbound
  · intro base of assoc args traitDef bounds hsubject htrait hlookup bound hbound
    exact hleast' fuel (le_trans (Nat.le_max_right _ _) hfuel) base of assoc args traitDef bounds
      hsubject htrait hlookup bound hbound

/-- With any fuel from some on, the solver answers, and with a bound that holds exactly
where a finite derivation of it exists. -/
theorem holdsWithArgs_decides (hbuilt : Built program) (hplain : Plain program)
    (hasserted : Asserted program) (hclauses : FiniteClauses program env)
    (hunprojected : Unprojected program env ty) :
    ∃ least, ∀ fuel, least ≤ fuel → ∃ answer,
      holdsWithArgs fuel program env ty trait_ args = .ok answer ∧
        (answer.isSome = true ↔ Derivable program env ⟨ty, trait_, args⟩) := by
  obtain ⟨least, hwalks⟩ := walks_least hclauses (typesOf env ty)
  refine ⟨(questionsOf program env ⟨ty, trait_, args⟩).length + (least + 1) + 1, ?_⟩
  intro fuel hfuel
  have hrun := settled (Settled program env) (questionsOf program env ⟨ty, trait_, args⟩)
    (least + 1)
    (fun asker hasker asked hasked => questionsOf_closed hplain hasker hasked)
    (by
      intro fuel asking asker hleast hasker hasked
      have hty := (mem_questionsOf.mp hasker).1
      exact settled_step hbuilt.indexed hplain hasserted (unprojected_of_typesOf hunprojected hty)
        (by omega) (hwalks asker.ty hty fuel (by omega)) hasked)
  have hsettled := hrun fuel [] ⟨ty, trait_, args⟩ nodup_nil (nil_subset _)
    (mem_questionsOf_self _) (by rw [length_nil]; omega)
  obtain ⟨answer, hanswer, hderivable, -⟩ := hsettled
  rw [derivableUnder_nil_iff] at hderivable
  exact ⟨answer, hanswer, hderivable⟩

section Reorder

/-- The same tables, and the same impls in another order: the tables by impl id may
differ. -/
structure Reordered (program program' : Program) : Prop where
  impls : (program.impls.map Prod.snd).Perm (program'.impls.map Prod.snd)
  traits : program'.traits = program.traits
  types : program'.types = program.types
  facts : program'.facts = program.facts
  tuple : program'.tuple = program.tuple
  declarations : program'.declarations = program.declarations
  projecting : program'.projecting = program.projecting
  comparisons : program'.comparisons = program.comparisons
  hash : program'.hash = program.hash
  copyable : program'.copyable = program.copyable
  never : program'.never = program.never

namespace Reordered

section

variable (h : Reordered program program')
include h

theorem symm : Reordered program' program :=
  ⟨h.impls.symm, h.traits.symm, h.types.symm, h.facts.symm, h.tuple.symm, h.declarations.symm,
    h.projecting.symm, h.comparisons.symm, h.hash.symm, h.copyable.symm, h.never.symm⟩

theorem exists_impl {id : ImplId} {impl : ImplDef}
    (hmem : (id, impl) ∈ program'.impls) : ∃ id, (id, impl) ∈ program.impls := by
  have hin : impl ∈ program'.impls.map Prod.snd := mem_map.mpr ⟨(id, impl), hmem, rfl⟩
  obtain ⟨⟨id', impl'⟩, hmem', rfl⟩ := mem_map.mp (h.impls.mem_iff.mpr hin)
  exact ⟨id', hmem'⟩

theorem plain (hplain : Plain program) : Plain program' where
  noPins := by
    intro id impl hmem
    obtain ⟨id', hmem'⟩ := h.exists_impl hmem
    exact hplain.noPins id' impl hmem'
  noProjections := by
    intro id impl hmem
    obtain ⟨id', hmem'⟩ := h.exists_impl hmem
    exact hplain.noProjections id' impl hmem'
  noProjectedMembers := h.declarations ▸ hplain.noProjectedMembers
  noProjecting := h.projecting ▸ hplain.noProjecting
  noNewtypes := h.types ▸ hplain.noNewtypes
  copyable := h.copyable ▸ hplain.copyable
  never := h.never ▸ hplain.never
  comparisons := h.comparisons ▸ hplain.comparisons
  hash := h.hash ▸ hplain.hash

theorem asserted (hasserted : Asserted program) :
    Asserted program' where
  derived := by
    intro id impl hmem
    obtain ⟨id', hmem'⟩ := h.exists_impl hmem
    rw [h.declarations]
    exact hasserted.derived id' impl hmem'
  tupleFacts := by
    rw [h.tuple, h.facts]
    exact hasserted.tupleFacts

theorem argAt : program'.argAt = program.argAt := by
  funext trait_ written index subject
  unfold Program.argAt
  rw [h.traits]

theorem perParam : program'.perParam = program.perParam := by
  funext trait_ args
  unfold Program.perParam
  rw [h.traits]

theorem clausesOf : program'.clausesOf = program.clausesOf := by
  funext subject bound
  unfold Program.clausesOf Program.clauseAt
  rw [h.traits, h.perParam, h.argAt]

theorem finiteClauses (hclauses : FiniteClauses program env) :
    FiniteClauses program' env where
  inForce := by
    rw [h.clausesOf]
    exact hclauses.inForce
  declared := by
    rw [h.clausesOf, h.traits]
    exact hclauses.declared

theorem answersArgs (impl : ImplDef) :
    answersArgs program' impl = TraitSolver.answersArgs program impl := by
  funext ty subject written args
  unfold TraitSolver.answersArgs Program.defaultArg
  rw [h.perParam, h.argAt]

theorem boundReaches {bound : ParamBound} :
    BoundReaches program' bound question ↔ BoundReaches program bound question := by
  unfold BoundReaches saysWanted
  rw [h.clausesOf, h.perParam, h.argAt]

/-- Whether an impl reaches the type does not depend on the order. -/
theorem reachedBy (hindexed : Indexed program)
    (hindexed' : Indexed program') (trait_ : TraitDeclId) (ty : SolverType)
    (origins : List ImplOrigin) (hreached : reachedBy program' trait_ ty origins = true) :
    reachedBy program trait_ ty origins = true := by
  unfold TraitSolver.reachedBy at hreached ⊢
  rw [Bool.and_eq_true, any_eq_true] at hreached ⊢
  obtain ⟨horigins, ⟨id, impl⟩, hmem, hself⟩ := hreached
  obtain ⟨hmem, htrait, hhead⟩ := hindexed'.mem_implsFor.mp hmem
  obtain ⟨id', hmem'⟩ := h.exists_impl hmem
  refine ⟨horigins, (id', impl), hindexed.mem_implsFor.mpr ⟨hmem', htrait, hhead⟩, ?_⟩
  unfold atSelf atDefaults at hself ⊢
  rw [h.answersArgs] at hself
  exact hself

theorem rule (hindexed : Indexed program) (hindexed' : Indexed program') {premises : List Question}
    (hrule : Rule program' env question premises) : Rule program env question premises := by
  cases hrule with
  | forAll htrait hall => exact .forAll (h.traits ▸ htrait) hall
  | inForce hty hbounds hbound hreaches =>
    exact .inForce hty hbounds hbound (h.boundReaches.mp hreaches)
  | declared hty htrait hbounds hbound hreaches =>
    rw [h.clausesOf] at hreaches
    exact .declared hty (h.traits ▸ htrait) hbounds hbound hreaches
  | fact hhead hfact =>
    refine .fact ?_ (h.facts ▸ hfact)
    unfold factHead at hhead ⊢
    rw [h.tuple] at hhead
    exact hhead
  | impl hmem happlies hargs =>
    obtain ⟨id', hmem'⟩ := h.exists_impl hmem
    rw [h.answersArgs] at hargs
    refine .impl hmem' ⟨happlies.implements, happlies.value, happlies.targets, ?_, happlies.bound⟩
      hargs
    rw [Bool.eq_false_iff]
    intro hreached
    have hreached' := h.symm.reachedBy hindexed' hindexed _ _ _ hreached
    rw [happlies.stands] at hreached'
    cases hreached'
  | refAlways hty htrait hrule => exact .refAlways hty (h.traits ▸ htrait) hrule
  | refInherits hty hrule => exact .refInherits hty (h.traits ▸ hrule)

theorem derivable_iff (hbuilt : Built program) (hbuilt' : Built program') :
    Derivable program' env question ↔ Derivable program env question := by
  constructor
  · exact Derivable.mono fun _ _ => h.rule hbuilt.indexed hbuilt'.indexed
  · exact Derivable.mono fun _ _ => h.symm.rule hbuilt'.indexed hbuilt.indexed

end

end Reordered

end Reorder

/-- The solver decides derivability, and it does so of the same program with its impls
added in any other order. -/
theorem holdsWithArgs_decides_in_any_order (hbuilt : Built program) (hplain : Plain program)
    (hasserted : Asserted program) (hclauses : FiniteClauses program env)
    (hunprojected : Unprojected program env ty) (trait_ : TraitDeclId) (args : List SolverType) :
    (∃ least, ∀ fuel, least ≤ fuel → ∃ answer,
      holdsWithArgs fuel program env ty trait_ args = .ok answer ∧
        (answer.isSome = true ↔ Derivable program env ⟨ty, trait_, args⟩)) ∧
    ∀ program', Built program' → Reordered program program' → Unprojected program' env ty →
      ∃ least, ∀ fuel, least ≤ fuel → ∃ answer,
        holdsWithArgs fuel program' env ty trait_ args = .ok answer ∧
          (answer.isSome = true ↔ Derivable program env ⟨ty, trait_, args⟩) := by
  refine ⟨holdsWithArgs_decides hbuilt hplain hasserted hclauses hunprojected, ?_⟩
  intro program' hbuilt' hreordered hunprojected'
  rw [← hreordered.derivable_iff hbuilt hbuilt']
  exact holdsWithArgs_decides hbuilt' (hreordered.plain hplain) (hreordered.asserted hasserted)
    (hreordered.finiteClauses hclauses) hunprojected'

section Instances

/-- `impl Eq for i32` and `impl<T: Eq> Eq for List<T>`, with `Eq` the trait 0, `i32` the
declaration 0 and `List` the declaration 1. -/
def listProgram : Program where
  impls := [(⟨0⟩, ⟨some ⟨0⟩, [], .decl ⟨0⟩ [], [], .written⟩),
    (⟨1⟩, ⟨some ⟨0⟩, [], .decl ⟨1⟩ [.param 0], [⟨[.bare ⟨0⟩], [], false⟩], .written⟩)]
  implsByTrait := [(⟨0⟩, [⟨0⟩, ⟨1⟩])]
  implsByTarget := [((⟨0⟩, some ⟨0⟩), [⟨0⟩]), ((⟨0⟩, some ⟨1⟩), [⟨1⟩])]

theorem listProgram_built : Built listProgram :=
  @Built.push _ listProgram
    ⟨some ⟨0⟩, [], .decl ⟨1⟩ [.param 0], [⟨[.bare ⟨0⟩], [], false⟩], .written⟩ ⟨1⟩
    (@Built.push _ _ ⟨some ⟨0⟩, [], .decl ⟨0⟩ [], [], .written⟩ ⟨0⟩
      (@Built.empty {} rfl rfl rfl) rfl)
    rfl

theorem listProgram_plain : Plain listProgram where
  noPins := by
    intro id impl hmem
    simp only [listProgram, mem_cons, Prod.mk.injEq, not_mem_nil, or_false] at hmem
    rcases hmem with ⟨-, rfl⟩ | ⟨-, rfl⟩ <;> simp
  noProjections := by
    intro id impl hmem
    simp only [listProgram, mem_cons, Prod.mk.injEq, not_mem_nil, or_false] at hmem
    rcases hmem with ⟨-, rfl⟩ | ⟨-, rfl⟩ <;> simp [projected, projectedAll, ParamBound.bare]
  noProjectedMembers := by
    intro head decl hdecl
    cases hdecl
  noProjecting := rfl
  noNewtypes := by
    intro head typeDef htype
    cases htype
  copyable := rfl
  never := rfl
  comparisons := rfl
  hash := rfl

/-- `List<List<i32>>: Eq` is answered, and holds. -/
theorem holdsWithArgs_decides_lists : (∃ least, ∀ fuel, least ≤ fuel → ∃ answer,
      holdsWithArgs fuel listProgram ⟨[]⟩ (.decl ⟨1⟩ [.decl ⟨1⟩ [.decl ⟨0⟩ []]]) ⟨0⟩ [] =
        .ok answer ∧
        (answer.isSome = true ↔
          Derivable listProgram ⟨[]⟩ ⟨.decl ⟨1⟩ [.decl ⟨1⟩ [.decl ⟨0⟩ []]], ⟨0⟩, []⟩)) ∧
    ∀ program', Built program' → Reordered listProgram program' →
      Unprojected program' ⟨[]⟩ (.decl ⟨1⟩ [.decl ⟨1⟩ [.decl ⟨0⟩ []]]) →
      ∃ least, ∀ fuel, least ≤ fuel → ∃ answer,
        holdsWithArgs fuel program' ⟨[]⟩ (.decl ⟨1⟩ [.decl ⟨1⟩ [.decl ⟨0⟩ []]]) ⟨0⟩ [] =
          .ok answer ∧
          (answer.isSome = true ↔
            Derivable listProgram ⟨[]⟩ ⟨.decl ⟨1⟩ [.decl ⟨1⟩ [.decl ⟨0⟩ []]], ⟨0⟩, []⟩) := by
  apply holdsWithArgs_decides_in_any_order listProgram_built listProgram_plain
  · refine ⟨?_, ?_⟩
    · intro id impl hmem hderived
      simp only [listProgram, List.mem_cons, Prod.mk.injEq, List.not_mem_nil, or_false] at hmem
      rcases hmem with ⟨-, rfl⟩ | ⟨-, rfl⟩ <;> cases hderived
    · intro head trait_ fact htuple
      cases htuple
  · refine ⟨?_, ?_⟩
    · intro bounds hbounds
      cases hbounds
    · intro of traitDef assoc bounds htrait
      cases htrait
  · refine Or.inr ⟨rfl, ?_⟩
    intro bounds hbounds
    cases hbounds

/-- `trait Gauge<X>: Gauge<List<X>>`, with `Gauge` the trait 0 and `List` the declaration
1. -/
def growingProgram : Program where
  traits := [(⟨0⟩, { supertraits := [⟨⟨0⟩, [.decl ⟨1⟩ [.param 0]]⟩], argDefaults := [none] })]

/-- `T: Gauge<i32>`. -/
def growingEnv : Env :=
  ⟨[[⟨⟨0⟩, [.decl ⟨0⟩ []]⟩]]⟩

/-- `Gauge<List<..List<i32>>>`, `n` lists deep. -/
def growingBound (n : Nat) : ParamBound :=
  ⟨⟨0⟩, [(fun ty => SolverType.decl ⟨1⟩ [ty])^[n] (.decl ⟨0⟩ [])]⟩

theorem growingBound_injective : Function.Injective growingBound := by
  intro n
  induction n with
  | zero =>
    intro m hm
    cases m with
    | zero => rfl
    | succ m =>
      rw [growingBound, growingBound, iterate_succ_apply'] at hm
      simp at hm
  | succ n ih =>
    intro m hm
    cases m with
    | zero =>
      rw [growingBound, growingBound, iterate_succ_apply'] at hm
      simp at hm
    | succ m =>
      rw [growingBound, growingBound, iterate_succ_apply',
        iterate_succ_apply'] at hm
      simp only [ParamBound.mk.injEq, List.cons.injEq, SolverType.decl.injEq, true_and,
        and_true] at hm
      rw [ih (show growingBound n = growingBound m by rw [growingBound, hm]; rfl)]

theorem clausesOf_growing (subject : SolverType) (n : Nat) :
    growingProgram.clausesOf subject (growingBound n) = [growingBound (n + 1)] := by
  have hsucc : growingBound (n + 1) = ⟨⟨0⟩, [.decl ⟨1⟩ (growingBound n).args]⟩ := by
    rw [growingBound, iterate_succ_apply']
    rfl
  rw [hsucc]
  rfl

/-- The walk of `Gauge`'s clauses runs on: a question that comes to it is never
answered. -/
theorem growing_runs_on (fuel : Nat) :
    holdsWithArgs fuel growingProgram growingEnv (.param 0) ⟨1⟩ [] = .error .fuel := by
  cases fuel with
  | zero => rfl
  | succ fuel =>
    cases fuel with
    | zero => rfl
    | succ fuel =>
      have hwalk : growingProgram.argsReaching (fuel + 1) (growingBound 0) ⟨1⟩ (.param 0) =
          .error .fuel := by
        rw [Program.argsReaching, argsReachingFrom_eq, Worklist.walk_runs_on growingBound_injective
            (clausesOf_growing (.param 0)) (fuel + 1) 0 [] (by simp)]
      have hbound : boundAnswers growingProgram (fuel + 1) (.param 0) (growingBound 0) ⟨1⟩ [] =
          .error .fuel := by
        rw [boundAnswers, ExceptSteps.bind_of_eq_error hwalk]
      show (boundAnswers growingProgram (fuel + 1) (.param 0) (growingBound 0) ⟨1⟩ [] >>= _ >>= _) =
        _
      rw [hbound]
      rfl

/-- A fact of the tuple declaration that binds an associated type. -/
def tupleFactProgram : Program where
  facts := [((⟨0⟩, ⟨0⟩), ⟨[(⟨0⟩, .anyRow)]⟩)]
  tuple := some ⟨0⟩

/-- A derived impl that argues none of its declaration's one parameter. -/
def unarguedProgram : Program where
  impls := [(⟨0⟩, ⟨some ⟨0⟩, [], .decl ⟨0⟩ [], [], .derived⟩)]
  implsByTrait := [(⟨0⟩, [⟨0⟩])]
  implsByTarget := [((⟨0⟩, some ⟨0⟩), [⟨0⟩])]
  declarations := [(⟨0⟩, ⟨⟨0⟩, 1, false, []⟩)]

theorem unarguedProgram_built : Built unarguedProgram :=
  @Built.push _ unarguedProgram ⟨some ⟨0⟩, [], .decl ⟨0⟩ [], [], .derived⟩ ⟨0⟩
    (@Built.empty { declarations := [(⟨0⟩, ⟨⟨0⟩, 1, false, []⟩)] } rfl rfl rfl) rfl

theorem unarguedProgram_plain : Plain unarguedProgram where
  noPins := by
    intro id impl hmem
    simp only [unarguedProgram, mem_singleton, Prod.mk.injEq] at hmem
    rw [hmem.2]
    simp
  noProjections := by
    intro id impl hmem
    simp only [unarguedProgram, mem_singleton, Prod.mk.injEq] at hmem
    rw [hmem.2]
    simp [projected, projectedAll]
  noProjectedMembers := by
    intro head decl hdecl
    have hmembers : decl.members = [] := by
      rw [unarguedProgram, lookup_cons] at hdecl
      split at hdecl
      · cases hdecl
        rfl
      · cases hdecl
    rw [hmembers, projectedAll]
  noProjecting := rfl
  noNewtypes := by
    intro head typeDef htype
    cases htype
  copyable := rfl
  never := rfl
  comparisons := rfl
  hash := rfl

/-- A plain program with no impls. -/
theorem plain_of_tables (himpls : program.impls = []) (hdeclarations : program.declarations = [])
    (hprojecting : program.projecting = []) (htypes : program.types = [])
    (hcopyable : program.copyable = none) (hnever : program.never = none)
    (hcomparisons : program.comparisons = none) (hhash : program.hash = none) : Plain program where
  noPins := by
    intro id impl hmem
    rw [himpls] at hmem
    cases hmem
  noProjections := by
    intro id impl hmem
    rw [himpls] at hmem
    cases hmem
  noProjectedMembers := by
    intro head decl hdecl
    rw [hdeclarations] at hdecl
    cases hdecl
  noProjecting := hprojecting
  noNewtypes := by
    intro head typeDef htype
    rw [htypes] at htype
    cases htype
  copyable := hcopyable
  never := hnever
  comparisons := hcomparisons
  hash := hhash

/-- Questions about plain programs that are never answered: one whose walk of supertrait
clauses runs on, and two that stop at an assertion. -/
theorem plain_questions_unanswered :
    (Built growingProgram ∧ Plain growingProgram ∧ BindsNone growingProgram ∧
      ∀ fuel, holdsWithArgs fuel growingProgram growingEnv (.param 0) ⟨1⟩ [] = .error .fuel) ∧
    (Built tupleFactProgram ∧ Plain tupleFactProgram ∧
      ∀ fuel, holdsWithArgs (fuel + 2) tupleFactProgram ⟨[]⟩ (.tuple []) ⟨0⟩ [] = .error .panic) ∧
    (Built unarguedProgram ∧ Plain unarguedProgram ∧
      ∀ fuel, holdsWithArgs (fuel + 2) unarguedProgram ⟨[]⟩ (.decl ⟨0⟩ []) ⟨0⟩ [] =
        .error .panic) := by
  refine ⟨⟨.empty rfl rfl rfl, plain_of_tables rfl rfl rfl rfl rfl rfl rfl rfl, ⟨?_, ?_⟩,
    growing_runs_on⟩, ⟨.empty rfl rfl rfl, plain_of_tables rfl rfl rfl rfl rfl rfl rfl rfl, ?_⟩,
    ⟨unarguedProgram_built, unarguedProgram_plain, ?_⟩⟩
  · intro id bindings hbindings
    cases hbindings
  · intro key fact hfact
    cases hfact
  · intro fuel
    rfl
  · intro fuel
    rfl

end Instances

end Wado.TraitSolver
