/-
One impl asked about one type: it answers exactly where it applies and every bound
is settled so, among finitely many questions.
-/
import Wado.TraitSolver.Normalized

namespace Wado.TraitSolver

open SolverType CutSearch List ExceptSteps

/-- The types the bounds in force write. -/
def Env.types (env : Env) : List SolverType :=
  env.paramBounds.flatMap fun bounds => bounds.flatMap fun bound => withinAll bound.args

/-- What a question asks in turn, at most. -/
inductive AskedBy (program : Program) (env : Env) (question : Question) : Question → Prop
  | base {ty base : SolverType} {trait_ : TraitDeclId}
      (hty : ty ∈ within question.ty ∨ ty ∈ env.types) (hbase : (base, trait_) ∈ projected ty) :
      AskedBy program env question ⟨base, trait_, []⟩
  | bound {id : ImplId} {impl : ImplDef} {state : Matched} {asked : Question}
      (hmem : (id, impl) ∈ program.impls)
      (htargets : matchTarget impl.target question.ty (.unbound impl.params.length) = some state)
      (hasked : asked ∈ state.questions impl) : AskedBy program env question asked
  | pointee {isMut : Bool} {inner : SolverType} (hty : question.ty = .ref isMut inner) :
      AskedBy program env question ⟨inner, question.trait_, question.args⟩

/-- The question as the stack keeps it, not reached through a member. -/
def Question.asOpen (question : Question) : Open :=
  ⟨question.ty, question.trait_, question.args, false⟩

variable {program : Program} {env : Env}

/-- With the fuel, the question is answered under those open, exactly where it is
derivable with none of them again. -/
def Settled (program : Program) (env : Env) (fuel : Nat) (asking : List Question)
    (question : Question) : Prop :=
  ∃ answer, ((Query.mk program env none).asksWithin fuel).holds (asking.map Question.asOpen) false
      question.ty question.trait_ question.args none = .ok answer ∧
    (answer.isSome = true ↔ DerivableUnder (Rule program env) asking question) ∧
    (BindsNone program → ∀ holds, answer = some holds → holds.assoc = [])

/-- What holds while a question is open: the program is plain, and what the question
asks in turn is settled. -/
structure Opened (program : Program) (env : Env) (fuel : Nat) (asking : List Question)
    (question : Question) : Prop where
  indexed : Indexed program
  plain : Plain program
  asserted : Asserted program
  unprojected : Unprojected program env question.ty
  settled : ∀ asked, AskedBy program env question asked → Settled program env fuel asking asked

section Comparisons

theorem withholds_eq_false (h : program.comparisons = none) (trait_ : TraitDeclId)
    (ty : SolverType) : withholds program trait_ ty = false := by
  rw [withholds, h]

theorem writtenOnlyAt_eq_none (h : program.hash = none) (ty : SolverType) :
    writtenOnlyAt program ty = none := by
  rw [writtenOnlyAt, h]
  split <;> rfl

theorem newtypeBase_eq_none (h : Plain program) (ty : SolverType) :
    newtypeBase program ty = .ok none := by
  cases ty with
  | decl head args =>
    rw [newtypeBase]
    cases htype : program.types.lookup head with
    | none => rfl
    | some typeDef =>
      rw [Option.bind_some, h.noNewtypes head typeDef htype]
  | _ => rfl

theorem pinsOn_eq_nil {id : ImplId} {impl : ImplDef} (h : Plain program)
    (hmem : (id, impl) ∈ program.impls) (index : Nat) : impl.pinsOn index = [] := by
  rw [ImplDef.pinsOn, filter_eq_nil_iff]
  intro pin hpin
  obtain ⟨param, hparam, hin⟩ := mem_flatMap.mp hpin
  rw [h.noPins id impl hmem param hparam] at hin
  cases hin

end Comparisons

namespace Opened

variable {fuel : Nat} {asking : List Question} {question : Question}

/-- What is asked in turn while the question is open. -/
abbrev asks (program : Program) (env : Env) (fuel : Nat) : Asks :=
  (Query.mk program env none).asksWithin fuel

theorem bindsNoneOf (h : Opened program env fuel asking question) {ty : SolverType}
    (hty : ty ∈ within question.ty ∨ ty ∈ env.types) :
    BindsNoneOf (asks program env fuel) (asking.map Question.asOpen) (projected ty) := by
  rintro ⟨base, trait_⟩ hbase
  rcases h.unprojected with hnone | ⟨hnone, henv⟩
  · obtain ⟨held, hheld, -, hassoc⟩ := h.settled _ (.base hty hbase)
    exact ⟨held, hheld, hassoc hnone⟩
  · exfalso
    have hprojected : projected ty = [] := by
      rcases hty with hty | hty
      · exact projected_eq_nil_of_within hty hnone
      · obtain ⟨bounds, hbounds, hty⟩ := mem_flatMap.mp hty
        obtain ⟨bound, hbound, hty⟩ := mem_flatMap.mp hty
        obtain ⟨outer, houter, hin⟩ := mem_withinAll.mp hty
        exact projected_eq_nil_of_within hin
          (projectedAll_eq_nil.mp (henv bounds hbounds bound hbound) outer houter)
    rw [hprojected] at hbase
    cases hbase

section Impl

variable {id : ImplId} {impl : ImplDef} {state : Matched}

section

variable (h : Opened program env fuel asking question)
include h

theorem matchedWithin (hmem : (id, impl) ∈ program.impls)
    (htargets : matchTarget impl.target question.ty (.unbound impl.params.length) = some state) :
    MatchedWithin [question.ty] (.unbound impl.params.length) state :=
  matchTarget_within (h.plain.noProjections id impl hmem).1 htargets

theorem boundNoneOf (hmem : (id, impl) ∈ program.impls)
    (htargets : matchTarget impl.target question.ty (.unbound impl.params.length) = some state) :
    BoundNoneOf (asks program env fuel) (asking.map Question.asOpen) state := by
  intro i ty hty
  obtain ⟨binding, hbinding, rfl⟩ := Option.map_eq_some_iff.mp hty
  have hwithin : ∀ element ∈ binding.elements, element ∈ within question.ty := by
    intro element helement
    rcases (h.matchedWithin hmem htargets).bound i binding hbinding with hold | hin
    · rw [Matched.bindingAt_unbound] at hold
      cases hold
    · have hin := hin element helement
      rw [withinAll, withinAll, append_nil] at hin
      exact hin
  intro asked hasked
  have hfrom : ∃ element ∈ binding.elements, asked ∈ projected element := by
    cases binding with
    | one ty => exact ⟨ty, mem_singleton_self ty, hasked⟩
    | pack elems => exact mem_projectedAll.mp hasked
  obtain ⟨element, helement, hin⟩ := hfrom
  exact h.bindsNoneOf (Or.inl (hwithin element helement)) asked hin

end

variable {param : ParamDef × Nat} {progress : Progress}

/-- One bound asked of one element, the bindings left as they are. -/
theorem askBound_eq (h : Opened program env fuel asking question)
    (hmem : (id, impl) ∈ program.impls)
    (htargets : matchTarget impl.target question.ty (.unbound impl.params.length) = some state)
    (hparam : param ∈ impl.params.zipIdx) {binding : Binding}
    (hbinding : state.bindingAt param.2 = some binding) {bound : ParamBound}
    (hbound : bound ∈ param.1.bounds) {element : SolverType} (helement : element ∈ binding.elements)
    (hprogress : progress.state = state) :
    ∃ r, Query.askBound (asks program env fuel) (asking.map Question.asOpen) param.1 false bound
        element progress = .ok r ∧
      (r.isSome = true ↔ DerivableUnder (Rule program env) asking
        ⟨element, bound.trait_, bound.args.map state.argAt⟩) ∧
      ∀ progress', r = some progress' → progress'.state = state := by
  have hin : param.1 ∈ impl.params := fst_mem_of_mem_zipIdx hparam
  have hargs : argsAtBindings (asks program env fuel) (asking.map Question.asOpen) progress.state
      bound.args = .ok (bound.args.map state.argAt) := by
    rw [hprogress]
    exact argsAtBindings_eq (h.boundNoneOf hmem htargets)
      ((h.plain.noProjections id impl hmem).2.2 param.1 hin bound hbound)
  have hasked : (⟨element, bound.trait_, bound.args.map state.argAt⟩ : Question) ∈
      state.questions impl := by
    apply mem_flatMap.mpr
    refine ⟨param, hparam, ?_⟩
    rw [hbinding]
    apply mem_flatMap.mpr
    exact ⟨bound, hbound, mem_map.mpr ⟨element, helement, rfl⟩⟩
  obtain ⟨answer, hanswer, hderivable, -⟩ := h.settled _ (.bound hmem htargets hasked)
  dsimp only at hanswer
  rw [Query.askBound, bind_of_eq_ok hargs, bind_of_eq_ok hanswer]
  cases answer with
  | none =>
    refine ⟨none, rfl, hderivable, ?_⟩
    intro progress' hfalse
    cases hfalse
  | some holds =>
    have hpins : meetsPins (asks program env fuel) (asking.map Question.asOpen) param.1.pins
        bound.trait_ holds progress.state = .ok (some progress.state) := by
      rw [h.plain.noPins id impl hmem param.1 hin]
      rfl
    refine ⟨some ⟨progress.state, progress.requests ++ holds.requests⟩, ?_, hderivable, ?_⟩
    · dsimp only
      rw [bind_of_eq_ok hpins]
      rfl
    · intro progress' heq
      cases heq
      exact hprogress

/-- Every bound of a parameter holds of each type the match bound it to. -/
def ParamHolds (rule : Question → List Question → Prop) (asking : List Question)
    (state : Matched) (param : ParamDef × Nat) : Prop :=
  match state.bindingAt param.2 with
  | none => param.1.bounds = []
  | some binding => ∀ bound ∈ param.1.bounds, ∀ element ∈ binding.elements,
      DerivableUnder rule asking ⟨element, bound.trait_, bound.args.map state.argAt⟩

theorem paramAnswers_eq (h : Opened program env fuel asking question)
    (hmem : (id, impl) ∈ program.impls)
    (htargets : matchTarget impl.target question.ty (.unbound impl.params.length) = some state)
    {fromPin : Nat → Bool} (hparam : param ∈ impl.params.zipIdx)
    (hprogress : progress.state = state) :
    ∃ r, (Query.mk program env none).paramAnswers fuel (asks program env fuel)
        (asking.map Question.asOpen) impl fromPin param progress = .ok r ∧
      (r.isSome = true ↔ ParamHolds (Rule program env) asking state param) ∧
      ∀ progress', r = some progress' → progress'.state = state := by
  have hpins := pinsOn_eq_nil h.plain hmem param.2
  unfold Query.paramAnswers ParamHolds
  rw [hpins, hprogress]
  cases hbinding : state.bindingAt param.2 with
  | none =>
    by_cases hbounds : param.1.bounds = []
    · refine ⟨some progress, ?_, ?_, ?_⟩
      · simp [hbounds, pure, Except.pure]
      · simp [hbounds]
      · intro progress' heq
        cases heq
        exact hprogress
    · refine ⟨none, ?_, ?_, ?_⟩
      · simp [hbounds, pure, Except.pure]
      · simp [hbounds]
      · intro progress' heq
        cases heq
  | some binding =>
    have hcopyable : (Query.mk program env none).copyableAnswers fuel (asks program env fuel)
        (asking.map Question.asOpen) param.1 (fromPin param.2 && false) binding.elements =
          .ok true := by
      unfold Query.copyableAnswers
      rw [h.plain.copyable]
    simp only [any_nil, Bool.and_false] at hcopyable ⊢
    rw [bind_of_eq_ok hcopyable]
    simp only [if_true]
    apply eachSome_spec (fun progress : Progress => progress.state = state)
      (fun bound : ParamBound => ∀ element ∈ binding.elements,
        DerivableUnder (Rule program env) asking
          ⟨element, bound.trait_, bound.args.map state.argAt⟩) _ progress hprogress
    intro bound hbound progress' hprogress'
    apply eachSome_spec (fun progress : Progress => progress.state = state)
      (fun element : SolverType => DerivableUnder (Rule program env) asking
        ⟨element, bound.trait_, bound.args.map state.argAt⟩) _ progress' hprogress'
    intro element helement progress'' hprogress''
    exact h.askBound_eq hmem htargets hparam hbinding hbound helement hprogress''

/-- Every parameter holds exactly where no bounded one is left open and every bound
asked is derivable. -/
theorem paramsHold_iff (rule : Question → List Question → Prop) :
    (∀ param ∈ impl.params.zipIdx, ParamHolds rule asking state param) ↔
      (∀ param ∈ impl.params.zipIdx, state.bindingAt param.2 = none → param.1.bounds = []) ∧
        ∀ asked ∈ state.questions impl, DerivableUnder rule asking asked := by
  constructor
  · intro hall
    constructor
    · intro param hparam hopen
      have hholds := hall param hparam
      unfold ParamHolds at hholds
      rw [hopen] at hholds
      exact hholds
    · intro asked hasked
      obtain ⟨param, hparam, hin⟩ := mem_flatMap.mp hasked
      have hholds := hall param hparam
      unfold ParamHolds at hholds
      cases hbinding : state.bindingAt param.2 with
      | none =>
        rw [hbinding] at hin
        cases hin
      | some binding =>
        rw [hbinding] at hin hholds
        obtain ⟨bound, hbound, hin⟩ := mem_flatMap.mp hin
        obtain ⟨element, helement, rfl⟩ := mem_map.mp hin
        exact hholds bound hbound element helement
  · rintro ⟨hopen, hasked⟩ param hparam
    unfold ParamHolds
    cases hbinding : state.bindingAt param.2 with
    | none => exact hopen param hparam hbinding
    | some binding =>
      intro bound hbound element helement
      apply hasked
      apply mem_flatMap.mpr
      refine ⟨param, hparam, ?_⟩
      rw [hbinding]
      apply mem_flatMap.mpr
      exact ⟨bound, hbound, mem_map.mpr ⟨element, helement, rfl⟩⟩

section

variable (h : Opened program env fuel asking question)
include h

/-- No member is asked: none is projected. -/
theorem projectedMembers_eq (hmem : (id, impl) ∈ program.impls)
    (htargets : matchTarget impl.target question.ty (.unbound impl.params.length) = some state)
    {trait_ : TraitDeclId} :
    (Query.mk program env none).projectedMembers (asks program env fuel)
      (asking.map Question.asOpen) trait_ impl question.ty progress = .ok (some progress) := by
  unfold Query.projectedMembers
  split
  case h_2 => rfl
  case h_1 ty head args hty =>
    by_cases hderived : impl.origin = .derived
    · rw [if_pos hderived]
      cases hdecl : program.declarations.lookup head with
      | none => rfl
      | some decl =>
        obtain ⟨head', args', htarget, hparams⟩ := h.asserted.derived id impl hmem hderived
        rw [htarget, hty, matchTarget] at htargets
        have hsame : head' = head ∧ args'.length = args.length := by
          by_contra hne
          rw [if_neg hne] at htargets
          cases htargets
        have hlength : args.length = decl.params := by
          rw [hparams decl (hsame.1 ▸ hdecl), hsame.2]
        have hnone : decl.members.filter (fun member => member.projectsParam program.projecting) =
            [] := by
          rw [filter_eq_nil_iff]
          intro member hmember
          have hall := h.plain.noProjectedMembers head decl hdecl
          rw [h.plain.noProjecting,
            projectsParam_eq_false member (projectedAll_eq_nil.mp hall member hmember)]
          simp
        have hmembers : decl.projectedMembersAt args program.projecting = .ok [] := by
          rw [Declaration.projectedMembersAt, if_pos hlength, hnone, Declaration.instantiated]
        dsimp only
        rw [bind_of_eq_ok hmembers, eachSome]
    · rw [if_neg hderived]

/-- An impl answers exactly where it applies and every bound is derivable of what the
match bound. -/
theorem implAnswers_eq
    (hmem : (id, impl) ∈ program.impls) (htrait : impl.trait_ = some question.trait_) :
    ∃ r, (Query.mk program env none).implAnswers fuel (asks program env fuel)
        (asking.map Question.asOpen) id impl question.ty = .ok r ∧
      (∀ answer, r = some answer → ∃ state, Applies program impl question.trait_ question.ty state ∧
        (∀ asked ∈ state.questions impl, DerivableUnder (Rule program env) asking asked) ∧
        answer.traitArgs = impl.traitArgs.map state.argAt ∧
        (BindsNone program → answer.holds.assoc = [])) ∧
      (∀ state, Applies program impl question.trait_ question.ty state →
        (∀ asked ∈ state.questions impl, DerivableUnder (Rule program env) asking asked) →
        r.isSome = true) := by
  have hfails : ∀ {r : Option Answer}, r = none →
      (∀ state, ¬ (Applies program impl question.trait_ question.ty state ∧
        ∀ asked ∈ state.questions impl, DerivableUnder (Rule program env) asking asked)) →
      (∀ answer, r = some answer → ∃ state, Applies program impl question.trait_ question.ty state ∧
        (∀ asked ∈ state.questions impl, DerivableUnder (Rule program env) asking asked) ∧
        answer.traitArgs = impl.traitArgs.map state.argAt ∧
        (BindsNone program → answer.holds.assoc = [])) ∧
      (∀ state, Applies program impl question.trait_ question.ty state →
        (∀ asked ∈ state.questions impl, DerivableUnder (Rule program env) asking asked) →
        r.isSome = true) := by
    rintro r rfl hno
    constructor
    · intro answer hfalse
      cases hfalse
    · intro state happlies hall
      exact absurd ⟨happlies, hall⟩ (hno state)
  unfold Query.implAnswers
  rw [htrait]
  dsimp only
  by_cases hblanket : impl.blanketAtRef question.ty = true
  · rw [if_pos hblanket]
    refine ⟨none, rfl, hfails rfl ?_⟩
    rintro state ⟨happlies, -⟩
    rw [happlies.value] at hblanket
    cases hblanket
  rw [if_neg hblanket]
  cases htargets : matchTarget impl.target question.ty (.unbound impl.params.length) with
  | none =>
    refine ⟨none, rfl, hfails rfl ?_⟩
    rintro state ⟨happlies, -⟩
    rw [happlies.targets] at htargets
    cases htargets
  | some state =>
    have hdeferred : state.deferred = [] := (h.matchedWithin hmem htargets).deferred
    have hstate : ∀ state', Applies program impl question.trait_ question.ty state' →
        state' = state := by
      intro state' happlies
      exact Option.some.inj (happlies.targets.symm.trans htargets)
    have hrefuted : projectionsRefuted (asks program env fuel) (asking.map Question.asOpen) state
        state.deferred = .ok false := by
      rw [hdeferred]
      rfl
    dsimp only
    rw [bind_of_eq_ok hrefuted]
    simp only [Bool.false_eq_true, if_false]
    have hgives : (Query.mk program env none).givesWay question.trait_ impl question.ty =
        reachedBy program question.trait_ question.ty impl.origin.yieldsTo := by
      unfold Query.givesWay
      rw [writtenOnlyAt_eq_none h.plain.hash]
      simp
    rw [hgives]
    by_cases hstands : reachedBy program question.trait_ question.ty impl.origin.yieldsTo = true
    · rw [if_pos hstands]
      refine ⟨none, rfl, hfails rfl ?_⟩
      rintro state' ⟨happlies, -⟩
      rw [happlies.stands] at hstands
      cases hstands
    rw [if_neg hstands]
    -- The order of the parameters does not matter: each holds or not by itself.
    have hparams : ∀ param ∈
        impl.params.zipIdx.filter (fun param => !(state.bindingAt param.2).isNone) ++
          impl.params.zipIdx.filter (fun param => (state.bindingAt param.2).isNone),
        ∀ progress : Progress, progress.state = state → ∃ r,
          (Query.mk program env none).paramAnswers fuel (asks program env fuel)
            (asking.map Question.asOpen) impl (fun index => (state.bindingAt index).isNone) param
            progress = .ok r ∧
          (r.isSome = true ↔ ParamHolds (Rule program env) asking state param) ∧
          ∀ progress', r = some progress' → progress'.state = state := by
      intro param hparam progress hprogress
      apply h.paramAnswers_eq hmem htargets _ hprogress
      rcases mem_append.mp hparam with hin | hin
      · exact (mem_filter.mp hin).1
      · exact (mem_filter.mp hin).1
    obtain ⟨r, hr, hholds, hkept⟩ := eachSome_spec
      (fun progress : Progress => progress.state = state)
      (ParamHolds (Rule program env) asking state) hparams
      ⟨state, (Query.mk program env none).ownRequests question.trait_ impl question.ty⟩ rfl
    have hall : (r.isSome = true) ↔
        ∀ param ∈ impl.params.zipIdx, ParamHolds (Rule program env) asking state param := by
      rw [hholds]
      constructor
      · intro hall param hparam
        apply hall
        cases hopen : (state.bindingAt param.2).isNone with
        | true => exact mem_append_right _ (mem_filter.mpr ⟨hparam, hopen⟩)
        | false =>
          apply mem_append_left
          exact mem_filter.mpr ⟨hparam, by rw [hopen]; rfl⟩
      · intro hall param hparam
        rcases mem_append.mp hparam with hin | hin
        · exact hall param (mem_filter.mp hin).1
        · exact hall param (mem_filter.mp hin).1
    rw [paramsHold_iff] at hall
    rw [bind_of_eq_ok hr]
    cases r with
    | none =>
      refine ⟨none, rfl, hfails rfl ?_⟩
      rintro state' ⟨happlies, hasked⟩
      cases hstate state' happlies
      exact absurd (hall.mpr ⟨happlies.bound, hasked⟩) (by simp)
    | some progress =>
      obtain ⟨hbound, hasked⟩ := hall.mp rfl
      have hprogress := hkept progress rfl
      have hmet : projectionsMet (asks program env fuel) (asking.map Question.asOpen)
          progress.state = .ok true := by
        rw [hprogress, projectionsMet, hdeferred]
        rfl
      have hargs := argsAtBindings_eq (h.boundNoneOf hmem htargets)
        (h.plain.noProjections id impl hmem).2.1
      rw [← hprogress] at hargs
      dsimp only
      rw [bind_of_eq_ok (h.projectedMembers_eq hmem htargets)]
      dsimp only
      rw [bind_of_eq_ok hmet]
      simp only [if_true]
      rw [bind_of_eq_ok hargs]
      refine ⟨_, rfl, ?_, ?_⟩
      · intro answer heq
        cases heq
        refine ⟨state, ⟨htrait, by simpa using hblanket, htargets, by simpa using hstands,
          hbound⟩, hasked, by rw [hprogress], ?_⟩
        intro hnone
        dsimp only
        cases hbindings : program.assocBindings.lookup id with
        | none => rfl
        | some bindings =>
          rw [hnone.1 id bindings hbindings]
          rfl
      · intro _ _ _
        rfl

end

end Impl

end Opened

end Wado.TraitSolver
