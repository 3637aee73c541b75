/-
Every question is settled: the questions one can lead to are finitely many, and cutting
the one that reaches itself loses no derivation.
-/
import Wado.TraitSolver.ImplSettles

namespace Wado.TraitSolver

open SolverType CutSearch Option ExceptSteps

variable {program : Program} {env : Env}

/-- The walks that a question on the type makes, with the fuel. -/
structure WalksAnswer (program : Program) (env : Env) (fuel : Nat) (ty : SolverType) : Prop where
  inForce : ∀ bounds ∈ env.paramBounds, ∀ bound ∈ bounds, WalkAnswers program fuel bound ty
  declared : ∀ base of assoc args traitDef bounds, ty = .projection base of assoc args →
    program.traits.lookup of = some traitDef →
    traitDef.assocBounds.lookup assoc = some bounds →
    ∀ bound ∈ bounds, WalkAnswers program fuel (.bare bound) ty

namespace Opened

variable {fuel : Nat} {asking : List Question} {question : Question}

theorem neverHolds_eq (h : Opened program env fuel asking question) (hfuel : 1 ≤ fuel) :
    (Query.mk program env none).neverHolds fuel question.ty question.trait_ = .ok none := by
  obtain ⟨fuel, rfl⟩ : ∃ n, fuel = n + 1 := ⟨fuel - 1, by omega⟩
  have hpeeled : peelNewtypes program (fuel + 1) [question.ty] question.ty = .ok question.ty := by
    rw [peelNewtypes, bind_of_eq_ok (newtypeBase_eq_none h.plain question.ty)]
    rfl
  have hnever : (Query.mk program env none).peelsToNever (fuel + 1) question.ty = .ok false := by
    rw [Query.peelsToNever, bind_of_eq_ok hpeeled, h.plain.never]
    rfl
  rw [Query.neverHolds, bind_of_eq_ok hnever]
  rfl

/-- A bound in force on the type's parameter reaches the question. -/
def InForceReaches (program : Program) (env : Env) (question : Question) : Prop :=
  ∃ index bounds bound, (question.ty = .param index ∨ question.ty = .pack index) ∧
    env.paramBounds[index]? = some bounds ∧ bound ∈ bounds ∧ BoundReaches program bound question

section

variable (h : Opened program env fuel asking question)
include h

section

variable (hwalks : WalksAnswer program env fuel question.ty)
include hwalks

theorem inForce_eq {bounds : List ParamBound} (hbounds : bounds ∈ env.paramBounds) :
    ∃ b, anyRun (fun bound => do
        let boundArgs ← normalizedEach (asks program env fuel) (asking.map Question.asOpen)
          bound.args
        boundAnswers program fuel question.ty ⟨bound.trait_, boundArgs⟩ question.trait_
          question.args) bounds = .ok b ∧
      (b = true ↔ ∃ bound ∈ bounds, BoundReaches program bound question) := by
  apply anyRun_spec
  intro bound hbound
  have hargs : normalizedEach (asks program env fuel) (asking.map Question.asOpen) bound.args =
      .ok bound.args := by
    apply normalizedEach_eq
    intro asked hasked
    obtain ⟨ty, hty, hin⟩ := mem_projectedAll.mp hasked
    refine h.bindsNoneOf (Or.inr ?_) asked hin
    apply List.mem_flatMap.mpr
    refine ⟨bounds, hbounds, List.mem_flatMap.mpr ⟨bound, hbound, ?_⟩⟩
    exact mem_withinAll.mpr ⟨ty, hty, mem_within_self ty⟩
  rw [bind_of_eq_ok hargs]
  exact boundAnswers_eq (hwalks.inForce bounds hbounds bound hbound)

theorem envAnswers_eq :
    ∃ b, (Query.mk program env none).envAnswers fuel (asks program env fuel)
        (asking.map Question.asOpen) question.ty question.trait_ question.args = .ok b ∧
      (b = true ↔ InForceReaches program env question) := by
  have hnone : ∀ index, (question.ty = .param index ∨ question.ty = .pack index) →
      env.paramBounds[index]? = none →
      (Query.mk program env none).envAnswers fuel (asks program env fuel)
        (asking.map Question.asOpen) question.ty question.trait_ question.args = .ok false := by
    rintro index (hty | hty) hbounds <;> (unfold Query.envAnswers; simp only [hty, hbounds])
  have hsome : ∀ index bounds, (question.ty = .param index ∨ question.ty = .pack index) →
      env.paramBounds[index]? = some bounds →
      (Query.mk program env none).envAnswers fuel (asks program env fuel)
          (asking.map Question.asOpen) question.ty question.trait_ question.args =
        anyRun (fun bound => do
          let boundArgs ← normalizedEach (asks program env fuel) (asking.map Question.asOpen)
            bound.args
          boundAnswers program fuel question.ty ⟨bound.trait_, boundArgs⟩ question.trait_
            question.args) bounds := by
    rintro index bounds (hty | hty) hbounds <;> (unfold Query.envAnswers; simp only [hty, hbounds])
  have hindex : ∀ index, (question.ty = .param index ∨ question.ty = .pack index) →
      ∃ b, (Query.mk program env none).envAnswers fuel (asks program env fuel)
        (asking.map Question.asOpen) question.ty question.trait_ question.args = .ok b ∧
      (b = true ↔ InForceReaches program env question) := by
    intro index hty
    have honly : ∀ index', (question.ty = .param index' ∨ question.ty = .pack index') →
        index' = index := by
      rintro index' (hty' | hty') <;> rcases hty with hty | hty <;> rw [hty] at hty' <;>
        cases hty' <;> rfl
    cases hbounds : env.paramBounds[index]? with
    | none =>
      refine ⟨false, hnone index hty hbounds, ?_⟩
      constructor
      · intro hfalse
        cases hfalse
      · rintro ⟨index', bounds, bound, hty', hbounds', -, -⟩
        rw [honly index' hty', hbounds] at hbounds'
        cases hbounds'
    | some bounds =>
      obtain ⟨b, hb, hany⟩ := h.inForce_eq hwalks (List.mem_of_getElem? hbounds)
      refine ⟨b, (hsome index bounds hty hbounds).trans hb, ?_⟩
      rw [hany]
      constructor
      · rintro ⟨bound, hbound, hreaches⟩
        exact ⟨index, bounds, bound, hty, hbounds, hbound, hreaches⟩
      · rintro ⟨index', bounds', bound, hty', hbounds', hbound, hreaches⟩
        rw [honly index' hty', hbounds] at hbounds'
        cases hbounds'
        exact ⟨bound, hbound, hreaches⟩
  cases hty : question.ty with
  | param index =>
    rw [← hty]
    exact hindex index (Or.inl hty)
  | pack index =>
    rw [← hty]
    exact hindex index (Or.inr hty)
  | _ =>
    refine ⟨false, rfl, ?_⟩
    constructor
    · intro hfalse
      cases hfalse
    · rintro ⟨index, bounds, bound, hparam | hpack, -⟩
      · rw [hty] at hparam
        cases hparam
      · rw [hty] at hpack
        cases hpack

end

end

/-- A bound the trait declares of the projected type reaches the asked trait. -/
def DeclaredReaches (program : Program) (question : Question) : Prop :=
  ∃ base of assoc args traitDef bounds bound args', question.ty = .projection base of assoc args ∧
    program.traits.lookup of = some traitDef ∧
    traitDef.assocBounds.lookup assoc = some bounds ∧ bound ∈ bounds ∧
    Worklist.Reaches (program.clausesOf question.ty) (.bare bound) ⟨question.trait_, args'⟩

theorem declaredAnswers_eq (hwalks : WalksAnswer program env fuel question.ty) :
    ∃ b, (Query.mk program env none).declaredAnswers fuel question.ty question.trait_ = .ok b ∧
      (b = true ↔ DeclaredReaches program question) := by
  unfold Query.declaredAnswers
  cases hty : question.ty with
  | projection base of assoc args =>
    dsimp only
    have hnone : (program.traits.lookup of).bind (fun traitDef =>
        traitDef.assocBounds.lookup assoc) = none → ¬ DeclaredReaches program question := by
      rintro hnone ⟨base', of', assoc', args', traitDef, bounds, bound, args'', hty', htrait,
        hbounds, -⟩
      rw [hty] at hty'
      cases hty'
      rw [htrait, bind_some, hbounds] at hnone
      cases hnone
    cases hlookup : (program.traits.lookup of).bind fun traitDef =>
        traitDef.assocBounds.lookup assoc with
    | none =>
      refine ⟨false, rfl, ?_⟩
      constructor
      · intro hfalse
        cases hfalse
      · intro hreaches
        exact absurd hreaches (hnone hlookup)
    | some bounds =>
      obtain ⟨traitDef, htrait, hbounds⟩ := bind_eq_some_iff.mp hlookup
      obtain ⟨b, hb, hany⟩ := anyRun_spec
        (fun bound => ∃ args', Worklist.Reaches (program.clausesOf question.ty) (.bare bound)
          ⟨question.trait_, args'⟩)
        (fun bound hbound => boundReaches_eq
          (hwalks.declared base of assoc args traitDef bounds hty htrait hbounds bound hbound))
      rw [hty] at hb hany
      refine ⟨b, hb, ?_⟩
      rw [hany]
      constructor
      · rintro ⟨bound, hbound, args', hreaches⟩
        refine ⟨base, of, assoc, args, traitDef, bounds, bound, args', hty, htrait, hbounds,
          hbound, ?_⟩
        rw [hty]
        exact hreaches
      · rintro ⟨base', of', assoc', args', traitDef', bounds', bound, args'', hty', htrait',
          hbounds', hbound, hreaches⟩
        rw [hty] at hty'
        cases hty'
        rw [htrait] at htrait'
        cases htrait'
        rw [hbounds] at hbounds'
        cases hbounds'
        rw [hty] at hreaches
        exact ⟨bound, hbound, args'', hreaches⟩
  | _ =>
    refine ⟨false, rfl, ?_⟩
    constructor
    · intro hfalse
      cases hfalse
    · rintro ⟨base', of', assoc', args', traitDef, bounds, bound, args'', hty', -⟩
      rw [hty] at hty'
      cases hty'

/-- A fact is stated of the type's declaration. -/
def FactHolds (program : Program) (question : Question) : Prop :=
  ∃ head fact, factHead program question.ty = some head ∧
    program.facts.lookup (head, question.trait_) = some fact

theorem factAnswers_eq (h : Opened program env fuel asking question) :
    ∃ r, (Query.mk program env none).factAnswers question.ty question.trait_ = .ok r ∧
      (r.isSome = true ↔ FactHolds program question) ∧
      (BindsNone program → ∀ holds, r = some holds → holds.assoc = []) := by
  unfold Query.factAnswers
  dsimp only
  cases hlookup : (factHead program question.ty).bind fun head =>
      program.facts.lookup (head, question.trait_) with
  | none =>
    refine ⟨none, rfl, ?_, ?_⟩
    · constructor
      · intro hfalse
        cases hfalse
      · rintro ⟨head, fact, hhead, hfact⟩
        rw [hhead, bind_some, hfact] at hlookup
        cases hlookup
    · intro _ holds hfalse
      cases hfalse
  | some fact =>
    obtain ⟨head, hhead, hfact⟩ := bind_eq_some_iff.mp hlookup
    have hholds : FactHolds program question := ⟨head, fact, hhead, hfact⟩
    dsimp only
    cases hty : question.ty with
    | decl tyHead args =>
      refine ⟨_, rfl, ⟨fun _ => hholds, fun _ => rfl⟩, ?_⟩
      intro hnone holds heq
      cases heq
      rw [hnone.2 _ fact hfact]
      rfl
    | tuple elems =>
      rw [hty] at hhead
      have hempty := h.asserted.tupleFacts head question.trait_ fact hhead hfact
      rw [hempty]
      refine ⟨_, rfl, ⟨fun _ => hholds, fun _ => rfl⟩, ?_⟩
      intro _ holds heq
      cases heq
      rfl
    | _ =>
      rw [hty] at hhead
      cases hhead

/-- An impl of the trait applies, at what the question asks, with every bound
derivable. -/
def ImplHolds (program : Program) (env : Env) (asking : List Question) (question : Question)
    (impl : ImplDef) : Prop :=
  ∃ state, Applies program impl question.trait_ question.ty state ∧
    answersArgs program impl question.ty none (impl.traitArgs.map state.argAt) question.args =
      true ∧
    ∀ asked ∈ state.questions impl, DerivableUnder (Rule program env) asking asked

section

variable (h : Opened program env fuel asking question)
include h

theorem implsAnswer_eq :
    ∃ r, (Query.mk program env none).implsAnswer fuel (asks program env fuel)
        (asking.map Question.asOpen) question.ty question.trait_ question.args none = .ok r ∧
      (r.isSome = true ↔
        ∃ id impl, (id, impl) ∈ program.impls ∧ ImplHolds program env asking question impl) ∧
      ∀ holds, r = some holds → BindsNone program → holds.assoc = [] := by
  obtain ⟨r, hr, hany, hassoc⟩ : ∃ r, (Query.mk program env none).implsAnswer fuel
        (asks program env fuel) (asking.map Question.asOpen) question.ty question.trait_
        question.args none = .ok r ∧
      (r.isSome = true ↔ ∃ entry ∈ program.implsFor question.trait_ question.ty,
        ImplHolds program env asking question entry.2) ∧
      ∀ holds, r = some holds → BindsNone program → holds.assoc = [] := by
    unfold Query.implsAnswer
    apply firstSome_spec (fun holds : Holds => BindsNone program → holds.assoc = [])
      (fun entry : ImplId × ImplDef => ImplHolds program env asking question entry.2)
    rintro ⟨id, impl⟩ hentry
    obtain ⟨hmem, htrait, -⟩ := h.indexed.mem_implsFor.mp hentry
    obtain ⟨r, hr, hsound, hcomplete⟩ := h.implAnswers_eq hmem htrait
    simp only [isSome_none, Bool.false_and, Bool.false_eq_true, if_false]
    rw [bind_of_eq_ok hr]
    cases r with
    | none =>
      refine ⟨none, rfl, ?_, ?_⟩
      · constructor
        · intro hfalse
          cases hfalse
        · rintro ⟨state, happlies, -, hall⟩
          exact hcomplete state happlies hall
      · intro holds hfalse
        cases hfalse
    | some answer =>
      obtain ⟨state, happlies, hall, htraitArgs, hassoc⟩ := hsound answer rfl
      dsimp only
      by_cases hargs : answersArgs program impl question.ty none answer.traitArgs
          question.args = true
      · rw [if_pos hargs]
        refine ⟨some answer.holds, rfl, ?_, ?_⟩
        · constructor
          · intro _
            rw [htraitArgs] at hargs
            exact ⟨state, happlies, hargs, hall⟩
          · intro _
            rfl
        · intro holds heq
          cases heq
          exact hassoc
      · rw [if_neg hargs]
        refine ⟨none, rfl, ?_, ?_⟩
        · constructor
          · intro hfalse
            cases hfalse
          · rintro ⟨state', happlies', hargs', -⟩
            exfalso
            apply hargs
            have hsame := Option.some.inj (happlies.targets.symm.trans happlies'.targets)
            rw [htraitArgs, hsame]
            exact hargs'
        · intro holds hfalse
          cases hfalse
  refine ⟨r, hr, ?_, hassoc⟩
  rw [hany]
  constructor
  · rintro ⟨⟨id, impl⟩, hentry, hholds⟩
    exact ⟨id, impl, (h.indexed.mem_implsFor.mp hentry).1, hholds⟩
  · rintro ⟨id, impl, hmem, hholds⟩
    refine ⟨(id, impl), ?_, hholds⟩
    obtain ⟨state, happlies, -⟩ := hholds
    rw [h.indexed.mem_implsFor]
    exact ⟨hmem, happlies.implements, targetHead_of_match happlies.targets⟩

theorem baseAnswers_eq :
    (Query.mk program env none).baseAnswers (asks program env fuel) (asking.map Question.asOpen)
      question.ty question.trait_ question.args none = .ok none := by
  unfold Query.baseAnswers
  rw [writtenOnlyAt_eq_none h.plain.hash]
  simp only [reduceCtorEq, decide_false, Bool.or_self, Bool.false_eq_true, if_false]
  rw [bind_of_eq_ok (newtypeBase_eq_none h.plain question.ty)]
  rfl

end

/-- How a reference answers the trait. -/
def onRef (program : Program) (trait_ : TraitDeclId) : RefRule :=
  ((program.traits.lookup trait_).map TraitDef.onRef).getD .inherits

/-- The pointee's answer is the reference's. -/
def PointeeHolds (program : Program) (env : Env) (asking : List Question) (question : Question) :
    Prop :=
  ∃ isMut inner, question.ty = .ref isMut inner ∧ onRef program question.trait_ = .inherits ∧
    DerivableUnder (Rule program env) asking ⟨inner, question.trait_, question.args⟩

theorem refAnswers_eq (h : Opened program env fuel asking question) :
    ∃ r, Query.refAnswers (asks program env fuel) (asking.map Question.asOpen)
        (onRef program question.trait_) question.ty question.trait_ question.args = .ok r ∧
      (r.isSome = true ↔ PointeeHolds program env asking question) ∧
      (BindsNone program → ∀ holds, r = some holds → holds.assoc = []) := by
  unfold Query.refAnswers
  split
  case h_1 ty onRef isMut inner hty hrule =>
    obtain ⟨r, hr, hderivable, hassoc⟩ := h.settled _ (.pointee hty)
    refine ⟨r, hr, ?_, hassoc⟩
    rw [hderivable]
    constructor
    · intro hinner
      exact ⟨isMut, inner, hty, hrule, hinner⟩
    · rintro ⟨isMut', inner', hty', -, hinner⟩
      rw [hty] at hty'
      cases hty'
      exact hinner
  case h_2 ty onRef hno =>
    refine ⟨none, rfl, ?_, ?_⟩
    · constructor
      · intro hfalse
        cases hfalse
      · rintro ⟨isMut, inner, hty, hrule, -⟩
        exact absurd hrule (hno isMut inner hty)
    · intro _ holds hfalse
      cases hfalse

/-- A rule of the question whose premises are derivable, by its kind. -/
theorem rule_iff : (∃ premises, Rule program env question premises ∧
      ∀ p ∈ premises, DerivableUnder (Rule program env) asking p) ↔
    (∃ traitDef, program.traits.lookup question.trait_ = some traitDef ∧
        traitDef.holdsForAll = true) ∨
      (∃ isMut inner, question.ty = .ref isMut inner ∧ onRef program question.trait_ = .always) ∨
      InForceReaches program env question ∨ DeclaredReaches program question ∨
      FactHolds program question ∨
      (∃ id impl, (id, impl) ∈ program.impls ∧ ImplHolds program env asking question impl) ∨
      PointeeHolds program env asking question := by
  constructor
  · rintro ⟨premises, hrule, hall⟩
    cases hrule with
    | forAll htrait hforAll => exact Or.inl ⟨_, htrait, hforAll⟩
    | inForce hty hbounds hbound hreaches =>
      exact Or.inr (Or.inr (Or.inl ⟨_, _, _, hty, hbounds, hbound, hreaches⟩))
    | declared hty htrait hbounds hbound hreaches =>
      exact Or.inr (Or.inr (Or.inr (Or.inl
        ⟨_, _, _, _, _, _, _, _, hty, htrait, hbounds, hbound, hreaches⟩)))
    | fact hhead hfact =>
      exact Or.inr (Or.inr (Or.inr (Or.inr (Or.inl ⟨_, _, hhead, hfact⟩))))
    | impl hmem happlies hargs =>
      exact Or.inr (Or.inr (Or.inr (Or.inr (Or.inr (Or.inl
        ⟨_, _, hmem, _, happlies, hargs, hall⟩)))))
    | refAlways hty htrait hrule =>
      refine Or.inr (Or.inl ⟨_, _, hty, ?_⟩)
      rw [onRef, htrait]
      exact hrule
    | refInherits hty hrule =>
      refine Or.inr (Or.inr (Or.inr (Or.inr (Or.inr (Or.inr
        ⟨_, _, hty, ?_, hall _ (List.mem_singleton_self _)⟩)))))
      unfold onRef
      cases htrait : program.traits.lookup question.trait_ with
      | none => rfl
      | some traitDef => exact hrule traitDef htrait
  · have hnil : ∀ p ∈ ([] : List Question), DerivableUnder (Rule program env) asking p := by
      intro p hp
      cases hp
    rintro (⟨traitDef, htrait, hforAll⟩ | ⟨isMut, inner, hty, hrule⟩ |
      ⟨index, bounds, bound, hty, hbounds, hbound, hreaches⟩ |
      ⟨base, of, assoc, args, traitDef, bounds, bound, args', hty, htrait, hbounds, hbound,
        hreaches⟩ | ⟨head, fact, hhead, hfact⟩ | ⟨id, impl, hmem, state, happlies, hargs, hall⟩ |
      ⟨isMut, inner, hty, hrule, hinner⟩)
    · exact ⟨[], .forAll htrait hforAll, hnil⟩
    · cases htrait : program.traits.lookup question.trait_ with
      | none =>
        rw [onRef, htrait] at hrule
        cases hrule
      | some traitDef =>
        rw [onRef, htrait] at hrule
        exact ⟨[], .refAlways hty htrait hrule, hnil⟩
    · exact ⟨[], .inForce hty hbounds hbound hreaches, hnil⟩
    · exact ⟨[], .declared hty htrait hbounds hbound hreaches, hnil⟩
    · exact ⟨[], .fact hhead hfact, hnil⟩
    · exact ⟨_, .impl hmem happlies hargs, hall⟩
    · refine ⟨_, .refInherits hty ?_, ?_⟩
      · intro traitDef htrait
        rw [onRef, htrait] at hrule
        exact hrule
      · intro p hp
        rw [List.mem_singleton.mp hp]
        exact hinner

/-- An open question is answered exactly where a rule of it has derivable premises. -/
theorem decide_eq (h : Opened program env fuel asking question) (hfuel : 1 ≤ fuel)
    (hwalks : WalksAnswer program env fuel question.ty) :
    ∃ r, (Query.mk program env none).decide fuel (asks program env fuel)
        (asking.map Question.asOpen) question.ty question.trait_ question.args none = .ok r ∧
      (r.isSome = true ↔ ∃ premises, Rule program env question premises ∧
        ∀ p ∈ premises, DerivableUnder (Rule program env) asking p) ∧
      (BindsNone program → ∀ holds, r = some holds → holds.assoc = []) := by
  rw [rule_iff]
  unfold Query.decide
  dsimp only
  have hdefault : BindsNone program → ∀ holds, some Holds.default = some holds →
      holds.assoc = [] := by
    intro _ holds heq
    cases heq
    rfl
  by_cases hforAll : ((program.traits.lookup question.trait_).map TraitDef.holdsForAll).getD false =
      true
  · rw [if_pos hforAll]
    refine ⟨some .default, rfl, ⟨fun _ => Or.inl ?_, fun _ => rfl⟩, hdefault⟩
    cases htrait : program.traits.lookup question.trait_ with
    | none =>
      rw [htrait] at hforAll
      cases hforAll
    | some traitDef =>
      rw [htrait] at hforAll
      exact ⟨traitDef, rfl, hforAll⟩
  rw [if_neg hforAll, withholds_eq_false h.plain.comparisons]
  simp only [Bool.false_eq_true, if_false]
  have hnotAll : ¬ ∃ traitDef, program.traits.lookup question.trait_ = some traitDef ∧
      traitDef.holdsForAll = true := by
    rintro ⟨traitDef, htrait, hall⟩
    rw [htrait] at hforAll
    exact hforAll hall
  rw [or_iff_right hnotAll]
  have honRef : ((program.traits.lookup question.trait_).map TraitDef.onRef).getD .inherits =
      onRef program question.trait_ := rfl
  rw [honRef]
  by_cases halways : (∃ isMut inner, question.ty = .ref isMut inner) ∧
      onRef program question.trait_ = .always
  · obtain ⟨⟨isMut, inner, hty⟩, hrule⟩ := halways
    refine ⟨some .default, ?_, ⟨fun _ => Or.inl ⟨isMut, inner, hty, hrule⟩, fun _ => rfl⟩, hdefault⟩
    rw [hty, hrule]
    rfl
  have hnotRef : ¬ ∃ isMut inner, question.ty = .ref isMut inner ∧
      onRef program question.trait_ = .always := by
    rintro ⟨isMut, inner, hty, hrule⟩
    exact halways ⟨⟨isMut, inner, hty⟩, hrule⟩
  rw [or_iff_right hnotRef]
  have hcond : (question.ty.isRef && decide (onRef program question.trait_ = .always)) = false := by
    cases hty : question.ty with
    | ref isMut inner =>
      have hrule : onRef program question.trait_ ≠ .always :=
        fun hrule => halways ⟨⟨isMut, inner, hty⟩, hrule⟩
      simp [hrule]
    | _ => rfl
  rw [hcond]
  simp only [Bool.false_eq_true, if_false]
  rw [bind_of_eq_ok (h.neverHolds_eq hfuel)]
  dsimp only
  obtain ⟨b, hb, hinForce⟩ := h.envAnswers_eq hwalks
  rw [bind_of_eq_ok hb]
  cases b with
  | true =>
    exact ⟨some .default, rfl, ⟨fun _ => Or.inl (hinForce.mp rfl), fun _ => rfl⟩, hdefault⟩
  | false =>
  simp only [Bool.false_eq_true, if_false]
  rw [or_iff_right (fun hreaches => Bool.false_ne_true (hinForce.mpr hreaches))]
  obtain ⟨b, hb, hdeclared⟩ := declaredAnswers_eq hwalks
  rw [bind_of_eq_ok hb]
  cases b with
  | true =>
    exact ⟨some .default, rfl, ⟨fun _ => Or.inl (hdeclared.mp rfl), fun _ => rfl⟩, hdefault⟩
  | false =>
  simp only [Bool.false_eq_true, if_false]
  rw [or_iff_right (fun hreaches => Bool.false_ne_true (hdeclared.mpr hreaches))]
  obtain ⟨r, hr, hfact, hassoc⟩ := h.factAnswers_eq
  rw [bind_of_eq_ok hr]
  cases r with
  | some holds => exact ⟨some holds, rfl, ⟨fun _ => Or.inl (hfact.mp rfl), fun _ => rfl⟩, hassoc⟩
  | none =>
  dsimp only
  rw [or_iff_right (fun hholds => Bool.false_ne_true (hfact.mpr hholds))]
  obtain ⟨r, hr, himpls, hassoc⟩ := h.implsAnswer_eq
  rw [bind_of_eq_ok hr]
  cases r with
  | some holds =>
    exact ⟨some holds, rfl, ⟨fun _ => Or.inl (himpls.mp rfl), fun _ => rfl⟩,
      fun hnone holds heq => hassoc holds heq hnone⟩
  | none =>
  dsimp only
  rw [or_iff_right (fun hholds => Bool.false_ne_true (himpls.mpr hholds)),
    bind_of_eq_ok h.baseAnswers_eq]
  exact h.refAnswers_eq

end Opened

end Wado.TraitSolver
