/-
Where nothing binds what a type projects, normalizing leaves it as written, and an
impl's arguments read as the match bound them.
-/
import Wado.ExceptSteps
import Wado.TraitSolver.Matching

namespace Wado.TraitSolver

open SolverType List ExceptSteps

section Steps

variable {α σ : Type}

variable {as : List α}

/-- A step in turn, where each answers: all go on exactly where each is good. -/
theorem eachSome_spec (inv : σ → Prop) (good : α → Prop) {step : α → σ → Run (Option σ)}
    (h : ∀ a ∈ as, ∀ s, inv s → ∃ r, step a s = .ok r ∧
      (r.isSome = true ↔ good a) ∧ ∀ s', r = some s' → inv s') :
    ∀ s, inv s → ∃ r, eachSome step as s = .ok r ∧
      (r.isSome = true ↔ ∀ a ∈ as, good a) ∧ ∀ s', r = some s' → inv s' := by
  induction as with
  | nil =>
    intro s hs
    refine ⟨some s, rfl, by simp, ?_⟩
    intro s' hs'
    cases hs'
    exact hs
  | cons a as ih =>
    intro s hs
    obtain ⟨r, hstep, hgood, hinv⟩ := h a mem_cons_self s hs
    rw [eachSome, bind_of_eq_ok hstep]
    cases r with
    | none =>
      refine ⟨none, rfl, ?_, ?_⟩
      · constructor
        · intro hfalse
          cases hfalse
        · intro hall
          exact absurd (hgood.mpr (hall a mem_cons_self)) (by simp)
      · intro s' hs'
        cases hs'
    | some s₁ =>
      obtain ⟨r', hrest, hgood', hinv'⟩ :=
        ih (fun b hb => h b (mem_cons_of_mem _ hb)) s₁ (hinv s₁ rfl)
      refine ⟨r', hrest, ?_, hinv'⟩
      rw [hgood', forall_mem_cons]
      constructor
      · intro hall
        exact ⟨hgood.mp rfl, hall⟩
      · exact And.right

theorem firstSome_spec (post : σ → Prop) (good : α → Prop) {step : α → Run (Option σ)}
    (h : ∀ a ∈ as, ∃ r, step a = .ok r ∧ (r.isSome = true ↔ good a) ∧
      ∀ s, r = some s → post s) :
    ∃ r, firstSome step as = .ok r ∧ (r.isSome = true ↔ ∃ a ∈ as, good a) ∧
      ∀ s, r = some s → post s := by
  induction as with
  | nil =>
    refine ⟨none, rfl, by simp, ?_⟩
    intro s hs
    cases hs
  | cons a as ih =>
    obtain ⟨r, hstep, hgood, hpost⟩ := h a mem_cons_self
    rw [firstSome, bind_of_eq_ok hstep]
    cases r with
    | some s =>
      refine ⟨some s, rfl, ?_, hpost⟩
      constructor
      · intro _
        exact ⟨a, mem_cons_self, hgood.mp rfl⟩
      · intro _
        rfl
    | none =>
      obtain ⟨r', hrest, hgood', hpost'⟩ := ih fun b hb => h b (mem_cons_of_mem _ hb)
      refine ⟨r', hrest, ?_, hpost'⟩
      rw [hgood']
      constructor
      · rintro ⟨b, hb, hgoodb⟩
        exact ⟨b, mem_cons_of_mem _ hb, hgoodb⟩
      · rintro ⟨b, hb, hgoodb⟩
        rcases mem_cons.mp hb with rfl | hb
        · exact absurd (hgood.mpr hgoodb) (by simp)
        · exact ⟨b, hb, hgoodb⟩

theorem anyRun_spec (good : α → Prop) {test : α → Run Bool}
    (h : ∀ a ∈ as, ∃ b, test a = .ok b ∧ (b = true ↔ good a)) :
    ∃ b, anyRun test as = .ok b ∧ (b = true ↔ ∃ a ∈ as, good a) := by
  induction as with
  | nil => exact ⟨false, rfl, by simp⟩
  | cons a as ih =>
    obtain ⟨b, htest, hgood⟩ := h a mem_cons_self
    rw [anyRun, bind_of_eq_ok htest]
    cases b with
    | true =>
      refine ⟨true, rfl, ?_⟩
      constructor
      · intro _
        exact ⟨a, mem_cons_self, hgood.mp rfl⟩
      · intro _
        rfl
    | false =>
      obtain ⟨b', hrest, hgood'⟩ := ih fun c hc => h c (mem_cons_of_mem _ hc)
      refine ⟨b', hrest, ?_⟩
      rw [hgood']
      constructor
      · rintro ⟨c, hc, hgoodc⟩
        exact ⟨c, mem_cons_of_mem _ hc, hgoodc⟩
      · rintro ⟨c, hc, hgoodc⟩
        rcases mem_cons.mp hc with rfl | hc
        · exact absurd (hgood.mpr hgoodc) (by simp)
        · exact ⟨c, hc, hgoodc⟩

end Steps

section Normalize

variable {asks : Asks} {asking : List Open}

/-- What a type projects off is asked, and no answer binds it. -/
def BindsNoneOf (asks : Asks) (asking : List Open) (questions : List (SolverType × TraitDeclId)) :
    Prop :=
  ∀ question ∈ questions, ∃ held, asks.holds asking false question.1 question.2 [] none = .ok held ∧
    ∀ holds, held = some holds → holds.assoc = []

theorem BindsNoneOf.sub {questions questions' : List (SolverType × TraitDeclId)}
    (h : BindsNoneOf asks asking questions) (hsub : questions' ⊆ questions) :
    BindsNoneOf asks asking questions' :=
  fun question hq => h question (hsub hq)

theorem assocAt_of_nil {holds : Holds} (h : holds.assoc = []) (assoc : AssocId)
    (args : List SolverType) : holds.assocAt assoc args = none := by
  rw [Holds.assocAt, h]
  rfl

mutual

theorem normalizedAt_eq : ∀ ty, BindsNoneOf asks asking (projected ty) →
    normalizedAt asks asking ty = .ok ty
  | .decl head args, h => by
    rw [normalizedAt, bind_of_eq_ok (normalizedEach_eq args h)]
    rfl
  | .param _, _ => by rw [normalizedAt]
  | .pack _, _ => by rw [normalizedAt]
  | .ref isMut inner, h => by
    rw [normalizedAt, bind_of_eq_ok (normalizedAt_eq inner h)]
    rfl
  | .tuple elems, h => by
    rw [normalizedAt, bind_of_eq_ok (normalizedEach_eq elems h)]
    rfl
  | .projection base trait_ assoc args, h => by
    have hbase := normalizedAt_eq base (h.sub (by simp [projected]))
    have hargs := normalizedEach_eq args (h.sub (by simp [projected]))
    obtain ⟨held, hheld, hnone⟩ := h (base, trait_) (by simp [projected])
    rw [normalizedAt, bind_of_eq_ok hbase, bind_of_eq_ok hargs,
      bind_of_eq_ok hheld]
    cases held with
    | none => rfl
    | some holds =>
      rw [Option.bind_some, assocAt_of_nil (hnone holds rfl)]
      rfl
  | .anyRow, _ => by rw [normalizedAt]

theorem normalizedEach_eq : ∀ tys, BindsNoneOf asks asking (projectedAll tys) →
    normalizedEach asks asking tys = .ok tys
  | [], _ => by rw [normalizedEach]
  | ty :: tys, h => by
    have hty := normalizedAt_eq ty (h.sub (subset_append_left _ _))
    have htys := normalizedEach_eq tys (h.sub (subset_append_right _ _))
    rw [normalizedEach, bind_of_eq_ok hty, bind_of_eq_ok htys]
    rfl

end

/-- The bindings of a match hold no projection that an answer binds. -/
def BoundNoneOf (asks : Asks) (asking : List Open) (state : Matched) : Prop :=
  ∀ i ty, state.typeAt i = some ty → BindsNoneOf asks asking (projected ty)

theorem argAtBindings_eq {state : Matched} (h : BoundNoneOf asks asking state) {arg : SolverType}
    (harg : projected arg = []) : argAtBindings asks asking state arg = .ok (state.argAt arg) := by
  unfold argAtBindings atBindings Matched.argAt
  cases hmap : arg.mapParams state.typeAt with
  | none => rfl
  | some bound =>
    have hbound : normalizedAt asks asking bound = .ok bound := by
      apply normalizedAt_eq
      intro question hq
      obtain ⟨i, ty, hty, hin⟩ := projected_mapParams harg hmap hq
      exact h i ty hty question hin
    dsimp only
    rw [bind_of_eq_ok hbound]
    rfl

theorem argsAtBindings_eq {state : Matched} (h : BoundNoneOf asks asking state) :
    ∀ {args : List SolverType}, projectedAll args = [] →
      argsAtBindings asks asking state args = .ok (args.map state.argAt)
  | [], _ => rfl
  | arg :: args, hargs => by
    obtain ⟨harg, hrest⟩ := append_eq_nil_iff.mp hargs
    rw [argsAtBindings, bind_of_eq_ok (argAtBindings_eq h harg),
      bind_of_eq_ok (argsAtBindings_eq h hrest)]
    rfl

end Normalize

mutual

/-- A type that projects nothing projects off no parameter. -/
theorem projectsParam_eq_false : ∀ ty, projected ty = [] → projectsParam [] ty = false
  | .decl head args, h => by
    rw [projectsParam, projectsParamAny_eq_false args h]
    simp
  | .param _, _ => by rw [projectsParam]
  | .pack _, _ => by rw [projectsParam]
  | .ref _ inner, h => by
    rw [projectsParam, projectsParam_eq_false inner h]
  | .tuple elems, h => by
    rw [projectsParam, projectsParamAny_eq_false elems h]
  | .projection base trait_ assoc args, h => by
    simp [projected] at h
  | .anyRow, _ => by rw [projectsParam]

theorem projectsParamAny_eq_false : ∀ tys, projectedAll tys = [] → projectsParamAny [] tys = false
  | [], _ => by rw [projectsParamAny]
  | ty :: tys, h => by
    obtain ⟨hty, htys⟩ := append_eq_nil_iff.mp h
    rw [projectsParamAny, projectsParam_eq_false ty hty, projectsParamAny_eq_false tys htys]
    rfl

end

/-- A target that matches is filed under no declaration, or under the type's own. -/
theorem targetHead_of_match {target ty : SolverType} {state state' : Matched}
    (h : matchTarget target ty state = some state') :
    ty = .anyRow ∨ targetHead target = none ∨ targetHead target = targetHead ty := by
  cases target with
  | decl head args =>
    cases ty with
    | decl tyHead tyArgs =>
      rw [matchTarget] at h
      split at h
      · rename_i hsame
        exact Or.inr (Or.inr (congrArg some hsame.1))
      · cases h
    | anyRow => exact Or.inl rfl
    | _ => simp [matchTarget] at h
  | _ => exact Or.inr (Or.inl rfl)

end Wado.TraitSolver
