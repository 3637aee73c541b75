/-
The solver answers through its indices as it does by scanning every impl in order.
-/
import Wado.TraitSolver.Holds
import Wado.TraitSolver.Indices

namespace Wado.TraitSolver

open IndexMap List

variable {impl : ImplDef} {ty : SolverType}

/-- An impl that is not filed where a question looks does not match it. -/
theorem matchTarget_notFiled (h : filedFor ty impl = false)
    (state : Matched) : matchTarget impl.target ty state = none := by
  unfold filedFor at h
  rw [Bool.or_eq_false_iff, Bool.or_eq_false_iff, decide_eq_false_iff_not, decide_eq_false_iff_not,
    decide_eq_false_iff_not] at h
  obtain ⟨⟨hopen, hnone⟩, hhead⟩ := h
  cases htarget : impl.target with
  | decl head args =>
    rw [htarget] at hhead
    cases ty with
    | decl head' args' =>
      rw [matchTarget, if_neg]
      rintro ⟨rfl, -⟩
      exact hhead rfl
    | anyRow => exact absurd rfl hopen
    | _ => rfl
  | _ =>
    rw [htarget] at hnone
    exact absurd rfl hnone

theorem reachesTarget_filed (h : reachesTarget impl ty = true) : filedFor ty impl = true := by
  cases hfiled : filedFor ty impl with
  | true => rfl
  | false =>
    rw [reachesTarget, matchTarget_notFiled hfiled] at h
    cases h

namespace Program

/-- The ids of the impls of a trait, in order. -/
def idsOf (program : Program) (trait_ : TraitDeclId) : List ImplId :=
  (program.impls.filter fun entry => decide (entry.2.trait_ = some trait_)).map Prod.fst

/-- The program with every impl of a trait filed in one list, which each question of the trait
scans whole. -/
def scanned (program : Program) : Program :=
  let traits := program.impls.filterMap fun entry => entry.2.trait_
  { program with
    implsByTrait := traits.map fun trait_ => (trait_, program.idsOf trait_)
    implsByTarget := traits.map fun trait_ => ((trait_, none), program.idsOf trait_) }

end Program

section Scanning

variable {program : Program}

theorem listAt_map_keys {K V A : Type} [DecidableEq K] (keyOf : A → K) (f : A → List V)
    (as : List A) (hinj : ∀ a b, keyOf a = keyOf b → a = b) (a : A) (hempty : a ∉ as → f a = []) :
    IndexMap.listAt (as.map fun a => (keyOf a, f a)) (keyOf a) = f a := by
  induction as with
  | nil => exact (hempty not_mem_nil).symm
  | cons head as ih =>
    rw [listAt, map_cons, lookup_cons]
    by_cases hkey : keyOf a = keyOf head
    · rw [hinj a head hkey, beq_self_eq_true]
      rfl
    · rw [beq_false_of_ne hkey]
      refine ih fun hmem => hempty fun hin => ?_
      obtain rfl | hin := mem_cons.mp hin
      · exact hkey rfl
      · exact hmem hin

theorem listAt_absent {K V : Type} [DecidableEq K] {map : IndexMap K (List V)} {key : K}
    (h : ∀ entry ∈ map, entry.1 ≠ key) : map.listAt key = [] := by
  induction map with
  | nil => rfl
  | cons entry map ih =>
    rw [listAt, lookup_cons, beq_false_of_ne (h entry mem_cons_self).symm]
    exact ih fun entry hmem => h entry (mem_cons_of_mem _ hmem)

theorem idsOf_empty {trait_ : TraitDeclId}
    (h : trait_ ∉ program.impls.filterMap fun entry => entry.2.trait_) :
    program.idsOf trait_ = [] := by
  rw [Program.idsOf, map_eq_nil_iff, filter_eq_nil_iff]
  intro entry hmem htrait
  exact h (mem_filterMap.mpr ⟨entry, hmem, of_decide_eq_true htrait⟩)

/-- A question of the scanned program looks at every impl of its trait. -/
theorem scanned_implsFor (hascending : Ascending program.impls) (trait_ : TraitDeclId)
    (ty : SolverType) :
    program.scanned.implsFor trait_ ty =
      program.impls.filter fun entry => decide (entry.2.trait_ = some trait_) := by
  have hids : program.scanned.implsAt (program.idsOf trait_) =
      program.impls.filter fun entry => decide (entry.2.trait_ = some trait_) :=
    implsAt_filter hascending _
  have hnone : program.scanned.implsByTarget.listAt (trait_, none) = program.idsOf trait_ :=
    listAt_map_keys (fun t => (t, none)) program.idsOf _ (fun _ _ heq => congrArg Prod.fst heq)
      trait_ idsOf_empty
  have hsome (head : TypeDeclId) : program.scanned.implsByTarget.listAt (trait_, some head) = [] :=
    listAt_absent fun entry hmem heq => by
      obtain ⟨found, -, rfl⟩ := mem_map.mp hmem
      cases heq
  unfold Program.implsFor
  split
  · rw [Program.implsOf, ← hids]
    exact congrArg _ (listAt_map_keys id program.idsOf _ (fun _ _ heq => heq) trait_ idsOf_empty)
  · dsimp only
    rw [hnone]
    have hmerge : Program.mergeIds (program.idsOf trait_) [] = program.idsOf trait_ := by
      cases hids : program.idsOf trait_ <;> rfl
    cases targetHead ty with
    | none =>
      dsimp only
      rw [hmerge, hids]
    | some head =>
      dsimp only
      rw [hsome, hmerge, hids]

end Scanning

section Steps

variable {α σ : Type}

/-- Candidates that answer nothing need not be asked. -/
theorem firstSome_filter {step : α → Run (Option σ)} {keep : α → Bool} {as : List α}
    (h : ∀ a, keep a = false → step a = .ok none) :
    firstSome step (as.filter keep) = firstSome step as := by
  induction as with
  | nil => rfl
  | cons a as ih =>
    cases hkeep : keep a with
    | true => rw [filter_cons_of_pos hkeep, firstSome, firstSome, ih]
    | false =>
      rw [filter_cons_of_neg (by rw [hkeep]; exact Bool.false_ne_true), ih, firstSome,
        h a hkeep]
      rfl

end Steps

section Answers

variable {indexed : IndexedProgram}

/-- A question's scan is the part of its trait's impls that is filed where it looks. -/
theorem implsFor_scanned (h : Filed indexed) (trait_ : TraitDeclId) (ty : SolverType) :
    indexed.program.implsFor trait_ ty =
      (indexed.program.scanned.implsFor trait_ ty).filter fun entry => filedFor ty entry.2 := by
  rw [h.implsFor_eq, scanned_implsFor h.ascending, filter_filter]
  exact filter_congr fun entry _ => Bool.and_comm _ _

theorem reachedBy_scanned (h : Filed indexed) (trait_ : TraitDeclId) (ty : SolverType)
    (origins : List ImplOrigin) :
    reachedBy indexed.program.scanned trait_ ty origins =
      reachedBy indexed.program trait_ ty origins := by
  unfold reachedBy
  rw [implsFor_scanned h, any_filter]
  refine congrArg (_ && ·) (any_congr rfl fun entry => ?_)
  cases hreaches : reachesTarget entry.2 ty with
  | true =>
    rw [reachesTarget_filed hreaches]
    rfl
  | false => rw [Bool.and_false, Bool.and_false, Bool.and_false]

theorem comparisonRow_scanned (h : Filed indexed) (ty : SolverType) :
    comparisonRow indexed.program.scanned ty = comparisonRow indexed.program ty := by
  have hreaching (trait_ : TraitDeclId) :
      ((indexed.program.scanned.implsFor trait_ ty).filter fun entry =>
        atSelf indexed.program.scanned entry.2 trait_ [.written] && reachesTarget entry.2 ty) =
      (indexed.program.implsFor trait_ ty).filter fun entry =>
        atSelf indexed.program entry.2 trait_ [.written] && reachesTarget entry.2 ty := by
    rw [implsFor_scanned h, filter_filter]
    refine filter_congr fun entry _ => ?_
    cases hreaches : reachesTarget entry.2 ty with
    | true =>
      rw [reachesTarget_filed hreaches, Bool.and_true, Bool.and_true, Bool.and_true]
      rfl
    | false => rw [Bool.and_false, Bool.and_false, Bool.false_and]
  unfold comparisonRow
  simp only [hreaching]
  rfl

section

variable (program : Program)
include program

theorem peelNewtypes_scanned (fuel : Nat) (seen : List SolverType) (ty : SolverType) :
    peelNewtypes program.scanned fuel seen ty = peelNewtypes program fuel seen ty := by
  induction fuel generalizing seen ty with
  | zero => rfl
  | succ fuel ih =>
    rw [peelNewtypes, peelNewtypes]
    have hbase : newtypeBase program.scanned ty = newtypeBase program ty := by
      cases ty <;> rfl
    rw [hbase]
    simp only [ih]

theorem argsReachingFrom_scanned (wanted : TraitDeclId) (subject : SolverType)
    (fuel : Nat) (stack seen : List ParamBound) (reaching : List (List SolverType)) :
    program.scanned.argsReachingFrom wanted subject fuel stack seen reaching =
      program.argsReachingFrom wanted subject fuel stack seen reaching := by
  induction fuel generalizing stack seen reaching with
  | zero => cases stack <;> rfl
  | succ fuel ih =>
    cases stack with
    | nil => rfl
    | cons next stack =>
      rw [Program.argsReachingFrom, Program.argsReachingFrom, ih, ih]
      rfl

theorem boundReaches_scanned (fuel : Nat) (bound wanted : TraitDeclId) (subject : SolverType) :
    program.scanned.boundReaches fuel bound wanted subject =
      program.boundReaches fuel bound wanted subject := by
  unfold Program.boundReaches Program.argsReaching
  rw [argsReachingFrom_scanned]

theorem boundAnswers_scanned (fuel : Nat) (subject : SolverType)
    (bound : ParamBound) (trait_ : TraitDeclId) (wanted : List SolverType) :
    boundAnswers program.scanned fuel subject bound trait_ wanted =
      boundAnswers program fuel subject bound trait_ wanted := by
  unfold boundAnswers Program.argsReaching
  rw [argsReachingFrom_scanned]
  rfl

end

theorem writtenOnlyAt_scanned (h : Filed indexed) (ty : SolverType) :
    writtenOnlyAt indexed.program.scanned ty = writtenOnlyAt indexed.program ty := by
  unfold writtenOnlyAt writtenComparison
  simp only [reachedBy_scanned h]
  rfl

theorem withholds_scanned (h : Filed indexed) (trait_ : TraitDeclId) (ty : SolverType) :
    withholds indexed.program.scanned trait_ ty = withholds indexed.program trait_ ty := by
  unfold withholds rowIs
  rw [comparisonRow_scanned h]
  rfl

theorem eqFromCmp_scanned (h : Filed indexed) (trait_ : TraitDeclId) (ty : SolverType) :
    eqFromCmp indexed.program.scanned trait_ ty = eqFromCmp indexed.program trait_ ty := by
  unfold eqFromCmp rowIs
  rw [comparisonRow_scanned h]
  rfl

end Answers

namespace Query

variable {indexed : IndexedProgram} (env : Env) (atItself : Option SolverType) (fuel : Nat)
  (asks : Asks) (asking : List Open)

theorem copyableAnswers_scanned (param : ParamDef) (throughMember : Bool)
    (elements : List SolverType) :
    copyableAnswers ⟨indexed.program.scanned, env, atItself⟩ fuel asks asking param throughMember
        elements =
      copyableAnswers ⟨indexed.program, env, atItself⟩ fuel asks asking param throughMember
        elements := by
  unfold copyableAnswers
  simp only [peelNewtypes_scanned]
  rfl

theorem paramAnswers_scanned (impl : ImplDef) (fromPin : Nat → Bool) :
    paramAnswers ⟨indexed.program.scanned, env, atItself⟩ fuel asks asking impl fromPin =
      paramAnswers ⟨indexed.program, env, atItself⟩ fuel asks asking impl fromPin := by
  funext param progress
  unfold paramAnswers
  simp only [copyableAnswers_scanned]
  rfl

section

variable (h : Filed indexed)
include h

variable (implemented : TraitDeclId)

theorem givesWay_scanned (impl : ImplDef) (ty : SolverType) :
    givesWay ⟨indexed.program.scanned, env, atItself⟩ implemented impl ty =
      givesWay ⟨indexed.program, env, atItself⟩ implemented impl ty := by
  unfold givesWay
  rw [reachedBy_scanned h, writtenOnlyAt_scanned h]

theorem ownRequests_scanned (impl : ImplDef) (ty : SolverType) :
    ownRequests ⟨indexed.program.scanned, env, atItself⟩ implemented impl ty =
      ownRequests ⟨indexed.program, env, atItself⟩ implemented impl ty := by
  unfold ownRequests
  rw [eqFromCmp_scanned h]
  rfl

theorem implAnswers_scanned (id : ImplId) (impl : ImplDef) (ty : SolverType) :
    implAnswers ⟨indexed.program.scanned, env, atItself⟩ fuel asks asking id impl ty =
      implAnswers ⟨indexed.program, env, atItself⟩ fuel asks asking id impl ty := by
  unfold implAnswers
  simp only [givesWay_scanned env atItself h, ownRequests_scanned env atItself h,
    paramAnswers_scanned]
  rfl

variable (ty : SolverType)

/-- What the impls answer: one that is not filed where the question looks does not match. -/
theorem implsAnswer_scanned (trait_ : TraitDeclId)
    (args : List SolverType) (subject : Option SolverType) :
    implsAnswer ⟨indexed.program.scanned, env, atItself⟩ fuel asks asking ty trait_ args subject =
      implsAnswer ⟨indexed.program, env, atItself⟩ fuel asks asking ty trait_ args subject := by
  unfold implsAnswer
  dsimp only
  rw [implsFor_scanned h, firstSome_filter]
  · simp only [implAnswers_scanned env atItself fuel asks asking h]
    rfl
  · intro entry hfiled
    have hnone : implAnswers ⟨indexed.program, env, atItself⟩ fuel asks asking entry.1 entry.2 ty =
        .ok none := by
      unfold implAnswers
      cases htrait : entry.2.trait_ with
      | none => rfl
      | some implemented =>
        dsimp only
        split
        · rfl
        · rw [matchTarget_notFiled hfiled]
          rfl
    split
    · rfl
    · rw [hnone]
      rfl

theorem decide_scanned (trait_ : TraitDeclId)
    (args : List SolverType) (subject : Option SolverType) :
    Query.decide ⟨indexed.program.scanned, env, atItself⟩ fuel asks asking ty trait_ args subject =
      Query.decide ⟨indexed.program, env, atItself⟩ fuel asks asking ty trait_ args subject := by
  have hnever : neverHolds ⟨indexed.program.scanned, env, atItself⟩ fuel ty trait_ =
      neverHolds ⟨indexed.program, env, atItself⟩ fuel ty trait_ := by
    unfold neverHolds peelsToNever
    simp only [peelNewtypes_scanned]
    rfl
  have henv : envAnswers ⟨indexed.program.scanned, env, atItself⟩ fuel asks asking ty trait_ args =
      envAnswers ⟨indexed.program, env, atItself⟩ fuel asks asking ty trait_ args := by
    unfold envAnswers
    simp only [boundAnswers_scanned]
  have hdeclared : declaredAnswers ⟨indexed.program.scanned, env, atItself⟩ fuel ty trait_ =
      declaredAnswers ⟨indexed.program, env, atItself⟩ fuel ty trait_ := by
    unfold declaredAnswers
    simp only [boundReaches_scanned]
    rfl
  have hbase : baseAnswers ⟨indexed.program.scanned, env, atItself⟩ asks asking ty trait_ args
        subject =
      baseAnswers ⟨indexed.program, env, atItself⟩ asks asking ty trait_ args subject := by
    unfold baseAnswers
    simp only [writtenOnlyAt_scanned h]
    rfl
  unfold Query.decide
  simp only [withholds_scanned h, hnever, henv, hdeclared, hbase,
    implsAnswer_scanned env atItself fuel asks asking h]
  rfl

end

end Query

/-- Every question is answered as a scan of every impl answers it. -/
theorem asksWithin_scanned {indexed : IndexedProgram} (h : Filed indexed) (env : Env)
    (atItself : Option SolverType) (fuel : Nat) :
    Query.asksWithin ⟨indexed.program.scanned, env, atItself⟩ fuel =
      Query.asksWithin ⟨indexed.program, env, atItself⟩ fuel := by
  induction fuel with
  | zero => rfl
  | succ fuel ih =>
    rw [Query.asksWithin, Query.asksWithin, ih]
    refine congrArg₂ Asks.mk ?_ rfl
    funext asking throughMember ty trait_ args subject
    unfold Query.holdsAt
    rw [Query.decide_scanned env atItself fuel _ _ h]

/-- What a question looks at is, in order and once each, part of `among`, and all of it that could
match. -/
structure Candidates (among found : List (ImplId × ImplDef)) (ty : SolverType) : Prop where
  ascending : found.Pairwise fun entry entry' => entry.1.id < entry'.1.id
  sound : ∀ entry ∈ found, entry ∈ among
  complete : ∀ entry ∈ among, (∃ state, (matchTarget entry.2.target ty state).isSome) →
    entry ∈ found

/-- The indices agree with a scan of every impl. -/
structure Scans (indexed : IndexedProgram) : Prop where
  implsFor : ∀ trait_ ty,
    Candidates (indexed.program.impls.filter fun entry => decide (entry.2.trait_ = some trait_))
      (indexed.program.implsFor trait_ ty) ty
  traitImplsFor : ∀ ty, Candidates (indexed.program.impls.filter fun entry => entry.2.trait_.isSome)
      (indexed.traitImplsFor ty) ty
  scanned : ∀ trait_ ty, indexed.program.scanned.implsFor trait_ ty =
    indexed.program.impls.filter fun entry => decide (entry.2.trait_ = some trait_)
  answers : ∀ env atItself fuel, Query.asksWithin ⟨indexed.program, env, atItself⟩ fuel =
    Query.asksWithin ⟨indexed.program.scanned, env, atItself⟩ fuel

theorem candidates_filter {impls : IndexMap ImplId ImplDef} (h : Ascending impls)
    (keep : ImplId × ImplDef → Bool) (ty : SolverType) :
    Candidates (impls.filter keep) (impls.filter fun entry => keep entry && filedFor ty entry.2)
      ty where
  ascending := h.filter _
  sound := fun entry hentry => by
    obtain ⟨hmem, hboth⟩ := mem_filter.mp hentry
    exact mem_filter.mpr ⟨hmem, (Bool.and_eq_true_iff.mp hboth).1⟩
  complete := fun entry hentry ⟨state, hmatch⟩ => by
    obtain ⟨hmem, hkeep⟩ := mem_filter.mp hentry
    refine mem_filter.mpr ⟨hmem, Bool.and_eq_true_iff.mpr ⟨hkeep, ?_⟩⟩
    cases hfiled : filedFor ty entry.2 with
    | true => rfl
    | false =>
      rw [matchTarget_notFiled hfiled] at hmatch
      cases hmatch

/-- Whatever impls are pushed, replaced and removed, the indices agree with a scan. -/
theorem runOps_scans {start indexed : IndexedProgram} {ops : List IndexedProgram.Op}
    (hstart : start.IsEmpty) (hrun : IndexedProgram.runOps ops start = .ok indexed) :
    Scans indexed := by
  have hfiled := (Filed.empty hstart).runOps hrun
  refine ⟨fun trait_ ty => ?_, fun ty => ?_, scanned_implsFor hfiled.ascending,
    fun env atItself fuel => (asksWithin_scanned hfiled env atItself fuel).symm⟩
  · rw [hfiled.implsFor_eq]
    exact candidates_filter hfiled.ascending _ ty
  · rw [hfiled.traitImplsFor_eq]
    exact candidates_filter hfiled.ascending _ ty

/-- Changes in which an id comes back after a removal. -/
def comeBack : List IndexedProgram.Op :=
  [.push ⟨some ⟨0⟩, [], .decl ⟨0⟩ [], [], .written⟩,
    .push ⟨some ⟨0⟩, [], .param 0, [⟨[], [], false⟩], .written⟩,
    .remove [⟨1⟩],
    .push ⟨some ⟨0⟩, [], .tuple [], [], .derived⟩,
    .replace ⟨0⟩ ⟨some ⟨0⟩, [], .decl ⟨0⟩ [.decl ⟨1⟩ []], [], .written⟩]

theorem runOps_scans_comeBack :
    ∃ indexed, IndexedProgram.runOps comeBack ⟨{}, []⟩ = .ok indexed ∧ Scans indexed :=
  ⟨_, rfl, @runOps_scans ⟨{}, []⟩ _ comeBack ⟨rfl, rfl, rfl, rfl⟩ rfl⟩

end Wado.TraitSolver
