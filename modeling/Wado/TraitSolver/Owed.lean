/-
The bodies that a list of requests owes in turn: a worklist over the members of structural
requests and the supertraits of every one.
-/
import Wado.TraitSolver.Normalized

namespace Wado.TraitSolver

open List ExceptSteps

/-- The members at the instance whose arguments are `args`, which argues every parameter. -/
def Declaration.membersAt (decl : Declaration) (args : List SolverType) : Run (List SolverType) :=
  if args.length = decl.params then Declaration.instantiated args decl.members else .error .panic

/-- The requests of each answer in turn; a question that does not hold owes none. -/
def requestsOf {α : Type} (ask : α → Run (Option Holds)) : List α → Run (List DerivationRequest)
  | [] => .ok []
  | a :: as => do
    let held ← ask a
    let rest ← requestsOf ask as
    return (held.map Holds.requests).getD [] ++ rest

/-- What the members of a structural request's declaration owe. -/
def memberRequests (fuel : Nat) (program : Program) (env : Env) (request : DerivationRequest) :
    Run (List DerivationRequest) :=
  match request.structural, request.ty with
  | true, .decl head args =>
    match program.declarations.lookup head with
    | none => .ok []
    | some decl => do
      let members ← decl.membersAt args
      requestsOf (fun member => holds fuel program env member request.trait_) members
  | _, _ => .ok []

/-- What the supertraits of a request's trait owe. -/
def supertraitRequests (fuel : Nat) (program : Program) (env : Env)
    (request : DerivationRequest) : Run (List DerivationRequest) :=
  match program.traits.lookup request.trait_ with
  | none => .ok []
  | some traitDef =>
    let args := program.perParam (some request.trait_) []
    let clauses := traitDef.supertraits.filterMap fun clause =>
      program.clauseAt clause request.trait_ args request.ty
    requestsOf (fun clause => holdsWithArgs fuel program env request.ty clause.trait_ clause.args)
      clauses

/-- What one request owes beside its own body. -/
def owedBy (fuel : Nat) (program : Program) (env : Env) (request : DerivationRequest) :
    Run (List DerivationRequest) := do
  let members ← memberRequests fuel program env request
  let supertraits ← supertraitRequests fuel program env request
  return members ++ supertraits

/-- The last request pushed is the first of the stack. -/
def owedLoop (fuel : Nat) (program : Program) (env : Env) : Nat → List DerivationRequest →
    List (SolverType × TraitDeclId) → Run (List DerivationRequest)
  | _, [], _ => .ok []
  | 0, _ :: _, _ => .error .fuel
  | steps + 1, request :: stack, seen =>
    if (request.ty, request.trait_) ∈ seen then owedLoop fuel program env steps stack seen
    else do
      let more ← owedBy fuel program env request
      let owed ← owedLoop fuel program env steps (more.reverse ++ stack)
        (seen ++ [(request.ty, request.trait_)])
      return request :: owed

/-- The requests with every body they owe in turn, each question of the solver at most `fuel`
questions deep and the search at most `steps` long. -/
def owed (fuel steps : Nat) (program : Program) (env : Env)
    (requests : List DerivationRequest) : Run (List DerivationRequest) :=
  owedLoop fuel program env steps requests.reverse []

/-- Whether the program derives the body structurally, by the members. -/
def structuralAt (program : Program) (ty : SolverType) (trait_ : TraitDeclId) : Bool :=
  ((factHead program ty).bind fun head => program.facts.lookup (head, trait_)).isNone &&
    (match program.traits.lookup trait_ with
      | some traitDef => traitDef.structural
      | none => false) && !eqFromCmp program trait_ ty

/-- Every request says of its body what the program does. -/
def Agree (program : Program) (requests : List DerivationRequest) : Prop :=
  ∀ request ∈ requests, request.structural = structuralAt program request.ty request.trait_

namespace Agree

variable {program : Program} {requests requests' : List DerivationRequest}

theorem nil : Agree program [] := by
  intro request hrequest
  cases hrequest

theorem append (h : Agree program requests) (h' : Agree program requests') :
    Agree program (requests ++ requests') := by
  intro request hrequest
  rcases mem_append.mp hrequest with hin | hin
  · exact h request hin
  · exact h' request hin

end Agree

/-- What is asked answers with requests that agree with the program. -/
def AsksAgree (program : Program) (asks : Asks) : Prop :=
  ∀ {asking throughMember ty trait_ args subject held},
    asks.holds asking throughMember ty trait_ args subject = .ok (some held) →
      Agree program held.requests

section Steps

variable {α σ : Type}

theorem eachSome_inv (inv : σ → Prop) {step : α → σ → Run (Option σ)} {as : List α}
    (h : ∀ a ∈ as, ∀ {s s'}, inv s → step a s = .ok (some s') → inv s') {s s' : σ} (hs : inv s)
    (hrun : eachSome step as s = .ok (some s')) : inv s' := by
  induction as generalizing s with
  | nil =>
    cases hrun
    exact hs
  | cons a as ih =>
    rw [eachSome] at hrun
    obtain ⟨r, hstep, hrest⟩ := bind_eq_ok.mp hrun
    cases r with
    | none => cases hrest
    | some s₁ =>
      exact ih (fun b hb => h b (mem_cons_of_mem _ hb))
        (h a mem_cons_self hs hstep) hrest

theorem firstSome_inv (post : σ → Prop) {step : α → Run (Option σ)} {as : List α}
    (h : ∀ a ∈ as, ∀ {s}, step a = .ok (some s) → post s) {s : σ}
    (hrun : firstSome step as = .ok (some s)) : post s := by
  induction as with
  | nil => cases hrun
  | cons a as ih =>
    rw [firstSome] at hrun
    obtain ⟨r, hstep, hrest⟩ := bind_eq_ok.mp hrun
    cases r with
    | none => exact ih (fun b hb => h b (mem_cons_of_mem _ hb)) hrest
    | some s₁ =>
      cases hrest
      exact h a mem_cons_self hstep

end Steps

variable {ty : SolverType} {trait_ : TraitDeclId} {held : Holds} {args : List SolverType}

namespace Query

variable {query : Query} {fuel : Nat} {asks : Asks} {asking : List Open}
  (hasks : AsksAgree query.program asks)
include hasks

variable {throughMember : Bool}

theorem askBound_agree {param : ParamDef} {bound : ParamBound}
    {element : SolverType} {progress progress' : Progress}
    (hprogress : Agree query.program progress.requests)
    (h : askBound asks asking param throughMember bound element progress = .ok (some progress')) :
    Agree query.program progress'.requests := by
  rw [askBound] at h
  obtain ⟨args, _, h⟩ := bind_eq_ok.mp h
  obtain ⟨answer, hanswer, h⟩ := bind_eq_ok.mp h
  cases answer with
  | none => cases h
  | some answer =>
    obtain ⟨state, _, h⟩ := bind_eq_ok.mp h
    cases state with
    | none => cases h
    | some state =>
      cases h
      exact hprogress.append (hasks hanswer)

theorem paramAnswers_agree {impl : ImplDef} {fromPin : Nat → Bool} {param : ParamDef × Nat}
    {progress progress' : Progress} (hprogress : Agree query.program progress.requests)
    (h : query.paramAnswers fuel asks asking impl fromPin param progress = .ok (some progress')) :
    Agree query.program progress'.requests := by
  unfold paramAnswers at h
  dsimp only at h
  split at h
  · rw [pure_eq_ok] at h
    split at h
    · cases h
      exact hprogress
    · cases h
  · obtain ⟨copyable, _, h⟩ := bind_eq_ok.mp h
    split at h
    · refine eachSome_inv (fun progress => Agree query.program progress.requests) ?_
        hprogress h
      intro bound _ s s' hs hstep
      refine eachSome_inv (fun progress => Agree query.program progress.requests) ?_ hs hstep
      intro element _ s s' hs hstep
      exact askBound_agree hasks hs hstep
    · cases h

theorem projectedMembers_agree {implemented : TraitDeclId} {impl : ImplDef} {ty : SolverType}
    {progress progress' : Progress} (hprogress : Agree query.program progress.requests)
    (h : query.projectedMembers asks asking implemented impl ty progress = .ok (some progress')) :
    Agree query.program progress'.requests := by
  unfold projectedMembers at h
  split at h
  · split at h
    · split at h
      · cases h
        exact hprogress
      · obtain ⟨members, _, h⟩ := bind_eq_ok.mp h
        refine eachSome_inv (fun progress => Agree query.program progress.requests) ?_
          hprogress h
        intro member _ s s' hs hstep
        obtain ⟨member, _, hstep⟩ := bind_eq_ok.mp hstep
        obtain ⟨answer, hanswer, hstep⟩ := bind_eq_ok.mp hstep
        cases answer with
        | none => cases hstep
        | some answer =>
          cases hstep
          exact hs.append (hasks hanswer)
    · cases h
      exact hprogress
  · cases h
    exact hprogress

theorem implAnswers_agree {id : ImplId} {impl : ImplDef} {answer : Answer}
    (hfact : ∀ implemented, impl.trait_ = some implemented →
      ((factHead query.program ty).bind fun head =>
        query.program.facts.lookup (head, implemented)) = none)
    (h : query.implAnswers fuel asks asking id impl ty = .ok (some answer)) :
    Agree query.program answer.holds.requests := by
  unfold implAnswers at h
  cases htrait : impl.trait_ with
  | none =>
    rw [htrait] at h
    cases h
  | some implemented =>
    rw [htrait] at h
    dsimp only at h
    have hown : Agree query.program (query.ownRequests implemented impl ty) := by
      intro request hrequest
      unfold ownRequests at hrequest
      split at hrequest
      · cases hrequest
      · rw [mem_singleton.mp hrequest, structuralAt, hfact implemented htrait]
        rfl
    split at h
    · cases h
    · split at h
      · cases h
      · obtain ⟨refuted, _, h⟩ := bind_eq_ok.mp h
        split at h
        · cases h
        · split at h
          · cases h
          · obtain ⟨progress, hprogress, h⟩ := bind_eq_ok.mp h
            cases progress with
            | none => cases h
            | some progress =>
              have hparams : Agree query.program progress.requests :=
                eachSome_inv (fun progress : Progress =>
                  Agree query.program progress.requests)
                  (fun param _ _ _ hs hstep => paramAnswers_agree hasks hs hstep) hown hprogress
              obtain ⟨members, hmembers, h⟩ := bind_eq_ok.mp h
              cases members with
              | none => cases h
              | some members =>
                obtain ⟨met, _, h⟩ := bind_eq_ok.mp h
                split at h
                · obtain ⟨traitArgs, _, h⟩ := bind_eq_ok.mp h
                  cases h
                  exact projectedMembers_agree hasks hparams hmembers
                · cases h

theorem implsAnswer_agree (hindexed : Indexed query.program) {ty : SolverType}
    {trait_ : TraitDeclId} {args : List SolverType} {subject : Option SolverType} {held : Holds}
    (hfact : ((factHead query.program ty).bind fun head =>
      query.program.facts.lookup (head, trait_)) = none)
    (h : query.implsAnswer fuel asks asking ty trait_ args subject = .ok (some held)) :
    Agree query.program held.requests := by
  refine firstSome_inv (fun held : Holds => Agree query.program held.requests) ?_ h
  intro entry hentry held hstep
  split at hstep
  · cases hstep
  · obtain ⟨answer, hanswer, hstep⟩ := bind_eq_ok.mp hstep
    cases answer with
    | none => cases hstep
    | some answer =>
      dsimp only at hstep
      split at hstep
      · cases hstep
        apply implAnswers_agree hasks _ hanswer
        intro implemented himplemented
        obtain ⟨_, htrait, _⟩ := hindexed.mem_implsFor.mp hentry
        rw [himplemented, Option.some.injEq] at htrait
        rw [htrait]
        exact hfact
      · cases hstep

omit hasks in
theorem factAnswers_agree
    (h : query.factAnswers ty trait_ = .ok (some held)) : Agree query.program held.requests := by
  unfold factAnswers at h
  split at h
  · cases h
  · rename_i fact hfact
    have hone : Agree query.program [⟨ty, trait_, false⟩] := by
      intro request hrequest
      rw [mem_singleton.mp hrequest, structuralAt, hfact]
      rfl
    dsimp only at h
    split at h
    · cases h
      exact hone
    · split at h
      · cases h
        exact hone
      · cases h

omit hasks in
theorem factAnswers_none (h : query.factAnswers ty trait_ = .ok none) :
    ((factHead query.program ty).bind fun head =>
      query.program.facts.lookup (head, trait_)) = none := by
  unfold factAnswers at h
  split at h
  · assumption
  · dsimp only at h
    split at h
    · cases h
    · split at h
      · cases h
      · cases h

variable {subject : Option SolverType}

theorem baseAnswers_agree
    (h : query.baseAnswers asks asking ty trait_ args subject = .ok (some held)) :
    Agree query.program held.requests := by
  unfold baseAnswers at h
  split at h
  · cases h
  · obtain ⟨base, _, h⟩ := bind_eq_ok.mp h
    cases base with
    | none => cases h
    | some base => exact hasks h

theorem refAnswers_agree {onRef : RefRule}
    (h : refAnswers asks asking onRef ty trait_ args = .ok (some held)) :
    Agree query.program held.requests := by
  unfold refAnswers at h
  split at h
  · exact hasks h
  · cases h

omit hasks in
theorem neverHolds_agree (h : query.neverHolds fuel ty trait_ = .ok (some held)) :
    Agree query.program held.requests := by
  unfold neverHolds at h
  obtain ⟨isNever, _, h⟩ := bind_eq_ok.mp h
  split at h
  · split at h
    · cases h
      exact Agree.nil
    · cases h
    · cases h
  · cases h

theorem decide_agree (hindexed : Indexed query.program)
    (h : query.decide fuel asks asking ty trait_ args subject = .ok (some held)) :
    Agree query.program held.requests := by
  have hdefault : Agree query.program Holds.default.requests := Agree.nil
  unfold decide at h
  dsimp only at h
  split at h
  · cases h
    exact hdefault
  · split at h
    · cases h
    · split at h
      · cases h
        exact hdefault
      · obtain ⟨never, hnever, h⟩ := bind_eq_ok.mp h
        cases never with
        | some held =>
          cases h
          exact neverHolds_agree hnever
        | none =>
          obtain ⟨inForce, _, h⟩ := bind_eq_ok.mp h
          split at h
          · cases h
            exact hdefault
          · obtain ⟨declared, _, h⟩ := bind_eq_ok.mp h
            split at h
            · cases h
              exact hdefault
            · obtain ⟨fact, hfact, h⟩ := bind_eq_ok.mp h
              cases fact with
              | some held =>
                cases h
                exact factAnswers_agree hfact
              | none =>
                obtain ⟨impls, himpls, h⟩ := bind_eq_ok.mp h
                cases impls with
                | some held =>
                  cases h
                  exact implsAnswer_agree hasks hindexed (factAnswers_none hfact) himpls
                | none =>
                  obtain ⟨base, hbase, h⟩ := bind_eq_ok.mp h
                  cases base with
                  | some held =>
                    cases h
                    exact baseAnswers_agree hasks hbase
                  | none => exact refAnswers_agree hasks h

theorem holdsAt_agree (hindexed : Indexed query.program) {asking : List Open}
    (h : query.holdsAt fuel asks asking throughMember ty trait_ args subject = .ok (some held)) :
    Agree query.program held.requests := by
  unfold holdsAt at h
  split at h
  · dsimp only at h
    split at h
    · cases h
      exact Agree.nil
    · cases h
  · exact decide_agree hasks hindexed h

omit hasks in
theorem asksWithin_agree (hindexed : Indexed query.program) (fuel : Nat) :
    AsksAgree query.program (query.asksWithin fuel) := by
  induction fuel with
  | zero =>
    intro _ _ _ _ _ _ _ h
    cases h
  | succ fuel ih =>
    intro _ _ _ _ _ _ _ h
    exact holdsAt_agree ih hindexed h

end Query

/-- The bodies of an answer agree with the program. -/
theorem holdsWithArgs_agree {program : Program} (hbuilt : Built program) {fuel : Nat} {env : Env}
    (h : holdsWithArgs fuel program env ty trait_ args = .ok (some held)) :
    Agree program held.requests :=
  @Query.asksWithin_agree ⟨program, env, none⟩ hbuilt.indexed fuel _ _ _ _ _ _ _ h

theorem requestsOf_agree {α : Type} {program : Program} {ask : α → Run (Option Holds)}
    (hask : ∀ {a held}, ask a = .ok (some held) → Agree program held.requests) {as : List α}
    {requests : List DerivationRequest} (h : requestsOf ask as = .ok requests) :
    Agree program requests := by
  induction as generalizing requests with
  | nil =>
    cases h
    exact Agree.nil
  | cons a as ih =>
    rw [requestsOf] at h
    obtain ⟨held, hheld, h⟩ := bind_eq_ok.mp h
    obtain ⟨rest, hrest, h⟩ := bind_eq_ok.mp h
    cases h
    refine Agree.append ?_ (ih hrest)
    cases held with
    | none => exact Agree.nil
    | some held => exact hask hheld

theorem owedBy_agree {program : Program} (hbuilt : Built program) {fuel : Nat} {env : Env}
    {request : DerivationRequest} {more : List DerivationRequest}
    (h : owedBy fuel program env request = .ok more) : Agree program more := by
  rw [owedBy] at h
  obtain ⟨members, hmembers, h⟩ := bind_eq_ok.mp h
  obtain ⟨supertraits, hsupertraits, h⟩ := bind_eq_ok.mp h
  cases h
  refine Agree.append ?_ ?_
  · unfold memberRequests at hmembers
    split at hmembers
    · split at hmembers
      · cases hmembers
        exact Agree.nil
      · obtain ⟨all, _, hmembers⟩ := bind_eq_ok.mp hmembers
        exact requestsOf_agree (fun hheld => holdsWithArgs_agree hbuilt hheld) hmembers
    · cases hmembers
      exact Agree.nil
  · unfold supertraitRequests at hsupertraits
    split at hsupertraits
    · cases hsupertraits
      exact Agree.nil
    · exact requestsOf_agree (fun hheld => holdsWithArgs_agree hbuilt hheld) hsupertraits

end Wado.TraitSolver
