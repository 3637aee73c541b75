/-
What a search for owed bodies returns: it ends exactly where some finite set of requests is
closed under what they owe, and then it returns the least such set.
-/
import Wado.TraitSolver.Owed

namespace Wado.TraitSolver

open List ExceptSteps

/-- One request owes another: its structural body calls the trait on a member that holds it, or a
supertrait clause holds at its type. -/
inductive Owes (fuel : Nat) (program : Program) (env : Env) (request : DerivationRequest) :
    DerivationRequest → Prop
  | member {head : TypeDeclId} {args members : List SolverType} {decl : Declaration}
      {member : SolverType} {held : Holds} {owed : DerivationRequest}
      (hstructural : request.structural = true) (hty : request.ty = .decl head args)
      (hdecl : program.declarations.lookup head = some decl)
      (hmembers : decl.membersAt args = .ok members) (hmember : member ∈ members)
      (hheld : holds fuel program env member request.trait_ = .ok (some held))
      (howed : owed ∈ held.requests) : Owes fuel program env request owed
  | supertrait {traitDef : TraitDef} {clause stated : ParamBound} {held : Holds}
      {owed : DerivationRequest} (htrait : program.traits.lookup request.trait_ = some traitDef)
      (hclause : clause ∈ traitDef.supertraits)
      (hstated : program.clauseAt clause request.trait_
        (program.perParam (some request.trait_) []) request.ty = some stated)
      (hheld : holdsWithArgs fuel program env request.ty stated.trait_ stated.args =
        .ok (some held))
      (howed : owed ∈ held.requests) : Owes fuel program env request owed

/-- The solver answers every question that the request's body puts. -/
def Answered (fuel : Nat) (program : Program) (env : Env) (request : DerivationRequest) : Prop :=
  ∃ more, owedBy fuel program env request = .ok more

/-- A set of bodies from which nothing owed is missing. -/
structure ClosedUnder (fuel : Nat) (program : Program) (env : Env)
    (requests : List DerivationRequest) (bodies : Set DerivationRequest) : Prop where
  given : ∀ request ∈ requests, request ∈ bodies
  owed : ∀ request ∈ bodies, ∀ {request'}, Owes fuel program env request request' →
    request' ∈ bodies

variable {fuel : Nat} {program : Program} {env : Env}

variable {requests : List DerivationRequest} {request : DerivationRequest}

theorem mem_requestsOf {α : Type} {ask : α → Run (Option Holds)} {as : List α}
    (h : requestsOf ask as = .ok requests) :
    request ∈ requests ↔ ∃ a ∈ as, ∃ held, ask a = .ok (some held) ∧ request ∈ held.requests := by
  induction as generalizing requests with
  | nil =>
    cases h
    simp
  | cons a as ih =>
    rw [requestsOf] at h
    obtain ⟨held, hheld, h⟩ := bind_eq_ok.mp h
    obtain ⟨rest, hrest, h⟩ := bind_eq_ok.mp h
    cases h
    rw [mem_append, ih hrest, exists_mem_cons_iff, hheld]
    cases held <;> simp

theorem mem_owedBy {more : List DerivationRequest}
    (h : owedBy fuel program env request = .ok more) {request' : DerivationRequest} :
    request' ∈ more ↔ Owes fuel program env request request' := by
  rw [owedBy] at h
  obtain ⟨members, hmembers, h⟩ := bind_eq_ok.mp h
  obtain ⟨supertraits, hsupertraits, h⟩ := bind_eq_ok.mp h
  cases h
  rw [mem_append]
  constructor
  · rintro (hin | hin)
    · unfold memberRequests at hmembers
      split at hmembers
      · rename_i head args hstructural hty
        split at hmembers
        · cases hmembers
          cases hin
        · rename_i decl hdecl
          obtain ⟨all, hall, hmembers⟩ := bind_eq_ok.mp hmembers
          obtain ⟨member, hmember, held, hheld, howed⟩ := (mem_requestsOf hmembers).mp hin
          exact .member hstructural hty hdecl hall hmember hheld howed
      · cases hmembers
        cases hin
    · unfold supertraitRequests at hsupertraits
      split at hsupertraits
      · cases hsupertraits
        cases hin
      · rename_i traitDef htrait
        obtain ⟨stated, hstated, held, hheld, howed⟩ := (mem_requestsOf hsupertraits).mp hin
        obtain ⟨clause, hclause, hstated⟩ := mem_filterMap.mp hstated
        exact .supertrait htrait hclause hstated hheld howed
  · intro howes
    cases howes with
    | member hstructural hty hdecl hall hmember hheld howed =>
      refine .inl ?_
      simp only [memberRequests, hstructural, hty, hdecl] at hmembers
      obtain ⟨all, hall', hmembers⟩ := bind_eq_ok.mp hmembers
      rw [hall, Except.ok.injEq] at hall'
      subst hall'
      exact (mem_requestsOf hmembers).mpr ⟨_, hmember, _, hheld, howed⟩
    | supertrait htrait hclause hstated hheld howed =>
      refine .inr ?_
      simp only [supertraitRequests, htrait] at hsupertraits
      exact (mem_requestsOf hsupertraits).mpr
        ⟨_, mem_filterMap.mpr ⟨_, hclause, hstated⟩, _, hheld, howed⟩

/-- What a request leads to; one that is not answered leads nowhere. -/
def leadsTo (fuel : Nat) (program : Program) (env : Env) (request : DerivationRequest) :
    List DerivationRequest :=
  match owedBy fuel program env request with
  | .ok more => more
  | .error _ => []

variable {request request' : DerivationRequest}

theorem leadsTo_owes (h : request' ∈ leadsTo fuel program env request) :
    Owes fuel program env request request' := by
  unfold leadsTo at h
  split at h
  · rename_i more hmore
    exact (mem_owedBy hmore).mp h
  · cases h

theorem leadsTo_of_owes
    (hanswered : Answered fuel program env request) (h : Owes fuel program env request request') :
    request' ∈ leadsTo fuel program env request := by
  obtain ⟨more, hmore⟩ := hanswered
  rw [leadsTo, hmore]
  exact (mem_owedBy hmore).mpr h

/-- The type and the trait that a body is emitted for. -/
def DerivationRequest.key (request : DerivationRequest) : SolverType × TraitDeclId :=
  (request.ty, request.trait_)

theorem Agree.key_injective {request request' :
    DerivationRequest} (h : Agree program requests) (hrequest : request ∈ requests)
    (hrequest' : request' ∈ requests) (hkey : request.key = request'.key) :
    request = request' := by
  have hstructural := h request hrequest
  have hstructural' := h request' hrequest'
  obtain ⟨ty, trait_, structural⟩ := request
  obtain ⟨ty', trait_', structural'⟩ := request'
  simp only [DerivationRequest.key, Prod.mk.injEq] at hkey
  obtain ⟨rfl, rfl⟩ := hkey
  simp only at hstructural hstructural'
  rw [hstructural, hstructural']

/-- The search is the walk along what requests lead to, where each is answered. -/
theorem owedLoop_eq_ok (hbuilt : Built program) {steps : Nat}
    {stack seen out : List DerivationRequest} (hstack : Agree program stack)
    (hseen : Agree program seen) :
    owedLoop fuel program env steps stack (seen.map DerivationRequest.key) = .ok out ↔
      Worklist.walk (leadsTo fuel program env) steps stack seen = some out ∧
        ∀ request ∈ out, Answered fuel program env request := by
  induction steps generalizing stack seen out with
  | zero =>
    cases stack with
    | nil =>
      constructor
      · intro h
        cases h
        exact ⟨rfl, by simp⟩
      · rintro ⟨h, _⟩
        cases h
        rfl
    | cons request stack =>
      constructor
      · intro h
        cases h
      · rintro ⟨h, _⟩
        cases h
  | succ steps ih =>
    cases stack with
    | nil =>
      constructor
      · intro h
        cases h
        exact ⟨rfl, by simp⟩
      · rintro ⟨h, _⟩
        cases h
        rfl
    | cons request stack =>
      have hrequest : Agree program [request] := fun found hfound =>
        hstack found (by rw [mem_singleton.mp hfound]; exact mem_cons_self)
      have hrest : Agree program stack := fun found hfound =>
        hstack found (mem_cons_of_mem _ hfound)
      have hkey : (request.ty, request.trait_) ∈ seen.map DerivationRequest.key ↔
          request ∈ seen := by
        constructor
        · intro hin
          obtain ⟨found, hfound, heq⟩ := mem_map.mp hin
          have hall := hseen.append hrequest
          rw [← hall.key_injective (mem_append_left _ hfound)
            (mem_append_right _ mem_cons_self) heq]
          exact hfound
        · intro hin
          exact mem_map.mpr ⟨request, hin, rfl⟩
      rw [owedLoop, Worklist.walk]
      by_cases hin : request ∈ seen
      · rw [if_pos (hkey.mpr hin), if_pos hin]
        exact ih hrest hseen
      · rw [if_neg (fun h => hin (hkey.mp h)), if_neg hin]
        have hkeys : seen.map DerivationRequest.key ++ [(request.ty, request.trait_)] =
            (seen ++ [request]).map DerivationRequest.key := by
          rw [map_append]
          rfl
        rw [hkeys]
        constructor
        · intro h
          obtain ⟨more, hmore, h⟩ := bind_eq_ok.mp h
          obtain ⟨owed, howed, h⟩ := bind_eq_ok.mp h
          cases h
          have hmoreAgree : Agree program more.reverse := fun found hfound =>
            owedBy_agree hbuilt hmore found (mem_reverse.mp hfound)
          obtain ⟨hwalk, hanswered⟩ :=
            (ih (hmoreAgree.append hrest) (hseen.append hrequest)).mp howed
          refine ⟨?_, ?_⟩
          · rw [leadsTo, hmore]
            dsimp only
            rw [hwalk]
            rfl
          · intro found hfound
            rcases mem_cons.mp hfound with rfl | hfound
            · exact ⟨more, hmore⟩
            · exact hanswered found hfound
        · rintro ⟨hwalk, hanswered⟩
          obtain ⟨owed, howed, rfl⟩ := Option.map_eq_some_iff.mp hwalk
          obtain ⟨more, hmore⟩ := hanswered request mem_cons_self
          have hmoreAgree : Agree program more.reverse := fun found hfound =>
            owedBy_agree hbuilt hmore found (mem_reverse.mp hfound)
          rw [leadsTo, hmore] at howed
          have hloop := (ih (hmoreAgree.append hrest) (hseen.append hrequest)).mpr
            ⟨howed, fun found hfound => hanswered found (mem_cons_of_mem _ hfound)⟩
          rw [bind_of_eq_ok hmore, bind_of_eq_ok hloop]
          rfl

/-- What the search returns: each body once, and the least set closed under what bodies owe. -/
theorem owed_least (hbuilt : Built program) {steps : Nat} {requests out : List DerivationRequest}
    (hagree : Agree program requests) (h : owed fuel steps program env requests = .ok out) :
    (out.map DerivationRequest.key).Nodup ∧
      ClosedUnder fuel program env requests { request | request ∈ out } ∧
      (∀ request ∈ out, Answered fuel program env request) ∧
      ∀ bodies, ClosedUnder fuel program env requests bodies → ∀ request ∈ out,
        request ∈ bodies := by
  have hstack : Agree program requests.reverse := fun request hrequest =>
    hagree request (mem_reverse.mp hrequest)
  obtain ⟨hwalk, hanswered⟩ :=
    (@owedLoop_eq_ok fuel program env hbuilt steps requests.reverse [] out hstack Agree.nil).mp h
  have hreaches := Worklist.walk_reaches hwalk
  have hstep : ∀ {start request}, Worklist.Reaches (leadsTo fuel program env) start request →
      ∀ {bodies : Set DerivationRequest}, start ∈ bodies →
        (∀ request ∈ bodies, ∀ {request'}, Owes fuel program env request request' →
          request' ∈ bodies) → request ∈ bodies := by
    intro start request hreach bodies hstart howed
    induction hreach with
    | refl => exact hstart
    | tail _ hlast ih => exact howed _ ih (leadsTo_owes hlast)
  have hall : Agree program out := by
    intro request hrequest
    obtain ⟨start, hstart, hreach⟩ := hreaches request hrequest
    refine @hstep start request hreach
      { request | request.structural = structuralAt program request.ty request.trait_ }
      (hstack start hstart) ?_
    intro request _ request' howes
    cases howes with
    | member _ _ _ _ _ hheld howed => exact holdsWithArgs_agree hbuilt hheld _ howed
    | supertrait _ _ _ hheld howed => exact holdsWithArgs_agree hbuilt hheld _ howed
  obtain ⟨hstackIn, hnext⟩ := Worklist.walk_closed hwalk
  refine ⟨?_, ⟨?_, ?_⟩, hanswered, ?_⟩
  · refine List.Nodup.map_on ?_ (Worklist.walk_nodup hwalk).1
    intro request hrequest request' hrequest' hkey
    exact hall.key_injective hrequest hrequest' hkey
  · intro request hrequest
    rcases hstackIn request (mem_reverse.mpr hrequest) with hseen | hin
    · cases hseen
    · exact hin
  · intro request hrequest request' howes
    rcases hnext request hrequest request'
        (leadsTo_of_owes (hanswered request hrequest) howes) with hseen | hin
    · cases hseen
    · exact hin
  · intro bodies hbodies request hrequest
    obtain ⟨start, hstart, hreach⟩ := hreaches request hrequest
    exact hstep hreach (hbodies.given start (mem_reverse.mp hstart)) hbodies.owed

/-- The search ends exactly where a finite set of answered requests is closed under what they owe,
and what it then returns is the least such set, each body once. -/
theorem owed_exact (hbuilt : Built program) (fuel : Nat) (env : Env)
    (requests : List DerivationRequest) (hagree : Agree program requests) :
    ((∃ steps out, owed fuel steps program env requests = .ok out) ↔
      ∃ bodies : Set DerivationRequest, bodies.Finite ∧
        ClosedUnder fuel program env requests bodies ∧
        ∀ request ∈ bodies, Answered fuel program env request) ∧
    ∀ steps out, owed fuel steps program env requests = .ok out →
      (out.map DerivationRequest.key).Nodup ∧
        ClosedUnder fuel program env requests { request | request ∈ out } ∧
        ∀ bodies, ClosedUnder fuel program env requests bodies → ∀ request ∈ out,
          request ∈ bodies := by
  refine ⟨⟨?_, ?_⟩, ?_⟩
  · rintro ⟨steps, out, h⟩
    obtain ⟨_, hclosed, hanswered, _⟩ := owed_least hbuilt hagree h
    exact ⟨{ request | request ∈ out }, List.finite_toSet out, hclosed, hanswered⟩
  · rintro ⟨bodies, hfinite, hclosed, hanswered⟩
    obtain ⟨items, hitems⟩ := hfinite.exists_finset_coe
    have hmem : ∀ request, request ∈ items.toList ↔ request ∈ bodies := by
      intro request
      rw [Finset.mem_toList, ← Finset.mem_coe, hitems]
    obtain ⟨out, hout⟩ := Worklist.walk_ends items.nodup_toList
      (fun request hrequest request' hrequest' => (hmem request').mpr
        (hclosed.owed request ((hmem request).mp hrequest) (leadsTo_owes hrequest')))
      (Worklist.left (leadsTo fuel program env) items.toList requests.reverse [])
      requests.reverse []
      (fun request hrequest => (hmem request).mpr
        (hclosed.given request (List.mem_reverse.mp hrequest))) (Nat.le_refl _)
    refine ⟨_, out, (@owedLoop_eq_ok fuel program env hbuilt _ requests.reverse [] out ?_
      Agree.nil).mpr ⟨hout, ?_⟩⟩
    · exact fun request hrequest => hagree request (List.mem_reverse.mp hrequest)
    · intro request hrequest
      obtain ⟨start, hstart, hreach⟩ := Worklist.walk_reaches hout request hrequest
      have hin : request ∈ bodies := by
        clear hrequest
        induction hreach with
        | refl => exact hclosed.given start (List.mem_reverse.mp hstart)
        | tail _ hlast ih => exact hclosed.owed _ ih (leadsTo_owes hlast)
      exact hanswered request hin
  · intro steps out h
    obtain ⟨hnodup, hclosed, _, hleast⟩ := owed_least hbuilt hagree h
    exact ⟨hnodup, hclosed, hleast⟩

section Instances

/-- `struct Nested<T> { inner: Nested<List<T>> }` with a derived `Eq`, where `Eq` is the trait 0,
`Nested` the declaration 0 and `List` the declaration 1. -/
def nestedProgram : Program where
  impls := [(⟨0⟩, ⟨some ⟨0⟩, [], .decl ⟨0⟩ [.param 0], [⟨[], [], false⟩], .derived⟩)]
  implsByTrait := [(⟨0⟩, [⟨0⟩])]
  implsByTarget := [((⟨0⟩, some ⟨0⟩), [⟨0⟩])]
  traits := [(⟨0⟩, { structural := true })]
  declarations := [(⟨0⟩, ⟨⟨0⟩, 1, false, [.decl ⟨0⟩ [.decl ⟨1⟩ [.param 0]]]⟩)]

/-- The body of `Nested<ty>: Eq`. -/
def nestedBody (ty : SolverType) : DerivationRequest := ⟨.decl ⟨0⟩ [ty], ⟨0⟩, true⟩

theorem nested_holds (fuel : Nat) (ty : SolverType) :
    holds (fuel + 2) nestedProgram ⟨[]⟩ (.decl ⟨0⟩ [ty]) ⟨0⟩ =
      .ok (some ⟨[nestedBody ty], []⟩) := rfl

/-- `List<..List<i32>>`, so many lists deep. -/
def listsOf : Nat → SolverType
  | 0 => .decl ⟨2⟩ []
  | n + 1 => .decl ⟨1⟩ [listsOf n]

theorem listsOf_injective : Function.Injective listsOf := by
  intro n
  induction n with
  | zero =>
    intro m hm
    cases m with
    | zero => rfl
    | succ m => simp [listsOf] at hm
  | succ n ih =>
    intro m hm
    cases m with
    | zero => simp [listsOf] at hm
    | succ m =>
      simp only [listsOf, SolverType.decl.injEq, List.cons.injEq, and_true, true_and] at hm
      rw [ih hm]

theorem nested_owes (fuel : Nat) (ty : SolverType) :
    Owes (fuel + 2) nestedProgram ⟨[]⟩ (nestedBody ty) (nestedBody (.decl ⟨1⟩ [ty])) :=
  .member rfl rfl rfl rfl mem_cons_self (nested_holds fuel _) mem_cons_self

theorem nestedProgram_built : Built nestedProgram :=
  @Built.push _ nestedProgram
    ⟨some ⟨0⟩, [], .decl ⟨0⟩ [.param 0], [⟨[], [], false⟩], .derived⟩ ⟨0⟩
    (@Built.empty { nestedProgram with impls := [], implsByTrait := [], implsByTarget := [] }
      rfl rfl rfl) rfl

theorem nested_endless (fuel steps : Nat) (out : List DerivationRequest) :
    owed fuel steps nestedProgram ⟨[]⟩ [nestedBody (listsOf 0)] ≠ .ok out := by
  intro h
  have hagree : Agree nestedProgram [nestedBody (listsOf 0)] := by
    intro request hrequest
    rw [mem_singleton.mp hrequest]
    rfl
  obtain ⟨_, hclosed, hanswered, _⟩ := owed_least nestedProgram_built hagree h
  have hfirst := hclosed.given _ mem_cons_self
  obtain ⟨more, hmore⟩ := hanswered _ hfirst
  match fuel with
  | 0 => cases hmore
  | 1 => cases hmore
  | fuel + 2 =>
    have hall : ∀ n, nestedBody (listsOf n) ∈ { request | request ∈ out } := by
      intro n
      induction n with
      | zero => exact hfirst
      | succ n ih => exact hclosed.owed _ ih (nested_owes fuel (listsOf n))
    have hinjective : Function.Injective fun n => nestedBody (listsOf n) := by
      intro n m hnm
      apply listsOf_injective
      simpa [nestedBody] using hnm
    exact Set.infinite_of_injective_forall_mem hinjective hall (finite_toSet out)

/-- `struct Pair { left: Item, right: Item }` with a derived `Eq` of each, where `Pair` is the
declaration 0 and `Item` the declaration 1. -/
def pairProgram : Program where
  impls := [(⟨0⟩, ⟨some ⟨0⟩, [], .decl ⟨0⟩ [], [], .derived⟩),
    (⟨1⟩, ⟨some ⟨0⟩, [], .decl ⟨1⟩ [], [], .derived⟩)]
  implsByTrait := [(⟨0⟩, [⟨0⟩, ⟨1⟩])]
  implsByTarget := [((⟨0⟩, some ⟨0⟩), [⟨0⟩]), ((⟨0⟩, some ⟨1⟩), [⟨1⟩])]
  traits := [(⟨0⟩, { structural := true })]
  declarations := [(⟨0⟩, ⟨⟨0⟩, 0, false, [.decl ⟨1⟩ [], .decl ⟨1⟩ []]⟩), (⟨1⟩, ⟨⟨1⟩, 0, false, []⟩)]

theorem pairProgram_built : Built pairProgram :=
  @Built.push _ pairProgram ⟨some ⟨0⟩, [], .decl ⟨1⟩ [], [], .derived⟩ ⟨1⟩
    (@Built.push _ _ ⟨some ⟨0⟩, [], .decl ⟨0⟩ [], [], .derived⟩ ⟨0⟩
      (@Built.empty { pairProgram with impls := [], implsByTrait := [], implsByTarget := [] }
        rfl rfl rfl) rfl) rfl

/-- `Pair: Eq` owes its own body and, once, the one of `Item`. -/
theorem owed_exact_pair : owed 3 8 pairProgram ⟨[]⟩ [⟨.decl ⟨0⟩ [], ⟨0⟩, true⟩] =
      .ok [⟨.decl ⟨0⟩ [], ⟨0⟩, true⟩, ⟨.decl ⟨1⟩ [], ⟨0⟩, true⟩] ∧
    ∀ bodies, ClosedUnder 3 pairProgram ⟨[]⟩ [⟨.decl ⟨0⟩ [], ⟨0⟩, true⟩] bodies →
      ∀ request ∈ [DerivationRequest.mk (.decl ⟨0⟩ []) ⟨0⟩ true, ⟨.decl ⟨1⟩ [], ⟨0⟩, true⟩],
        request ∈ bodies := by
  have hrun : owed 3 8 pairProgram ⟨[]⟩ [⟨.decl ⟨0⟩ [], ⟨0⟩, true⟩] =
      .ok [⟨.decl ⟨0⟩ [], ⟨0⟩, true⟩, ⟨.decl ⟨1⟩ [], ⟨0⟩, true⟩] := rfl
  have hagree : Agree pairProgram [⟨.decl ⟨0⟩ [], ⟨0⟩, true⟩] := by
    intro request hrequest
    rw [List.mem_singleton.mp hrequest]
    rfl
  exact ⟨hrun, ((owed_exact pairProgram_built 3 ⟨[]⟩ _ hagree).2 8 _ hrun).2.2⟩

/-- A declaration that reaches itself at larger arguments owes bodies without end, and of two
given requests for one body the last given stands for both: the members of the other are not
asked for. -/
theorem owed_not_asStated :
    (∀ fuel steps out, owed fuel steps nestedProgram ⟨[]⟩ [nestedBody (listsOf 0)] ≠ .ok out) ∧
    owed 3 8 pairProgram ⟨[]⟩ [⟨.decl ⟨0⟩ [], ⟨0⟩, true⟩, ⟨.decl ⟨0⟩ [], ⟨0⟩, false⟩] =
      .ok [⟨.decl ⟨0⟩ [], ⟨0⟩, false⟩] :=
  ⟨nested_endless, rfl⟩

end Instances

end Wado.TraitSolver
