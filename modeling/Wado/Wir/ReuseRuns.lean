/-
The pass over a module: every call of the rewritten module ends as it did, with
the same results, traps and effects.
-/
import Wado.Wir.CalleeSound
import Wado.Wir.ReuseRewrites

namespace Wado.Wir

open List Option WirInstr

variable {Op Ty Val Rest : Type}

namespace WirInstr

mutual

theorem unwrap_nil : ∀ instr : WirInstr Op Ty, instr.unwrapUnused [] = instr
  | .block result body => by rw [unwrapUnused, unwrapAll_nil body]
  | .loop body => by rw [unwrapUnused, unwrapAll_nil body]
  | .ite condition result thenBody none => by
    rw [unwrapUnused, unwrap_nil condition, unwrapAll_nil thenBody]
  | .ite condition result thenBody (some elseBody) => by
    rw [unwrapUnused, unwrap_nil condition, unwrapAll_nil thenBody, unwrapAll_nil elseBody]
  | .node head operands => by
    rw [unwrap_node (fun _ _ => not_mem_nil), unwrapAll_nil operands]

theorem unwrapAll_nil : ∀ instrs : List (WirInstr Op Ty), unwrapAll [] instrs = instrs
  | [] => rfl
  | instr :: rest => by rw [unwrapAll, unwrap_nil instr, unwrapAll_nil rest]

end

variable {machine : Machine Op Val Rest} {call : Caller Val Rest} {fuel : Nat}

/-- Declarations at a body's start do nothing. -/
theorem evalAll_declared (temps : List (Temp Ty)) (body : List (WirInstr Op Ty))
    (s : State Val Rest) :
    evalAll machine call fuel
        (temps.map (fun temp => .node (.declareLocal temp.name temp.ty) []) ++ body) s =
      evalAll machine call fuel body s := by
  induction temps with
  | nil => rfl
  | cons temp temps ih => exact ih

end WirInstr

namespace WirFunction

variable {callees : CalleeWrites} {func func' : WirFunction Op Ty}

/-- What a function's rewriting leaves as it was. -/
theorem reuseLoads_signature (h : func.reuseLoads callees = some func') :
    func'.paramNames = func.paramNames ∧ func'.results = func.results ∧
      (func.body = none → func'.body = none) := by
  unfold reuseLoads at h
  split at h
  · cases h
    exact ⟨rfl, rfl, fun hbody => hbody⟩
  next body hbody =>
    dsimp only at h
    split at h
    · cases h
    · split at h
      · cases h
        exact ⟨rfl, rfl, fun hnone => by rw [hbody] at hnone; cases hnone⟩
      · cases h
        exact ⟨rfl, rfl, fun hnone => by rw [hbody] at hnone; cases hnone⟩

/-- The names the rewriting mints in a function. -/
def Minted (callees : CalleeWrites) (func : WirFunction Op Ty) (x : Ident) : Prop :=
  ∃ body, func.body = some body ∧ ∃ id,
    id < (WirInstr.visitAll func.taken (some callees) body Reuser.start).2.temps.length ∧
      x = loadName id

variable {body : List (WirInstr Op Ty)}

/-- A rewritten body is a list of declarations and the body walked and stripped. -/
theorem reuseLoads_body (hbody : func.body = some body) (h : func.reuseLoads callees = some func') :
    (visitAll func.taken (some callees) body Reuser.start).2.panicked = false ∧
      ∃ used, func'.body = some (List.map
        (fun temp : Temp Ty => .node (.declareLocal temp.name temp.ty) []) used ++
          unwrapAll
            (((visitAll func.taken (some callees) body Reuser.start).2.temps.filter
              (!·.used)).map (·.name))
            (visitAll func.taken (some callees) body Reuser.start).1) := by
  unfold reuseLoads at h
  rw [hbody] at h
  dsimp only at h
  split at h
  · cases h
  next hpanic =>
    refine ⟨by simpa using hpanic, ?_⟩
    split at h
    next hempty =>
      cases h
      refine ⟨[], ?_⟩
      rw [List.isEmpty_iff] at hempty
      rw [hempty, filter_nil, map_nil, map_nil, unwrapAll_nil]
      rfl
    · cases h
      exact ⟨_, rfl⟩

theorem not_taken (hbody : func.body = some body)
    (hpanic : (visitAll func.taken (some callees) body Reuser.start).2.panicked = false)
    {x : Ident} (h : Minted callees func x) : x ∉ func.taken := by
  obtain ⟨body', hbody', id, hid, rfl⟩ := h
  rw [hbody] at hbody'
  cases hbody'
  exact (visitAll_sound (some callees) body Reuser.start
    Reuser.start_sound).1.fresh hpanic id hid

/-- The rewritten body runs as the body it came from, whatever the temps hold at
its start. -/
theorem reuseLoads_runs (machine : Machine Op Val Rest) {call : Caller Val Rest} (fuel : Nat)
    (hcalls : CallsReturn call) (hsound : CalleesSound (some callees) call)
    (hdeclared : func.LocalsDeclared)
    (hbody : func.body = some body) (hsettled : armsSettledAll [] body = true)
    (h : func.reuseLoads callees = some func') :
    (∀ x, Minted callees func x → x ∉ func.taken) ∧
    ∃ body', func'.body = some body' ∧ ∀ s s', Agrees (Minted callees func) s s' →
        SameOutcome (Minted callees func) (evalAll machine call fuel body s)
          (evalAll machine call fuel body' s') := by
  obtain ⟨hpanic, used, hbody'⟩ := reuseLoads_body hbody h
  refine ⟨fun x => not_taken hbody hpanic, _, hbody', ?_⟩
  intro s s' hagrees
  rw [evalAll_declared]
  obtain ⟨hvisited, -⟩ := visitAll_sound (some callees) body Reuser.start
    (@Reuser.start_sound Ty func.taken)
  have hunused : ∀ x ∈ ((visitAll func.taken (some callees) body
      Reuser.start).2.temps.filter (!·.used)).map (·.name), ∃ id temp,
      (visitAll func.taken (some callees) body Reuser.start).2.temps[id]? = some temp ∧
        temp.used = false ∧ x = loadName id := by
    intro x hx
    obtain ⟨temp, htemp, rfl⟩ := mem_map.mp hx
    obtain ⟨hin, hused⟩ := mem_filter.mp htemp
    obtain ⟨id, hid⟩ := mem_iff_getElem?.mp hin
    exact ⟨id, temp, hid, by simpa using hused, hvisited.named id temp hid⟩
  have hnames : WirInstr.EveryHeadAll
      (fun head => ∀ x ∈ head.localNames, ¬ Minted callees func x) body := by
    refine everyHeadAll_localNames body ?_
    intro x hx hminted
    refine not_taken hbody hpanic hminted ?_
    rcases hdeclared body hbody x hx with hparam | hlocal
    · exact mem_append_right _ hparam
    · exact mem_append_left _ hlocal
  refine (visitAll_rewrites hcalls ?_ (some callees) hsound body Reuser.start [] s s'
    Reuser.start_sound ⟨?_, ?_⟩ hnames hsettled hagrees ?_).same
  · intro x hx
    obtain ⟨id, temp, htemp, -, rfl⟩ := hunused x hx
    exact ⟨body, hbody, id, (List.getElem?_eq_some_iff.mp htemp).1, rfl⟩
  · exact fun id hid => ⟨body, hbody, id, hid, rfl⟩
  · intro id temp htemp hused hin
    obtain ⟨id', temp', htemp', hnot, heq⟩ := hunused _ hin
    cases loadName_injective heq
    rw [htemp] at htemp'
    cases htemp'
    rw [hused] at hnot
    cases hnot
  · intro c id hget
    cases hget

end WirFunction

namespace WirPackage

/-- No arm that counts as diverging is left by a branch to the end of an `if`. -/
def ArmsSettled (package : WirPackage Op Ty) : Prop :=
  ∀ func ∈ package.functions, ∀ body, func.body = some body → WirInstr.armsSettledAll [] body = true

variable {package package' : WirPackage Op Ty}

theorem run_returns (machine : Machine Op Val Rest) (fuel : Nat) :
    CallsReturn (package.run machine fuel) := by
  intro index stack store depth
  have hhost : ∀ index, (machine.hostCall index stack store).1 ≠ .branch depth := by
    intro index h
    unfold Machine.hostCall at h
    split at h <;> cases h
  cases fuel with
  | zero => exact fun h => by cases h
  | succ fuel =>
    rw [run]
    split
    · exact hhost index
    · split
      · exact hhost index
      · split
        · exact fun h => by cases h
        · intro h
          unfold Outcome.finish at h
          split at h <;> cases h

section

variable (h : package.reuseStructLoads = some package')
include h

theorem reuseStructLoads_functions :
    package'.definedFuncBase = package.definedFuncBase ∧ List.Forall₂ (fun func func' =>
        func.reuseLoads (CalleeWrites.ofModule package) = some func')
        package.functions package'.functions := by
  obtain ⟨functions, hfunctions, rfl⟩ := map_eq_some_iff.mp h
  refine ⟨rfl, ?_⟩
  clear h
  dsimp only
  generalize CalleeWrites.ofModule package = callees at hfunctions ⊢
  generalize package.functions = sources at hfunctions ⊢
  induction sources generalizing functions with
  | nil =>
    cases hfunctions
    exact .nil
  | cons func sources ih =>
    rw [mapM_cons] at hfunctions
    obtain ⟨func', hfunc', hrest⟩ := bind_eq_some_iff.mp hfunctions
    obtain ⟨rest', hrest', heq⟩ := bind_eq_some_iff.mp hrest
    cases heq
    exact .cons hfunc' (ih rest' hrest')

/-- The functions at one position of the two modules. -/
theorem reuseStructLoads_at (position : Nat) :
    (package.functions[position]? = none ∧ package'.functions[position]? = none) ∨
      ∃ func func', package.functions[position]? = some func ∧
        package'.functions[position]? = some func' ∧
          func.reuseLoads (CalleeWrites.ofModule package) = some func' := by
  have hall := (reuseStructLoads_functions h).2
  have hlength := hall.length_eq
  by_cases hlt : position < package.functions.length
  · refine Or.inr ⟨package.functions[position], package'.functions[position],
      List.getElem?_eq_getElem hlt, List.getElem?_eq_getElem (hlength ▸ hlt), ?_⟩
    exact (forall₂_iff_get.mp hall).2 position hlt (hlength ▸ hlt)
  · exact Or.inl ⟨List.getElem?_eq_none (not_lt.mp hlt),
      List.getElem?_eq_none (hlength ▸ not_lt.mp hlt)⟩

theorem reuseStructLoads_position (index : Nat) :
    package'.definedFuncPosition index = package.definedFuncPosition index := by
  obtain ⟨hbase, hall⟩ := reuseStructLoads_functions h
  unfold definedFuncPosition
  rw [hbase, hall.length_eq]

end

/-- Two bodies that run alike end a call alike. -/
theorem finish_same {isTemp : Ident → Prop} {o o' : Outcome Val Rest}
    (h : SameOutcome isTemp o o') (results : Nat) (outer : List Val) :
    o'.finish results outer = o.finish results outer := by
  unfold Outcome.finish
  rw [h.exit, h.agrees.stack, h.agrees.store]

/-- Every call of the rewritten module ends as it did, at any fuel. -/
theorem run_eq (machine : Machine Op Val Rest) (h : package.reuseStructLoads = some package')
    (hdeclared : ∀ func ∈ package.functions, func.LocalsDeclared)
    (hsettled : package.ArmsSettled) (fuel : Nat) :
    package'.run machine fuel = package.run machine fuel := by
  induction fuel with
  | zero => rfl
  | succ fuel ih =>
    funext index stack store
    rw [run, run, reuseStructLoads_position h, (reuseStructLoads_functions h).1, ih]
    cases package.definedFuncPosition index with
    | none => rfl
    | some position =>
      rw [bind_some, bind_some]
      rcases reuseStructLoads_at h position with
        ⟨hnone, hnone'⟩ | ⟨func, func', hfunc, hfunc', hreuse⟩
      · rw [hnone, hnone']
      · rw [hfunc, hfunc']
        obtain ⟨hparams, hresults, hnobody⟩ := WirFunction.reuseLoads_signature hreuse
        have hin := mem_of_getElem? hfunc
        cases hbody : func.body with
        | none => simp only [hbody, hnobody hbody]
        | some body =>
          obtain ⟨-, body', hbody', hruns⟩ := WirFunction.reuseLoads_runs machine
            fuel (run_returns machine fuel) (CalleeWrites.calleesSound machine fuel)
            (hdeclared func hin) hbody (hsettled func hin body hbody) hreuse
          have hentry : func'.entry machine (index - package.definedFuncBase) stack =
              func.entry machine (index - package.definedFuncBase) stack := by
            funext name
            rw [WirFunction.entry, WirFunction.entry, hparams]
          simp only [hbody, hbody', hparams, hresults, hentry]
          split
          · rfl
          · exact finish_same (hruns _ _ ⟨rfl, rfl, fun _ _ => rfl⟩) _ _

/-- Where no arm that counts as diverging is left by a branch to the end of an
`if`, the pass preserves meaning: every call ends as it did, and every body runs
as it did whatever its temps hold at its start. -/
theorem reuseStructLoads_preserves (machine : Machine Op Val Rest)
    (h : package.reuseStructLoads = some package')
    (hdeclared : ∀ func ∈ package.functions, func.LocalsDeclared)
    (hsettled : package.ArmsSettled) :
    (∀ fuel index stack store,
      package'.run machine fuel index stack store = package.run machine fuel index stack store) ∧
    ∀ func ∈ package.functions, ∀ body, func.body = some body →
      ∃ func' ∈ package'.functions, ∃ body', func'.body = some body' ∧
        ∃ isTemp : Ident → Prop, (∀ x, isTemp x → x ∉ func.taken) ∧
          ∀ fuel s s', Agrees isTemp s s' → SameOutcome isTemp
              (WirInstr.evalAll machine (package.run machine fuel) fuel body s)
              (WirInstr.evalAll machine (package.run machine fuel) fuel body' s') := by
  refine ⟨fun fuel index stack store => by rw [run_eq machine h hdeclared hsettled fuel], ?_⟩
  intro func hin body hbody
  obtain ⟨position, hposition⟩ := List.mem_iff_getElem?.mp hin
  rcases reuseStructLoads_at h position with ⟨hnone, -⟩ | ⟨func₀, func', hfunc, hfunc', hreuse⟩
  · rw [hposition] at hnone
    cases hnone
  rw [hposition] at hfunc
  cases hfunc
  have hruns := fun fuel => WirFunction.reuseLoads_runs machine fuel (run_returns machine fuel)
    (CalleeWrites.calleesSound machine fuel) (hdeclared func hin) hbody
    (hsettled func hin body hbody) hreuse
  obtain ⟨htaken, body', hbody', -⟩ := hruns 0
  refine ⟨func', List.mem_of_getElem? hfunc', body', hbody', _, htaken, ?_⟩
  intro fuel s s' hagrees
  obtain ⟨-, body'', hbody'', hsame⟩ := hruns fuel
  rw [hbody'] at hbody''
  cases hbody''
  exact hsame s s' hagrees

/-- A machine whose values are numbers: a reference is its address, zero is null,
and an operation pushes a constant. -/
def sampleMachine : Machine Nat Nat Unit where
  address value := if value = 0 then none else some value
  nonzero value := value ≠ 0
  toNat value := value
  initial _ _ := 0
  apply constant stack store := some (constant :: stack, store)
  apply_kept := by
    intro constant stack store stack' store' name h
    cases h
    exact Store.Kept.refl name store
  host _ _ _ := none
  tableEntry _ _ _ := none
  funcRef _ := none

/-- One object, whose field `x` holds one. -/
def sampleStore : Store Nat Unit where
  field address name := if address = 7 ∧ name = ['x'] then some 1 else none
  rest := ()

def readX : WirInstr Nat Unit :=
  .node (.structGet 0 ['x'] ()) [.node (.localGet ['p'] ()) []]

/-- Read `p.x`, set it to two in an `if` that goes on with `tail`, and return it. -/
def samplePackage (tail : List (WirInstr Nat Unit)) : WirPackage Nat Unit where
  definedFuncBase := 0
  functions :=
    [{ paramNames := [['p'], ['c']]
       results := 1
       body := some
        [.node .drop [readX], .ite (.node (.localGet ['c'] ()) []) none
          (.node (.structSet 0 ['x']) [.node (.localGet ['p'] ()) [], .node (.op 2) []] :: tail)
          none,
         .node .ret [readX]] }]

theorem samplePackage_declared (tail : List (WirInstr Nat Unit))
    (htail : localNamesAll tail = []) :
    ∀ func ∈ (samplePackage tail).functions, func.LocalsDeclared := by
  intro func hfunc body hbody name hname
  cases mem_singleton.mp hfunc
  cases hbody
  refine Or.inl ?_
  simp only [localNamesAll, localNames, htail, readX, Head.localNames,
    Head.localWrites] at hname
  revert name
  simp

theorem reuseStructLoads_preserves_sample :
    ∃ package', (samplePackage []).reuseStructLoads = some package' ∧
      (package'.run sampleMachine 2 0 [1, 7] sampleStore).2.1 = [2] := by
  obtain ⟨package', h⟩ := Option.isSome_iff_exists.mp
    (by decide : (samplePackage []).reuseStructLoads.isSome = true)
  refine ⟨package', h, ?_⟩
  have hsettled : (samplePackage []).ArmsSettled := by
    intro func hfunc body hbody
    cases List.mem_singleton.mp hfunc
    cases hbody
    decide
  rw [(reuseStructLoads_preserves sampleMachine h (samplePackage_declared [] rfl) hsettled).1]
  decide

/-- An arm that writes the field and branches to the end of its `if` leaves the
temp stale. -/
theorem stale_after_branch :
    ¬ ∀ package package' : WirPackage Nat Unit, package.reuseStructLoads = some package' →
      (∀ func ∈ package.functions, func.LocalsDeclared) →
        ∀ fuel index stack store, package'.run sampleMachine fuel index stack store =
          package.run sampleMachine fuel index stack store := by
  intro h
  have hstale : (samplePackage [.node (.br 0) []]).reuseStructLoads.map
      (fun package' => (package'.run sampleMachine 2 0 [1, 7] sampleStore).2.1) = some [1] := by
    decide
  obtain ⟨package', hreuse, hone⟩ := Option.map_eq_some_iff.mp hstale
  rw [h _ package' hreuse (samplePackage_declared _ rfl)] at hone
  have htwo : ((samplePackage [.node (.br 0) []]).run sampleMachine 2 0 [1, 7]
      sampleStore).2.1 = [2] := by
    decide
  rw [htwo] at hone
  cases hone

end WirPackage

end Wado.Wir
