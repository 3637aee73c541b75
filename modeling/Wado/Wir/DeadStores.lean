/-
Removing the stores the liveness pass finds dead changes no read of a local, no effect
and no result, and every store it keeps has a path to a read.
-/
import Wado.Wir.Exec
import Wado.Wir.StoreNumbers

namespace Wado.Wir.Liveness

open List Option WirInstr

variable {Op Ty Val Rest : Type}

/-- How a stretch of code ends, and the locals it read, in order, with their values. -/
structure Run (Val Rest : Type) where
  outcome : Outcome Val Rest
  reads : List (Ident × Val)

namespace Run

def andThen (run : Run Val Rest) (k : State Val Rest → Run Val Rest) : Run Val Rest :=
  if run.outcome.exit = .next then
    ⟨(k run.outcome.state).outcome, run.reads ++ (k run.outcome.state).reads⟩
  else run

def leave (arity : Nat) (outer : List Val) (run : Run Val Rest) : Run Val Rest :=
  ⟨run.outcome.leave arity outer, run.reads⟩

/-- Everything but the locals left behind is the same: what was read, how the run ends,
its results and its effects. -/
structure Same (run run' : Run Val Rest) : Prop where
  reads : run.reads = run'.reads
  exit : run.outcome.exit = run'.outcome.exit
  stack : run.outcome.state.stack = run'.outcome.state.stack
  store : run.outcome.state.store = run'.outcome.state.store

end Run

def pop (state : State Val Rest) (k : Val → State Val Rest → Run Val Rest) : Run Val Rest :=
  match state.stack with
  | [] => ⟨⟨.trap, state⟩, []⟩
  | value :: stack => k value { state with stack := stack }

/-- The turns of a loop. -/
def turns (body : State Val Rest → Run Val Rest) : Nat → State Val Rest → Run Val Rest
  | 0, state => ⟨⟨.outOfFuel, state⟩, []⟩
  | fuel + 1, state =>
    if (body { state with stack := [] }).outcome.exit = .branch 0 then
      ⟨(turns body fuel (body { state with stack := [] }).outcome.state).outcome,
        (body { state with stack := [] }).reads ++
          (turns body fuel (body { state with stack := [] }).outcome.state).reads⟩
    else body { state with stack := [] }

/-- The local an instruction itself reads. -/
def headReads : Head Op Ty → State Val Rest → List (Ident × Val)
  | .localGet name _, state => [(name, state.locals name)]
  | _, _ => []

/-- An instruction's own step, its write removed or not: the value is still taken, and a
tee still leaves it. -/
def stepWithout (machine : Machine Op Val Rest) (call : Caller Val Rest) (dropped : Bool)
    (removed : Prop) [Decidable removed] (head : Head Op Ty) (state : State Val Rest) :
    Outcome Val Rest :=
  if removed then
    match head with
    | .localSet _ => state.pop fun _ state => ⟨.next, state⟩
    | .localTee _ => state.pop fun value state => ⟨.next, state.push value⟩
    | head => head.step machine call dropped state
  else head.step machine call dropped state

variable {machine : Machine Op Val Rest} {call : Caller Val Rest} {head : Head Op Ty}
variable {state : State Val Rest}

theorem stepWithout_kept {dropped : Bool} {removed : Prop} [Decidable removed] (h : ¬ removed) :
    stepWithout machine call dropped removed head state = head.step machine call dropped state :=
  if_neg h

mutual

/-- The run of an instruction, numbered from `id` on, without the writes whose numbers
are `dead`. -/
def runWithout (dead : List Nat) (machine : Machine Op Val Rest) (call : Caller Val Rest)
    (fuel : Nat) : Nat → WirInstr Op Ty → State Val Rest → Run Val Rest
  | id, .block result body, state =>
    (runAllWithout dead machine call fuel (id + 1) body { state with stack := [] }).leave
      result.toList.length state.stack
  | id, .loop body, state =>
    (turns (runAllWithout dead machine call fuel (id + 1) body) fuel state).leave 0 state.stack
  | id, .ite condition result thenBody elseBody, state =>
    (runWithout dead machine call fuel (id + 1) condition state).andThen fun state =>
      pop state fun value state =>
        (if machine.nonzero value then
            runAllWithout dead machine call fuel (id + 1 + nodes condition) thenBody
              { state with stack := [] }
          else
            match elseBody with
            | some elseBody =>
              runAllWithout dead machine call fuel
                (id + 1 + nodes condition + nodesAll thenBody) elseBody
                { state with stack := [] }
            | none => ⟨⟨.next, { state with stack := [] }⟩, []⟩).leave
          result.toList.length state.stack
  | id, .node head operands, state =>
    (runAllWithout dead machine call fuel (id + 1) operands state).andThen fun state =>
      ⟨stepWithout machine call (!WirInstr.seqAlwaysDiverges operands) (id ∈ dead) head state,
        headReads head state⟩

def runAllWithout (dead : List Nat) (machine : Machine Op Val Rest) (call : Caller Val Rest)
    (fuel : Nat) : Nat → List (WirInstr Op Ty) → State Val Rest → Run Val Rest
  | _, [], state => ⟨⟨.next, state⟩, []⟩
  | id, instr :: rest, state =>
    (runWithout dead machine call fuel id instr state).andThen
      (runAllWithout dead machine call fuel (id + nodes instr) rest)

end

section Whole

variable {machine : Machine Op Val Rest} {call : Caller Val Rest} {fuel : Nat}

theorem andThen_outcome (run : Run Val Rest) (k : State Val Rest → Run Val Rest) :
    (run.andThen k).outcome = run.outcome.andThen fun state => (k state).outcome := by
  unfold Run.andThen Outcome.andThen
  split <;> rfl

theorem turns_outcome {body : State Val Rest → Run Val Rest} :
    ∀ (fuel : Nat) (state : State Val Rest),
      (turns body fuel state).outcome = iterate (fun state => (body state).outcome) fuel state
  | 0, _ => rfl
  | fuel + 1, state => by
    rw [turns, iterate]
    split
    · exact turns_outcome fuel _
    · rfl

theorem pop_outcome (state : State Val Rest) (k : Val → State Val Rest → Run Val Rest) :
    (pop state k).outcome = state.pop fun value state => (k value state).outcome := by
  rcases state with ⟨locals, _ | ⟨value, stack⟩, store⟩ <;> rfl

mutual

/-- With no write removed the run is the evaluation. -/
theorem runWithout_nil : ∀ (instr : WirInstr Op Ty) (id : Nat) (state : State Val Rest),
    (runWithout [] machine call fuel id instr state).outcome = instr.eval machine call fuel state
  | .block result body, id, state => by
    rw [runWithout, eval, Run.leave, runAllWithout_nil body]
  | .loop body, id, state => by
    rw [runWithout, eval, Run.leave, turns_outcome,
      funext (runAllWithout_nil body (id + 1))]
  | .ite condition result thenBody elseBody, id, state => by
    rw [runWithout, eval, andThen_outcome, runWithout_nil condition]
    congr 1
    funext state
    rw [pop_outcome]
    congr 1
    funext value state
    rw [Run.leave]
    split
    · rw [runAllWithout_nil thenBody]
    · cases elseBody with
      | none => rfl
      | some elseBody => rw [runAllWithout_nil elseBody]
  | .node head operands, id, state => by
    rw [runWithout, eval, andThen_outcome, runAllWithout_nil operands]
    rfl

theorem runAllWithout_nil : ∀ (instrs : List (WirInstr Op Ty)) (id : Nat)
    (state : State Val Rest),
    (runAllWithout [] machine call fuel id instrs state).outcome =
      evalAll machine call fuel instrs state
  | [], _, _ => rfl
  | instr :: rest, id, state => by
    rw [runAllWithout, evalAll, andThen_outcome, runWithout_nil instr,
      funext (runAllWithout_nil rest (id + nodes instr))]

end

end Whole

/-- The same state with other locals. -/
def withLocals (state : State Val Rest) (locals : Ident → Val) : State Val Rest :=
  { state with locals := locals }

def Run.withLocals (run : Run Val Rest) (locals : Ident → Val) : Run Val Rest :=
  ⟨⟨run.outcome.exit, Liveness.withLocals run.outcome.state locals⟩, run.reads⟩

/-- The locals a path from the place can read are the same. -/
def Agrees (place : Place) (locals locals' : Ident → Val) : Prop :=
  ∀ x, Live x place → locals x = locals' x

/-- Two runs of code before `rest` that differ in locals only, and in none that is read
where control goes on. -/
def Like (rest : Code) (frames : List Frame) (run run' : Run Val Rest) : Prop :=
  ∃ locals, run' = run.withLocals locals ∧
    (run.outcome.exit = .next → Agrees ⟨rest, frames⟩ run.outcome.state.locals locals) ∧
    ∀ depth place, run.outcome.exit = .branch depth → landing frames depth = some place →
      Agrees place run.outcome.state.locals locals

theorem Agrees.step {place next : Place} {locals locals' : Ident → Val}
    (h : Agrees place locals locals') (hwrites : place.writes = ∅)
    (hnext : next ∈ place.successors) : Agrees next locals locals' := by
  intro x hx
  refine h x (.step ?_ hnext hx)
  rw [hwrites]
  exact Finset.notMem_empty x

theorem Agrees.done {frame : Frame} {frames : List Frame} {locals locals' : Ident → Val}
    (h : Agrees ⟨.done, frame :: frames⟩ locals locals') :
    Agrees ⟨frame.rest, frames⟩ locals locals' :=
  h.step rfl (mem_singleton.mpr rfl)

variable {locals : Ident → Val} {name : Ident} {id : Nat}

variable {dead : List Nat}

section Like

variable {rest mid : Code} {frames : List Frame} {run run' : Run Val Rest}

theorem Like.next (locals : Ident → Val) (hrun : run' = run.withLocals locals)
    (hexit : run.outcome.exit = .next)
    (h : Agrees ⟨rest, frames⟩ run.outcome.state.locals locals) : Like rest frames run run' :=
  ⟨locals, hrun, fun _ => h, fun _ _ hbranch => absurd (hexit.symm.trans hbranch) (by simp)⟩

theorem Like.branch (locals : Ident → Val) {depth : Nat} (hrun : run' = run.withLocals locals)
    (hexit : run.outcome.exit = .branch depth)
    (h : ∀ place, landing frames depth = some place →
      Agrees place run.outcome.state.locals locals) : Like rest frames run run' := by
  refine ⟨locals, hrun, fun hnext => absurd (hexit.symm.trans hnext) (by simp), ?_⟩
  intro number place hbranch hplace
  cases hexit.symm.trans hbranch
  exact h place hplace

theorem Like.stopped (locals : Ident → Val) (hrun : run' = run.withLocals locals)
    (hnext : run.outcome.exit ≠ .next) (hbranch : ∀ depth, run.outcome.exit ≠ .branch depth) :
    Like rest frames run run' :=
  ⟨locals, hrun, fun h => absurd h hnext, fun depth _ h => absurd h (hbranch depth)⟩

theorem Like.andThen {k k' : State Val Rest → Run Val Rest} (h : Like mid frames run run')
    (hk : ∀ state locals, Agrees ⟨mid, frames⟩ state.locals locals →
      Like rest frames (k state) (k' (withLocals state locals))) :
    Like rest frames (run.andThen k) (run'.andThen k') := by
  obtain ⟨locals, rfl, hnext, hbranch⟩ := h
  unfold Run.andThen
  by_cases hexit : run.outcome.exit = .next
  · obtain ⟨locals', hrun, hnext', hbranch'⟩ := hk run.outcome.state locals (hnext hexit)
    rw [if_pos hexit, if_pos (show (run.withLocals locals).outcome.exit = .next from hexit)]
    refine ⟨locals', ?_, hnext', hbranch'⟩
    rw [show (run.withLocals locals).outcome.state = withLocals run.outcome.state locals from rfl,
      hrun]
    rfl
  · rw [if_neg hexit, if_neg (show ¬ (run.withLocals locals).outcome.exit = .next from hexit)]
    exact ⟨locals, rfl, fun h => absurd h hexit, hbranch⟩

/-- Leaving a label: from its end and from a branch to it alike, control goes on after. -/
theorem Like.leave {frame : Frame} (arity : Nat) (outer : List Val)
    (h : Like .done (frame :: frames) run run')
    (hlanding : run.outcome.exit = .branch 0 →
      landing (frame :: frames) 0 = some ⟨frame.rest, frames⟩) :
    Like frame.rest frames (run.leave arity outer) (run'.leave arity outer) := by
  obtain ⟨locals, rfl, hnext, hbranch⟩ := h
  refine ⟨locals, ?_, ?_, ?_⟩
  · rcases run with ⟨⟨exit, state⟩, reads⟩
    cases exit with
    | branch depth => cases depth <;> rfl
    | _ => rfl
  · intro hexit
    rcases run with ⟨⟨exit, state⟩, reads⟩
    cases exit with
    | next => exact (hnext rfl).done
    | branch depth =>
      cases depth with
      | zero => exact hbranch 0 _ rfl (hlanding rfl)
      | succ depth => cases hexit
    | _ => cases hexit
  · intro depth place hexit hplace
    rcases run with ⟨⟨exit, state⟩, reads⟩
    cases exit with
    | branch number =>
      cases number with
      | zero => cases hexit
      | succ number =>
        cases hexit
        exact hbranch (depth + 1) place rfl (by rwa [landing_cons_succ])
    | _ => cases hexit

theorem turns_exit {body : State Val Rest → Run Val Rest} : ∀ (fuel : Nat)
    (state : State Val Rest), (turns body fuel state).outcome.exit ≠ .branch 0
  | 0, _ => by
    rw [turns]
    exact fun h => by cases h
  | fuel + 1, state => by
    rw [turns]
    split
    · exact turns_exit fuel _
    case isFalse h => exact h

/-- The turns of a loop, from its head on. -/
theorem like_turns {body : Code} {frame : Frame} {k k' : State Val Rest → Run Val Rest}
    (hlanding : landing (frame :: frames) 0 = some ⟨body, frame :: frames⟩)
    (hk : ∀ state locals, Agrees ⟨body, frame :: frames⟩ state.locals locals →
      Like .done (frame :: frames) (k state) (k' (withLocals state locals))) :
    ∀ (fuel : Nat) (state : State Val Rest) (locals : Ident → Val),
      Agrees ⟨body, frame :: frames⟩ state.locals locals →
        Like .done (frame :: frames) (turns k fuel state) (turns k' fuel (withLocals state locals))
  | 0, state, locals, _ => by
    refine ⟨locals, rfl, ?_, ?_⟩
    · intro h
      cases h
    · intro depth place h
      cases h
  | fuel + 1, state, locals, h => by
    obtain ⟨locals', hrun, hnext, hbranch⟩ := hk { state with stack := [] } locals h
    have hsame : k' { withLocals state locals with stack := [] } =
        (k { state with stack := [] }).withLocals locals' := hrun
    rw [turns, turns, hsame]
    by_cases hexit : (k { state with stack := [] }).outcome.exit = .branch 0
    · rw [if_pos hexit, if_pos (show ((k { state with stack := [] }).withLocals
        locals').outcome.exit = .branch 0 from hexit)]
      obtain ⟨locals'', hturns, hnext', hbranch'⟩ := like_turns hlanding hk fuel
        (k { state with stack := [] }).outcome.state locals' (hbranch 0 _ hexit hlanding)
      refine ⟨locals'', ?_, hnext', hbranch'⟩
      rw [show ((k { state with stack := [] }).withLocals locals').outcome.state =
        withLocals (k { state with stack := [] }).outcome.state locals' from rfl, hturns]
      rfl
    · rw [if_neg hexit, if_neg (show ¬ ((k { state with stack := [] }).withLocals
        locals').outcome.exit = .branch 0 from hexit)]
      exact ⟨locals', rfl, hnext, hbranch⟩

/-- A step that neither looks at the locals nor branches. -/
def Free (step : State Val Rest → Outcome Val Rest) : Prop :=
  ∀ state locals, step (withLocals state locals) =
      ⟨(step state).exit, withLocals (step state).state locals⟩ ∧
    (step state).state.locals = state.locals ∧ ∀ depth, (step state).exit ≠ .branch depth

theorem free_next : Free fun state : State Val Rest => ⟨.next, state⟩ :=
  fun _ _ => ⟨rfl, rfl, fun _ h => by cases h⟩

theorem Free.pop {k : Val → State Val Rest → Outcome Val Rest} (h : ∀ value, Free (k value)) :
    Free fun state => state.pop k := by
  rintro ⟨locals, _ | ⟨value, stack⟩, store⟩ locals'
  · exact ⟨rfl, rfl, fun _ h => by cases h⟩
  · exact h value ⟨locals, stack, store⟩ locals'

theorem free_applyOp (machine : Machine Op Val Rest) (op : Op) :
    Free fun state => state.applyOp machine op := by
  intro state locals
  simp only [State.applyOp, withLocals]
  cases machine.apply op state.stack state.store with
  | none => exact ⟨rfl, rfl, fun _ h => by cases h⟩
  | some result => exact ⟨rfl, rfl, fun _ h => by cases h⟩

theorem free_getField (machine : Machine Op Val Rest) (name : Ident) :
    Free fun state => state.getField machine name := by
  refine Free.pop fun reference state locals => ?_
  simp only [withLocals]
  cases machine.address reference with
  | none => exact ⟨rfl, rfl, fun _ h => by cases h⟩
  | some address =>
    dsimp only
    cases state.store.field address name with
    | none => exact ⟨rfl, rfl, fun _ h => by cases h⟩
    | some value => exact ⟨rfl, rfl, fun _ h => by cases h⟩

theorem free_putField (machine : Machine Op Val Rest) (name : Ident) :
    Free fun state => state.putField machine name := by
  refine Free.pop fun value => Free.pop fun reference state locals => ?_
  simp only [withLocals]
  cases machine.address reference with
  | none => exact ⟨rfl, rfl, fun _ h => by cases h⟩
  | some address =>
    dsimp only
    cases state.store.field address name with
    | none => exact ⟨rfl, rfl, fun _ h => by cases h⟩
    | some value => exact ⟨rfl, rfl, fun _ h => by cases h⟩

theorem Free.like {step : State Val Rest → Outcome Val Rest} (h : Free step)
    (hagree : Agrees ⟨rest, frames⟩ state.locals locals) (reads : List (Ident × Val)) :
    Like rest frames ⟨step state, reads⟩ ⟨step (withLocals state locals), reads⟩ := by
  obtain ⟨hsame, hkept, hexit⟩ := h state locals
  refine ⟨locals, by rw [hsame]; rfl, fun _ => ?_,
    fun depth _ hbranch => absurd hbranch (hexit depth)⟩
  rw [hkept]
  exact hagree

/-- A call comes back, traps or runs out of fuel; it never branches in its caller. -/
def Returns (call : Caller Val Rest) : Prop :=
  ∀ funcId stack store depth, (call funcId stack store).1 ≠ .branch depth

theorem free_invoke (hcall : Returns call) (funcId : Nat) :
    Free fun state => state.invoke call funcId :=
  fun state _ => ⟨rfl, rfl, hcall funcId state.stack state.store⟩

theorem free_invokeRef (hcall : Returns call) (funcId : Option Nat) :
    Free fun state => state.invokeRef call funcId := by
  cases funcId with
  | none => exact fun _ _ => ⟨rfl, rfl, fun _ h => by cases h⟩
  | some funcId => exact free_invoke hcall funcId

/-- A bind writes the same values whatever the locals. -/
theorem bindAll_like : ∀ (targets : List (Option Ident)) (state : State Val Rest)
    (locals : Ident → Val), ∃ locals', State.bindAll targets (withLocals state locals) =
        ⟨(State.bindAll targets state).exit,
          withLocals (State.bindAll targets state).state locals'⟩ ∧
      (∀ depth, (State.bindAll targets state).exit ≠ .branch depth) ∧
      ((State.bindAll targets state).exit = .next → ∀ x,
        x ∈ targets.filterMap (·) ∨ state.locals x = locals x →
          (State.bindAll targets state).state.locals x = locals' x)
  | [], state, locals => by
    refine ⟨locals, rfl, fun depth => Exit.noConfusion, ?_⟩
    rintro - x (hx | hx)
    · cases hx
    · exact hx
  | target :: targets, ⟨before, [], store⟩, locals => by
    refine ⟨locals, ?_, ?_, ?_⟩
    · cases target <;> rfl
    · intro depth h
      cases target <;> cases h
    · intro h
      cases target <;> cases h
  | none :: targets, ⟨before, value :: stack, store⟩, locals =>
    bindAll_like targets ⟨before, stack, store⟩ locals
  | some name :: targets, ⟨before, value :: stack, store⟩, locals => by
    obtain ⟨locals', hrun, hexit, hsame⟩ := bindAll_like targets
      (State.assign ⟨before, stack, store⟩ name value) (Function.update locals name value)
    refine ⟨locals', hrun, hexit, fun hnext x hx => hsame hnext x ?_⟩
    by_cases hname : x = name
    · refine Or.inr ?_
      show Function.update before name value x = Function.update locals name value x
      rw [hname, Function.update_self, Function.update_self]
    · rcases hx with hx | hx
      · have hlater : x = name ∨ x ∈ targets.filterMap (·) := mem_cons.mp hx
        exact Or.inl (hlater.resolve_left hname)
      · refine Or.inr ?_
        exact (Function.update_of_ne hname _ _).trans
          (hx.trans (Function.update_of_ne hname _ _).symm)

/-- The instructions whose own step is of the stack and the store alone. -/
def HeadFree : Head Op Ty → Prop
  | .localGet _ _ | .localSet _ | .localTee _ | .multiValueLocalBind _ => False
  | .br _ | .brIf _ | .brTable _ _ | .ret | .unreachable => False
  | _ => True

theorem free_step (hcall : Returns call) (dropped : Bool) (hhead : HeadFree head) :
    Free (head.step machine call dropped) := by
  cases head with
  | localGet | localSet | localTee | multiValueLocalBind => cases hhead
  | br | brIf | brTable | ret | unreachable => cases hhead
  | structGet => exact free_getField machine _
  | structSet => exact free_putField machine _
  | declareLocal | nop | rare | blackBox | branchHint | seq => exact free_next
  | drop =>
    cases dropped with
    | true => exact Free.pop fun _ => free_next
    | false => exact free_next
  | call funcId => exact free_invoke hcall funcId
  | callIndirect typeId table =>
    have hstep : ∀ value, Free fun state : State Val Rest =>
        state.invokeRef call (machine.tableEntry table value state.store) :=
      fun value state => free_invokeRef hcall (machine.tableEntry table value state.store) state
    exact Free.pop hstep
  | callRef => exact Free.pop fun value => free_invokeRef hcall (machine.funcRef value)
  | op operation => exact free_applyOp machine operation

/-- No store of these whose write is removed writes a local that is read after. -/
def Unread (dead : List Nat) (stores : List (Store × Place)) : Prop :=
  ∀ name id after, (Store.one name id, after) ∈ stores → id ∈ dead → ¬ Live name after

variable {locals locals' : Ident → Val}

theorem agrees_assign {value : Val}
    (h : Agrees ⟨.store (.one name id) rest, frames⟩ locals locals') :
    Agrees ⟨rest, frames⟩ (Function.update locals name value)
      (Function.update locals' name value) := by
  intro x hx
  by_cases hname : x = name
  · rw [hname, Function.update_self, Function.update_self]
  · rw [Function.update_of_ne hname, Function.update_of_ne hname]
    exact h x (.step (fun hw => hname (Finset.mem_singleton.mp hw)) (mem_singleton.mpr rfl) hx)

theorem agrees_skip {value : Val} (hdead : ¬ Live name ⟨rest, frames⟩)
    (h : Agrees ⟨.store (.one name id) rest, frames⟩ locals locals') :
    Agrees ⟨rest, frames⟩ (Function.update locals name value) locals' := by
  intro x hx
  have hname : x ≠ name := fun heq => hdead (heq ▸ hx)
  rw [Function.update_of_ne hname]
  exact h x (.step (fun hw => hname (Finset.mem_singleton.mp hw)) (mem_singleton.mpr rfl) hx)

theorem getD_mem (targets : List Nat) (default i : Nat) :
    targets.getD i default ∈ targets ++ [default] := by
  by_cases hi : i < targets.length
  · rw [getD_eq_getElem?_getD, List.getElem?_eq_getElem hi, getD_some]
    exact mem_append_left _ (getElem_mem hi)
  · rw [getD_eq_getElem?_getD, List.getElem?_eq_none (by omega), getD_none]
    exact mem_append_right _ mem_cons_self

/-- An instruction's own step, with its write and without it. -/
theorem like_step (hcall : Returns call) (dropped : Bool) (id : Nat) (head : Head Op Ty)
    (hagree : Agrees ⟨headCode id head rest, frames⟩ state.locals locals)
    (hdead : Unread dead ((headCode id head rest).stores frames)) :
    Like rest frames ⟨head.step machine call dropped state, headReads head state⟩
      ⟨stepWithout machine call dropped (id ∈ dead) head (withLocals state locals),
        headReads head (withLocals state locals)⟩ := by
  have hkeep : (∀ name, head ≠ .localSet name) → (∀ name, head ≠ .localTee name) →
      stepWithout machine call dropped (id ∈ dead) head (withLocals state locals) =
        head.step machine call dropped (withLocals state locals) := by
    intro hset htee
    unfold stepWithout
    split
    · cases head with
      | localSet name => cases hset name rfl
      | localTee name => cases htee name rfl
      | _ => rfl
    · rfl
  cases head with
  | localSet name =>
    rcases state with ⟨before, _ | ⟨value, stack⟩, store⟩
    · refine Like.stopped locals ?_ (by simp [Head.step, State.pop])
        (by simp [Head.step, State.pop])
      unfold stepWithout
      split <;> rfl
    · by_cases hid : id ∈ dead
      · rw [stepWithout, if_pos hid]
        exact Like.next _ rfl rfl
          (agrees_skip (hdead name id _ mem_cons_self hid) hagree)
      · rw [stepWithout_kept hid]
        exact Like.next _ rfl rfl (agrees_assign hagree)
  | localTee name =>
    rcases state with ⟨before, _ | ⟨value, stack⟩, store⟩
    · refine Like.stopped locals ?_ (by simp [Head.step, State.pop])
        (by simp [Head.step, State.pop])
      unfold stepWithout
      split <;> rfl
    · by_cases hid : id ∈ dead
      · rw [stepWithout, if_pos hid]
        exact Like.next _ rfl rfl
          (agrees_skip (hdead name id _ mem_cons_self hid) hagree)
      · rw [stepWithout_kept hid]
        exact Like.next _ rfl rfl (agrees_assign hagree)
  | localGet name ty =>
    rw [hkeep (by simp) (by simp)]
    have hname : state.locals name = locals name := hagree name (.read rfl)
    refine Like.next locals ?_ rfl (hagree.step rfl (mem_singleton.mpr rfl))
    show Run.mk ⟨.next, (withLocals state locals).push (locals name)⟩ [(name, locals name)] = _
    rw [← hname]
    rfl
  | multiValueLocalBind targets =>
    rw [hkeep (by simp) (by simp)]
    obtain ⟨locals', hrun, hexit, hsame⟩ := bindAll_like targets.reverse state locals
    refine ⟨locals', congrArg (fun o => Run.mk o []) hrun, fun hnext x hx => hsame hnext x ?_,
      fun depth _ h => absurd h (hexit depth)⟩
    have hmem : x ∈ targets.reverse.filterMap (·) ↔ x ∈ targets.filterMap (·) := by simp
    rw [hmem]
    simp only [headCode] at hagree
    split at hagree
    · exact Or.inr (hagree x hx)
    · by_cases hbound : x ∈ targets.filterMap (·)
      · exact Or.inl hbound
      · refine Or.inr (hagree x (.step ?_ (mem_singleton.mpr rfl) hx))
        exact fun hw => hbound (mem_toFinset.mp hw)
  | br depth =>
    rw [hkeep (by simp) (by simp)]
    exact Like.branch locals rfl rfl fun place hplace =>
      hagree.step rfl (mem_toList.mpr hplace)
  | brIf depth =>
    rw [hkeep (by simp) (by simp)]
    rcases state with ⟨before, _ | ⟨value, stack⟩, store⟩
    · exact Like.stopped locals rfl (by simp [Head.step, State.pop])
        (by simp [Head.step, State.pop])
    · have hstep : ∀ locals', (Head.brIf depth : Head Op Ty).step machine call dropped
          (⟨locals', value :: stack, store⟩ : State Val Rest) =
            if machine.nonzero value then ⟨.branch depth, ⟨locals', stack, store⟩⟩
            else ⟨.next, ⟨locals', stack, store⟩⟩ := fun _ => rfl
      rw [hstep, withLocals, hstep]
      cases machine.nonzero value with
      | true =>
        exact Like.branch locals rfl rfl fun place hplace =>
          hagree.step rfl (mem_cons_of_mem _ (mem_toList.mpr hplace))
      | false => exact Like.next _ rfl rfl (hagree.step rfl mem_cons_self)
  | brTable targets default =>
    rw [hkeep (by simp) (by simp)]
    rcases state with ⟨before, _ | ⟨value, stack⟩, store⟩
    · exact Like.stopped locals rfl (by simp [Head.step, State.pop])
        (by simp [Head.step, State.pop])
    · refine Like.branch locals rfl rfl fun place hplace =>
        hagree.step rfl (mem_filterMap.mpr ⟨_, ?_, hplace⟩)
      exact getD_mem targets default _
  | ret | unreachable =>
    rw [hkeep (by simp) (by simp)]
    exact Like.stopped locals rfl (by simp [Head.step]) (by simp [Head.step])
  | _ =>
    rw [hkeep (by simp) (by simp)]
    exact Free.like (free_step hcall dropped (by exact trivial)) hagree []

end Like

variable {frames : List Frame}

theorem stores_headCode {rest : Code} :
    ∀ entry ∈ rest.stores frames, entry ∈ (headCode id head rest).stores frames := by
  intro entry h
  cases head with
  | localSet | localTee => exact mem_cons_of_mem _ h
  | multiValueLocalBind locals =>
    simp only [headCode]
    split
    · exact h
    · exact mem_cons_of_mem _ h
  | _ => exact h

mutual

/-- The stores of the code after an instruction are among those of both. -/
theorem stores_codeOf : ∀ (instr : WirInstr Op Ty) {id : Nat} {rest : Code}
    {frames : List Frame}, ∀ entry ∈ rest.stores frames,
      entry ∈ (codeOf id instr rest).stores frames
  | .block _ _, _, _, _, _, h => mem_append_right _ h
  | .loop _, _, _, _, _, h => mem_append_right _ h
  | .ite condition _ _ none, _, _, _, _, h =>
    stores_codeOf condition _ (mem_append_right _ h)
  | .ite condition _ _ (some _), _, _, _, _, h =>
    stores_codeOf condition _ (mem_append_right _ (mem_append_right _ h))
  | .node _ operands, _, _, _, _, h => stores_codeOfAll operands _ (stores_headCode _ h)

theorem stores_codeOfAll : ∀ (instrs : List (WirInstr Op Ty)) {id : Nat} {rest : Code}
    {frames : List Frame}, ∀ entry ∈ rest.stores frames,
      entry ∈ (codeOfAll id instrs rest).stores frames
  | [], _, _, _, _, h => h
  | instr :: instrs, _, _, _, _, h => stores_codeOf instr _ (stores_codeOfAll instrs _ h)

end

section Simulation

variable {machine : Machine Op Val Rest} {call : Caller Val Rest} {fuel : Nat} {dead : List Nat}

/-- An arm of an `if`, from its start to what follows the `if`. -/
theorem like_pop {rest code : Code} {k k' : Val → State Val Rest → Run Val Rest}
    (hagree : Agrees ⟨code, frames⟩ state.locals locals)
    (hk : ∀ value state locals, Agrees ⟨code, frames⟩ state.locals locals →
      Like rest frames (k value state) (k' value (withLocals state locals))) :
    Like rest frames (pop state k) (pop (withLocals state locals) k') := by
  rcases state with ⟨before, _ | ⟨value, stack⟩, store⟩
  · exact Like.stopped locals rfl (by simp [pop]) (by simp [pop])
  · exact hk value ⟨before, stack, store⟩ locals hagree

mutual

/-- An instruction's run without the writes that are not read after. -/
theorem like_runWithout (hcall : Returns call) : ∀ (instr : WirInstr Op Ty) (id : Nat)
    {rest : Code} {frames : List Frame} {state : State Val Rest} {locals : Ident → Val},
    Unread dead ((codeOf id instr rest).stores frames) →
    Agrees ⟨codeOf id instr rest, frames⟩ state.locals locals →
      Like rest frames (runWithout [] machine call fuel id instr state)
        (runWithout dead machine call fuel id instr (withLocals state locals))
  | .block result body, id, rest, frames, state, locals, hdead, hagree => by
    have hbody := @like_runAllWithout hcall body (id + 1) .done (.block rest :: frames)
      { state with stack := [] } locals
      (fun name number after h => hdead name number after (mem_append_left _ h))
      (hagree.step rfl (mem_singleton.mpr rfl))
    rw [runWithout, runWithout]
    exact hbody.leave result.toList.length state.stack fun _ => rfl
  | .loop body, id, rest, frames, state, locals, hdead, hagree => by
    have hturns := @like_turns Val Rest frames _
      (.loop (codeOfAll (id + 1) body .done) rest) _ _ rfl
      (fun state locals h => @like_runAllWithout hcall body (id + 1) .done _ state locals
        (fun name number after h => hdead name number after (mem_append_left _ h)) h)
      fuel state locals (hagree.step rfl (mem_singleton.mpr rfl))
    rw [runWithout, runWithout]
    exact hturns.leave 0 state.stack fun h => absurd h (turns_exit fuel state)
  | .ite condition result thenBody none, id, rest, frames, state, locals, hdead, hagree => by
    rw [runWithout, runWithout]
    refine (@like_runWithout hcall condition (id + 1) _ _ _ _ hdead hagree).andThen ?_
    intro state locals hagree
    refine like_pop hagree ?_
    intro value state locals hagree
    have hinside : Unread dead
        ((Code.ifThen (codeOfAll (id + 1 + nodes condition) thenBody .done) rest).stores
          frames) :=
      fun name number after h => hdead name number after (stores_codeOf condition _ h)
    cases machine.nonzero value with
    | true =>
      have hthen := @like_runAllWithout hcall thenBody (id + 1 + nodes condition) .done
        (.block rest :: frames) { state with stack := [] } locals
        (fun name number after h => hinside name number after (mem_append_left _ h))
        (hagree.step rfl mem_cons_self)
      exact hthen.leave result.toList.length state.stack fun _ => rfl
    | false =>
      refine Like.next locals ?_ rfl
        (hagree.step rfl (mem_cons_of_mem _ mem_cons_self))
      rfl
  | .ite condition result thenBody (some elseBody), id, rest, frames, state, locals, hdead,
      hagree => by
    rw [runWithout, runWithout]
    refine (@like_runWithout hcall condition (id + 1) _ _ _ _ hdead hagree).andThen ?_
    intro state locals hagree
    refine like_pop hagree ?_
    intro value state locals hagree
    have hinside : Unread dead
        ((Code.ifElse (codeOfAll (id + 1 + nodes condition) thenBody .done)
          (codeOfAll (id + 1 + nodes condition + nodesAll thenBody) elseBody .done)
            rest).stores frames) :=
      fun name number after h => hdead name number after (stores_codeOf condition _ h)
    cases machine.nonzero value with
    | true =>
      have hthen := @like_runAllWithout hcall thenBody (id + 1 + nodes condition) .done
        (.block rest :: frames) { state with stack := [] } locals
        (fun name number after h => hinside name number after (mem_append_left _ h))
        (hagree.step rfl mem_cons_self)
      exact hthen.leave result.toList.length state.stack fun _ => rfl
    | false =>
      have helse := @like_runAllWithout hcall elseBody
        (id + 1 + nodes condition + nodesAll thenBody) .done
        (.block rest :: frames) { state with stack := [] } locals
        (fun name number after h => hinside name number after
          (mem_append_right _ (mem_append_left _ h)))
        (hagree.step rfl (mem_cons_of_mem _ mem_cons_self))
      exact helse.leave result.toList.length state.stack fun _ => rfl
  | .node head operands, id, rest, frames, state, locals, hdead, hagree => by
    rw [runWithout, runWithout]
    refine (@like_runAllWithout hcall operands (id + 1) _ _ _ _ hdead hagree).andThen ?_
    intro state locals hagree
    rw [stepWithout_kept not_mem_nil]
    exact like_step hcall (!seqAlwaysDiverges operands) id head hagree
      (fun name number after h => hdead name number after (stores_codeOfAll operands _ h))

theorem like_runAllWithout (hcall : Returns call) : ∀ (instrs : List (WirInstr Op Ty)) (id : Nat)
    {rest : Code} {frames : List Frame} {state : State Val Rest} {locals : Ident → Val},
    Unread dead ((codeOfAll id instrs rest).stores frames) →
    Agrees ⟨codeOfAll id instrs rest, frames⟩ state.locals locals →
      Like rest frames (runAllWithout [] machine call fuel id instrs state)
        (runAllWithout dead machine call fuel id instrs (withLocals state locals))
  | [], id, rest, frames, state, locals, hdead, hagree => Like.next locals rfl rfl hagree
  | instr :: instrs, id, rest, frames, state, locals, hdead, hagree => by
    rw [runAllWithout, runAllWithout]
    refine (@like_runWithout hcall instr id _ _ _ _ hdead hagree).andThen ?_
    intro state locals hagree
    exact @like_runAllWithout hcall instrs (id + nodes instr) _ _ _ _
      (fun name number after h => hdead name number after (stores_codeOf instr _ h)) hagree

end

end Simulation

/-- Every call of a module's function comes back, traps or runs out of fuel. -/
theorem returns_run (machine : Machine Op Val Rest) (package : WirPackage Op Ty) :
    ∀ fuel, Returns (package.run machine fuel)
  | 0, _, _, _, _ => by
    rw [WirPackage.run]
    exact Exit.noConfusion
  | fuel + 1, index, stack, store, depth => by
    have hhost : (machine.hostCall index stack store).1 ≠ .branch depth := by
      unfold Machine.hostCall
      split <;> exact Exit.noConfusion
    rw [WirPackage.run]
    split
    · exact hhost
    · split
      · exact hhost
      · split
        · exact Exit.noConfusion
        · unfold Outcome.finish
          split <;> exact Exit.noConfusion

section Result

variable (body : List (WirInstr Op Ty))

/-- A store of one local the pass finds dead or keeps, as paths to reads have it. -/
theorem mem_dead (hdead : ∀ id, id ∈ dead ↔ FoundIn (bodyStores body) id)
    {after : Place} (hstore : (Store.one name id, after) ∈ bodyStores body) :
    id ∈ dead ↔ ¬ Live name after := by
  rw [hdead]
  constructor
  · rintro ⟨other, place, hother, hnot⟩
    obtain ⟨rfl, rfl⟩ := bodyStores_unique hstore hother
    exact hnot
  · exact fun hnot => ⟨name, after, hstore, hnot⟩

/-- The pass over a body ends with one answer.  Removing the stores it finds leaves
every read, effect and result of a run as it was, and each store of one local that it
keeps has a path to a read of the local. -/
theorem deadStores_exact : ∃ dead, (∃ fuel, deadStores fuel body = some dead) ∧
    (∀ fuel other, deadStores fuel body = some other → other = dead) ∧
    (∀ (Val Rest : Type) (machine : Machine Op Val Rest) (package : WirPackage Op Ty)
      (fuel : Nat) (state : State Val Rest),
      (runAllWithout [] machine (package.run machine fuel) fuel 0 body state).outcome =
          WirInstr.evalAll machine (package.run machine fuel) fuel body state ∧
        (runAllWithout dead machine (package.run machine fuel) fuel 0 body state).Same
          (runAllWithout [] machine (package.run machine fuel) fuel 0 body state)) ∧
    ∀ name id after, (Store.one name id, after) ∈ bodyStores body →
      (id ∈ dead ↔ ¬ Live name after) := by
  obtain ⟨fuel, dead, hfuel, hdead⟩ := deadStores_found body
  refine ⟨dead, ⟨fuel, hfuel⟩, fun _ _ h => deadStores_unique body h hfuel, ?_,
    fun _ _ _ => mem_dead body hdead⟩
  intro Val Rest machine package fuel state
  have hunread : Unread dead ((codeOfAll 0 body .done).stores []) :=
    fun name id after hstore hid => (mem_dead body hdead hstore).mp hid
  obtain ⟨locals, hrun, -⟩ := @like_runAllWithout Op Ty Val Rest machine
    (package.run machine fuel) fuel dead (returns_run machine package fuel) body 0 .done [] state
    state.locals hunread (fun _ _ => rfl)
  have hsame : runAllWithout dead machine (package.run machine fuel) fuel 0 body state =
      (runAllWithout [] machine (package.run machine fuel) fuel 0 body state).withLocals locals :=
    hrun
  refine ⟨runAllWithout_nil body 0 state, ?_⟩
  rw [hsame]
  exact ⟨rfl, rfl, rfl, rfl⟩

/-- A bind of several values is no store of one local: the pass never finds it dead,
though here no path reads what it writes. -/
theorem deadStores_keeps_bind :
    deadStores 3 [(.node (.multiValueLocalBind [some ['x']]) [] : WirInstr Unit Unit)] = some [] ∧
      (Store.bind [['x']], ⟨.done, []⟩) ∈
        bodyStores [(.node (.multiValueLocalBind [some ['x']]) [] : WirInstr Unit Unit)] ∧
      ¬ Live ['x'] ⟨.done, []⟩ := by
  refine ⟨by decide, List.mem_cons_self, ?_⟩
  rintro (hread | ⟨-, hnext, -⟩)
  · cases hread
  · cases hnext

end Result

end Wado.Wir.Liveness
