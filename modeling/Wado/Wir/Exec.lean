/-
What the emitted Wasm of a body does: an operand stack, locals, a store whose
struct fields are named, and branches to labels by depth.  Fuel bounds calls and
loop turns only, so two bodies with the same calls and loops spend it alike.
-/
import Wado.Wir.Instr

namespace Wado.Wir

/-- The struct objects by address and field name, and everything else that
outlives a call: arrays, globals, memory, tables and the host. -/
structure Store (Val Rest : Type) where
  field : Nat → Ident → Option Val
  rest : Rest

variable {Op Ty Val Rest : Type}

namespace Store

def setField (store : Store Val Rest) (address : Nat) (name : Ident) (value : Val) :
    Store Val Rest :=
  { store with
    field := Function.update store.field address
      (Function.update (store.field address) name (some value)) }

/-- A later store in which no object's field of this name has changed. -/
def Kept (name : Ident) (before after : Store Val Rest) : Prop :=
  ∀ address value, before.field address name = some value → after.field address name = some value

end Store

/-- What the IR leaves to Wasm and to the host.  An `op` allocates and writes
whatever it likes, but no field of a struct that is there. -/
structure Machine (Op Val Rest : Type) where
  address : Val → Option Nat
  nonzero : Val → Bool
  toNat : Val → Nat
  initial : Nat → Ident → Val
  apply : Op → List Val → Store Val Rest → Option (List Val × Store Val Rest)
  apply_kept : ∀ op stack store stack' store' name,
    apply op stack store = some (stack', store') → store.Kept name store'
  host : Nat → List Val → Store Val Rest → Option (List Val × Store Val Rest)
  tableEntry : Nat → Val → Store Val Rest → Option Nat
  funcRef : Val → Option Nat

structure State (Val Rest : Type) where
  locals : Ident → Val
  stack : List Val
  store : Store Val Rest

/-- How a stretch of code is left. -/
inductive Exit
  | next
  | branch (depth : Nat)
  | ret
  | trap
  | outOfFuel
deriving DecidableEq

structure Outcome (Val Rest : Type) where
  exit : Exit
  state : State Val Rest

/-- What a call does with the stack and the store of its caller. -/
abbrev Caller (Val Rest : Type) :=
  Nat → List Val → Store Val Rest → Exit × List Val × Store Val Rest

namespace State

def push (state : State Val Rest) (value : Val) : State Val Rest :=
  { state with stack := value :: state.stack }

def assign (state : State Val Rest) (name : Ident) (value : Val) : State Val Rest :=
  { state with locals := Function.update state.locals name value }

/-- Take the top of the stack; validation excludes an empty one. -/
def pop (state : State Val Rest) (k : Val → State Val Rest → Outcome Val Rest) : Outcome Val Rest :=
  match state.stack with
  | [] => ⟨.trap, state⟩
  | value :: stack => k value { state with stack := stack }

/-- Bind the top of the stack to the last target, and so on down. -/
def bindAll : List (Option Ident) → State Val Rest → Outcome Val Rest
  | [], state => ⟨.next, state⟩
  | some name :: targets, state =>
    state.pop fun value state => bindAll targets (state.assign name value)
  | none :: targets, state => state.pop fun _ state => bindAll targets state

def getField (machine : Machine Op Val Rest) (name : Ident) (state : State Val Rest) :
    Outcome Val Rest :=
  state.pop fun reference state =>
    match machine.address reference with
    | none => ⟨.trap, state⟩
    | some address =>
      match state.store.field address name with
      | none => ⟨.trap, state⟩
      | some value => ⟨.next, state.push value⟩

def putField (machine : Machine Op Val Rest) (name : Ident) (state : State Val Rest) :
    Outcome Val Rest :=
  state.pop fun value state => state.pop fun reference state =>
    match machine.address reference with
    | none => ⟨.trap, state⟩
    | some address =>
      match state.store.field address name with
      | none => ⟨.trap, state⟩
      | some _ => ⟨.next, { state with store := state.store.setField address name value }⟩

def applyOp (machine : Machine Op Val Rest) (op : Op) (state : State Val Rest) : Outcome Val Rest :=
  match machine.apply op state.stack state.store with
  | none => ⟨.trap, state⟩
  | some (stack, store) => ⟨.next, { state with stack := stack, store := store }⟩

def invoke (call : Caller Val Rest) (funcId : Nat) (state : State Val Rest) : Outcome Val Rest :=
  ⟨(call funcId state.stack state.store).1, { state with
      stack := (call funcId state.stack state.store).2.1
      store := (call funcId state.stack state.store).2.2 }⟩

def invokeRef (call : Caller Val Rest) (funcId : Option Nat) (state : State Val Rest) :
    Outcome Val Rest :=
  match funcId with
  | none => ⟨.trap, state⟩
  | some funcId => state.invoke call funcId

end State

namespace Outcome

/-- Go on with `k` where control falls through. -/
def andThen (outcome : Outcome Val Rest) (k : State Val Rest → Outcome Val Rest) :
    Outcome Val Rest :=
  if outcome.exit = .next then k outcome.state else outcome

/-- Leave the label that encloses a body entered with `outer` below its own
stack: a branch to it takes the label's results with it. -/
def leave (arity : Nat) (outer : List Val) (outcome : Outcome Val Rest) : Outcome Val Rest :=
  match outcome.exit with
  | .next => ⟨.next, { outcome.state with stack := outcome.state.stack ++ outer }⟩
  | .branch 0 =>
    ⟨.next, { outcome.state with stack := outcome.state.stack.take arity ++ outer }⟩
  | .branch (depth + 1) => ⟨.branch depth, outcome.state⟩
  | _ => outcome

end Outcome

/-- Run a loop's body until it is left otherwise than by a branch to its head. -/
def iterate (body : State Val Rest → Outcome Val Rest) : Nat → State Val Rest → Outcome Val Rest
  | 0, state => ⟨.outOfFuel, state⟩
  | fuel + 1, state =>
    if (body { state with stack := [] }).exit = .branch 0 then
      iterate body fuel (body { state with stack := [] }).state
    else body { state with stack := [] }

/-- What an instruction does once its operands are evaluated. -/
def Head.step (machine : Machine Op Val Rest) (call : Caller Val Rest) (dropped : Bool) :
    Head Op Ty → State Val Rest → Outcome Val Rest
  | .declareLocal _ _, state => ⟨.next, state⟩
  | .localGet name _, state => ⟨.next, state.push (state.locals name)⟩
  | .localSet name, state => state.pop fun value state => ⟨.next, state.assign name value⟩
  | .localTee name, state =>
    state.pop fun value state => ⟨.next, (state.assign name value).push value⟩
  | .structGet _ fieldName _, state => state.getField machine fieldName
  | .structSet _ fieldName, state => state.putField machine fieldName
  | .br depth, state => ⟨.branch depth, state⟩
  | .brIf depth, state => state.pop fun value state =>
    if machine.nonzero value then ⟨.branch depth, state⟩ else ⟨.next, state⟩
  | .brTable targets default, state => state.pop fun value state =>
    ⟨.branch (targets.getD (machine.toNat value) default), state⟩
  | .ret, state => ⟨.ret, state⟩
  | .unreachable, state => ⟨.trap, state⟩
  | .nop, state => ⟨.next, state⟩
  | .rare _, state => ⟨.next, state⟩
  | .blackBox, state => ⟨.next, state⟩
  | .branchHint _, state => ⟨.next, state⟩
  | .drop, state => if dropped then state.pop fun _ state => ⟨.next, state⟩ else ⟨.next, state⟩
  | .call funcId, state => state.invoke call funcId
  | .callIndirect _ table, state => state.pop fun value state =>
    state.invokeRef call (machine.tableEntry table value state.store)
  | .callRef _, state => state.pop fun value state => state.invokeRef call (machine.funcRef value)
  | .multiValueLocalBind locals, state => state.bindAll locals.reverse
  | .seq, state => ⟨.next, state⟩
  | .op operation, state => state.applyOp machine operation

namespace WirInstr

mutual

/-- An instruction's run.  A `drop` is emitted only after an operand that the
check does not call diverging. -/
def eval (machine : Machine Op Val Rest) (call : Caller Val Rest) (fuel : Nat) :
    WirInstr Op Ty → State Val Rest → Outcome Val Rest
  | .block result body, state =>
    (evalAll machine call fuel body { state with stack := [] }).leave
      result.toList.length state.stack
  | .loop body, state =>
    (iterate (evalAll machine call fuel body) fuel state).leave 0 state.stack
  | .ite condition result thenBody elseBody, state =>
    (condition.eval machine call fuel state).andThen fun state =>
      state.pop fun value state =>
        (if machine.nonzero value then
            evalAll machine call fuel thenBody { state with stack := [] }
          else
            match elseBody with
            | some elseBody => evalAll machine call fuel elseBody { state with stack := [] }
            | none => ⟨.next, { state with stack := [] }⟩).leave
          result.toList.length state.stack
  | .node head operands, state =>
    (evalAll machine call fuel operands state).andThen
      (head.step machine call (!seqAlwaysDiverges operands))

def evalAll (machine : Machine Op Val Rest) (call : Caller Val Rest) (fuel : Nat) :
    List (WirInstr Op Ty) → State Val Rest → Outcome Val Rest
  | [], state => ⟨.next, state⟩
  | instr :: rest, state =>
    (instr.eval machine call fuel state).andThen (evalAll machine call fuel rest)

end

end WirInstr

namespace WirFunction

/-- A call's frame: the parameters hold the arguments, the first deepest. -/
def entry (machine : Machine Op Val Rest) (position : Nat) (func : WirFunction Op Ty)
    (stack : List Val) (name : Ident) : Val :=
  ((func.paramNames.zip (stack.take func.paramNames.length).reverse).lookup name).getD
    (machine.initial position name)

end WirFunction

/-- How a body's run ends the call it is the body of: falling off its end and a
branch to the function's own label both return. -/
def Outcome.finish (results : Nat) (outer : List Val) (outcome : Outcome Val Rest) :
    Exit × List Val × Store Val Rest :=
  match outcome.exit with
  | .trap => (.trap, [], outcome.state.store)
  | .outOfFuel => (.outOfFuel, [], outcome.state.store)
  | _ => (.next, outcome.state.stack.take results ++ outer, outcome.state.store)

/-- A call of the host. -/
def Machine.hostCall (machine : Machine Op Val Rest) (index : Nat) (stack : List Val)
    (store : Store Val Rest) : Exit × List Val × Store Val Rest :=
  match machine.host index stack store with
  | none => (.trap, [], store)
  | some (stack, store) => (.next, stack, store)

namespace WirPackage

/-- A call of any function of the module. -/
def run (machine : Machine Op Val Rest) (package : WirPackage Op Ty) : Nat → Caller Val Rest
  | 0, _, _, store => (.outOfFuel, [], store)
  | fuel + 1, index, stack, store =>
    match (package.definedFuncPosition index).bind (package.functions[·]?) with
    | none => machine.hostCall index stack store
    | some func =>
      match func.body with
      | none => machine.hostCall index stack store
      | some body =>
        if stack.length < func.paramNames.length then (.trap, [], store)
        else
          (WirInstr.evalAll machine (package.run machine fuel) fuel body
            { locals := func.entry machine (index - package.definedFuncBase) stack
              stack := []
              store := store }).finish func.results (stack.drop func.paramNames.length)

end WirPackage

end Wado.Wir
