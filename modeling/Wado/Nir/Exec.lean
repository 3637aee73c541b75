/-
Running the arena IR: values, the state of locals and of the rest of the world, and the ways
that a node is left.
-/
import Wado.Nir.Syntax

namespace Wado

namespace Nir

inductive Val (Obj : Type)
  | int (number : Int)
  | bool (truth : Bool)
  | unit
  | obj (object : Obj)
deriving DecidableEq, Repr

structure State (Obj World : Type) where
  locals : Nat → Val Obj
  world : World

/-- How a node is left. -/
inductive Exit
  | next
  | breakTo (label : Option String)
  | continue_
  | returnWith
  | trap
deriving DecidableEq, Repr

structure Outcome (Obj World : Type) where
  exit : Exit
  value : Val Obj
  state : State Obj World

/-- What a body runs on. A call reaches the shared locals and no others. -/
structure Machine (Head Pat Const Obj World : Type) where
  constant : Const → Val Obj
  /-- A local's storage, as `&mut` hands it out. -/
  localRef : Nat → Val Obj
  /-- Equality where no side is an integer. -/
  equal : Val Obj → Val Obj → Val Obj
  project : Head → Val Obj → List (Val Obj) → World → Option (Val Obj)
  store : Head → Val Obj → List (Val Obj) → Val Obj → World → Option World
  op : Head → List (Val Obj) → World → (Nat → Val Obj) → Option (Val Obj × World × (Nat → Val Obj))
  matchOther : Pat → Val Obj → Option (List (Val Obj))
  shared : Nat → Bool

variable {Head Pat Const Obj World : Type}

namespace State

def set (s : State Obj World) (index : Nat) (value : Val Obj) : State Obj World :=
  { s with locals := fun i => if i = index then value else s.locals i }

/-- Bind locals to values in order. -/
def setAll : List Nat → List (Val Obj) → State Obj World → State Obj World
  | index :: indices, value :: values, s => setAll indices values (s.set index value)
  | _, _, s => s

/-- The locals that a call reaches, the others blank. -/
def seen (machine : Machine Head Pat Const Obj World) (s : State Obj World) : Nat → Val Obj :=
  fun i => if machine.shared i then s.locals i else .unit

/-- The state after a call wrote to the locals that it reaches. -/
def afterCall (machine : Machine Head Pat Const Obj World) (s : State Obj World) (world : World)
    (written : Nat → Val Obj) : State Obj World where
  locals := fun i => if machine.shared i then written i else s.locals i
  world := world

end State

namespace Outcome

def next (value : Val Obj) (s : State Obj World) : Outcome Obj World := ⟨.next, value, s⟩

def trap (s : State Obj World) : Outcome Obj World := ⟨.trap, .unit, s⟩

def andThen (outcome : Outcome Obj World) (k : Val Obj → State Obj World → Outcome Obj World) :
    Outcome Obj World :=
  match outcome.exit with
  | .next => k outcome.value outcome.state
  | _ => outcome

/-- A block with a value is left by a `break` that names it, with the value that gives. -/
def leaveBlock (label : Option String) (isUnit : Bool) (outcome : Outcome Obj World) :
    Outcome Obj World :=
  match outcome.exit with
  | .next => next (if isUnit then .unit else outcome.value) outcome.state
  | .breakTo (some named) =>
    if label = some named then next (if isUnit then .unit else outcome.value) outcome.state
    else outcome
  | _ => outcome

/-- A turn of a loop that ends is followed by the next one. -/
def again (outcome : Outcome Obj World) (k : State Obj World → Outcome Obj World) :
    Outcome Obj World :=
  match outcome.exit with
  | .next => k outcome.state
  | .continue_ => k outcome.state
  | .breakTo none => next .unit outcome.state
  | _ => outcome

end Outcome

theorem next_andThen (v : Val Obj) (s : State Obj World)
    (k : Val Obj → State Obj World → Outcome Obj World) : (Outcome.next v s).andThen k = k v s :=
  rfl

theorem andThen_assoc (outcome : Outcome Obj World)
    (k k' : Val Obj → State Obj World → Outcome Obj World) :
    (outcome.andThen k).andThen k' = outcome.andThen fun v s => (k v s).andThen k' := by
  unfold Outcome.andThen
  cases hexit : outcome.exit <;> simp only [hexit]

variable {outcome : Outcome Obj World}

theorem Outcome.andThen_next (h : outcome.exit = .next)
    (k : Val Obj → State Obj World → Outcome Obj World) :
    outcome.andThen k = k outcome.value outcome.state := by
  rw [Outcome.andThen, h]

theorem Outcome.andThen_left (h : outcome.exit ≠ .next)
    (k : Val Obj → State Obj World → Outcome Obj World) : outcome.andThen k = outcome := by
  unfold Outcome.andThen
  split
  next heq => exact absurd heq h
  next => rfl

/-- Equality of two values: integers by number, and no integer is another kind of value. -/
def Machine.equals (machine : Machine Head Pat Const Obj World) : Val Obj → Val Obj → Val Obj
  | .int a, .int b => .bool (a = b)
  | .int _, _ => .bool false
  | _, .int _ => .bool false
  | v, w => machine.equal v w

/-- Match a value, binding the pattern's locals. -/
def Pattern.bind (machine : Machine Head Pat Const Obj World) (v : Val Obj)
    (s : State Obj World) : Pattern Pat → Option (State Obj World)
  | .literal key => match v with
      | .int number => if number = key then some s else none
      | _ => none
  | .wildcard => some s
  | .binding index => some (s.set index v)
  | .other head bindings =>
    (machine.matchOther head v).map fun values => State.setAll bindings values s

/-- A loop, for at most `fuel` turns. -/
def iterate (body : State Obj World → Outcome Obj World) : Nat → State Obj World → Outcome Obj World
  | 0, s => .trap s
  | fuel + 1, s => (body s).again (iterate body fuel)

mutual

/-- Run a node, its loops for at most `fuel` turns each. -/
def eval (machine : Machine Head Pat Const Obj World) (fuel : Nat) :
    Node Head Pat Const → State Obj World → Outcome Obj World
  | .int value, s => .next (.int (value.type.number value.bits)) s
  | .constant value, s => .next (machine.constant value) s
  | .localVar _ index, s => .next (s.locals index) s
  | .eq left right, s =>
    (eval machine fuel left s).andThen fun v s =>
      (eval machine fuel right s).andThen fun w s => .next (machine.equals v w) s
  | .project head inner operands, s =>
    (eval machine fuel inner s).andThen fun v s =>
      evalAll machine fuel operands s fun vs s =>
        match machine.project head v vs s.world with
        | some result => .next result s
        | none => .trap s
  | .mutRef place, s =>
    match place with
    | .localVar false index => .next (machine.localRef index) s
    | place => eval machine fuel place s
  | .assign target value, s =>
    match target with
    | .localVar false index =>
      (eval machine fuel value s).andThen fun v s => .next .unit (s.set index v)
    | .project head inner operands =>
      (eval machine fuel inner s).andThen fun object s =>
        evalAll machine fuel operands s fun vs s =>
          (eval machine fuel value s).andThen fun v s =>
            match machine.store head object vs v s.world with
            | some world => .next .unit { s with world := world }
            | none => .trap s
    | _ => .trap s
  | .op head operands, s =>
    evalAll machine fuel operands s fun vs s =>
      match machine.op head vs s.world (s.seen machine) with
      | some (result, world, written) => .next result (s.afterCall machine world written)
      | none => .trap s
  | .ifElse condition thenBlock elseBlock, s =>
    (eval machine fuel condition s).andThen fun v s =>
      match v with
      | .bool true => evalBlock machine fuel thenBlock .unit s
      | _ => evalBlock machine fuel elseBlock .unit s
  | .ifThen condition thenBlock, s =>
    (eval machine fuel condition s).andThen fun v s =>
      match v with
      | .bool true => (evalBlock machine fuel thenBlock .unit s).andThen fun _ s => .next .unit s
      | _ => .next .unit s
  | .matchOn scrutinee arms, s =>
    (eval machine fuel scrutinee s).andThen fun v s => evalArms machine fuel arms v s
  | .arm _ _ _, s => .trap s
  | .labeled label isUnit block, s => (evalBlock machine fuel block .unit s).leaveBlock label isUnit
  | .loop body, s => iterate (evalBlock machine fuel body .unit) fuel s
  | .letTo _ index value, s =>
    (eval machine fuel value s).andThen fun v s => .next .unit (s.set index v)
  | .letDestructure pattern value, s =>
    (eval machine fuel value s).andThen fun v s =>
      match pattern.bind machine v s with
      | some s => .next .unit s
      | none => .trap s
  | .expr operand, s => eval machine fuel operand s
  | .breakTo label value, s =>
    evalAll machine fuel value s fun vs s => ⟨.breakTo label, vs.headD .unit, s⟩
  | .continue_, s => ⟨.continue_, .unit, s⟩
  | .returnWith value, s =>
    evalAll machine fuel value s fun vs s => ⟨.returnWith, vs.headD .unit, s⟩

/-- Run operands in order and go on with their values. -/
def evalAll (machine : Machine Head Pat Const Obj World) (fuel : Nat) :
    List (Node Head Pat Const) → State Obj World →
      (List (Val Obj) → State Obj World → Outcome Obj World) → Outcome Obj World
  | [], s, k => k [] s
  | node :: rest, s, k =>
    (eval machine fuel node s).andThen fun v s =>
      evalAll machine fuel rest s fun vs s => k (v :: vs) s

/-- Run statements in order, for the value of the last, or `last` where there is none. -/
def evalBlock (machine : Machine Head Pat Const Obj World) (fuel : Nat) :
    List (Node Head Pat Const) → Val Obj → State Obj World → Outcome Obj World
  | [], last, s => .next last s
  | node :: rest, _, s =>
    (eval machine fuel node s).andThen fun v s => evalBlock machine fuel rest v s

/-- Run the first arm whose pattern matches and whose guard holds. -/
def evalArms (machine : Machine Head Pat Const Obj World) (fuel : Nat) :
    List (Node Head Pat Const) → Val Obj → State Obj World → Outcome Obj World
  | [], _, s => .trap s
  | .arm pattern guard body :: rest, v, s =>
    match pattern.bind machine v s with
    | none => evalArms machine fuel rest v s
    | some s => evalAll machine fuel guard s fun vs s =>
      match vs with
      | [] => eval machine fuel body s
      | .bool true :: _ => eval machine fuel body s
      | _ => evalArms machine fuel rest v s
  | _ :: rest, v, s => evalArms machine fuel rest v s

end

end Nir

end Wado

/-
Fusing a run of `if K == x` statements over one local into a match.
-/

namespace Wado

namespace Nir

variable {Head Pat Const : Type}

namespace Node

/-- The local an operand reads: a bare skeleton one, or a promoted one. -/
def operandLocal : Node Head Pat Const → Option Nat
  | .localVar _ index => some index
  | _ => none

/-- An operand's integer constant, widened by its own signedness. -/
def intKey : Node Head Pat Const → Option Int
  | .int value => some (value.type.widen value.bits)
  | _ => none

/-- An `if` without an `else` on an integer constant equal to a local, either way round: the
local, the constant and the arm. -/
def splitGuard : Node Head Pat Const → Option (Nat × Int × List (Node Head Pat Const))
  | .ifThen (.eq lhs rhs) thenBlock =>
    match lhs.operandLocal, rhs.intKey with
    | some index, some key => some (index, key, thenBlock)
    | _, _ => match rhs.operandLocal, lhs.intKey with
      | some index, some key => some (index, key, thenBlock)
      | _, _ => none
  | _ => none

/-- The local an immutable `let` of a constant binds. -/
def constantLet : Node Head Pat Const → Option Nat
  | .letTo false index (.int _) => some index
  | .letTo false index (.constant _) => some index
  | _ => none

end Node

/-- One recognised `if K == x` statement, and where it sits in its block. -/
structure Case (Head Pat Const : Type) where
  position : Nat
  thenBlock : List (Node Head Pat Const)
  key : Int

/-- The block's statement at a position as one of the run's local. -/
def caseAt (stmt : Node Head Pat Const) (position index : Nat) : Option (Case Head Pat Const) := do
  let (found, key, thenBlock) ← stmt.splitGuard
  if found = index then some ⟨position, thenBlock, key⟩ else none

/-- A run of cases as it grows: `finish` is one past the last of them. -/
structure Run (Head Pat Const : Type) where
  cases : List (Case Head Pat Const)
  hoisted : List (Node Head Pat Const)
  pending : List (Node Head Pat Const)
  keys : List Int
  hoistedLocals : List Nat
  finish : Nat

/-- Grow a run over the statements from a position on. -/
def Run.grow (index : Nat) : List (Node Head Pat Const) → Nat → Run Head Pat Const →
    Run Head Pat Const
  | [], _, run => run
  | stmt :: rest, position, run =>
    match caseAt stmt position index with
    | some case =>
      -- a repeated key is an arm the chain runs and a match would not
      if case.key ∈ run.keys then run
      else Run.grow index rest (position + 1)
        { run with
          cases := run.cases ++ [case]
          hoisted := run.hoisted ++ run.pending
          pending := []
          keys := case.key :: run.keys
          finish := position + 1 }
    | none => match stmt.constantLet with
      | some bound =>
        if bound ≠ index ∧ bound ∉ run.hoistedLocals then
          Run.grow index rest (position + 1)
            { run with
              pending := run.pending ++ [stmt]
              hoistedLocals := bound :: run.hoistedLocals }
        else run
      | none => run

/-- The match on a local with an arm for each case, and one for every other value. -/
def buildMatch (index : Nat) (cases : List (Case Head Pat Const)) : Node Head Pat Const :=
  .expr (.matchOn (.localVar false index)
    (cases.map (fun case => .arm (.literal case.key) [] (.labeled none true case.thenBlock)) ++
      [.arm .wildcard [] (.labeled none true [])]))

/-- What the rule answers for a block. -/
inductive Applied (Head Pat Const : Type)
  | unchanged
  | fused (stmts : List (Node Head Pat Const))
  | panics

/-- The first case whose arm writes the local, or where the search panics. -/
def firstWriter (index : Nat) : List (Case Head Pat Const) → Scan × Nat
  | [] => (.clear, 0)
  | case :: rest => match scanAll index case.thenBlock with
      | .clear => firstWriter index rest
      | found => (found, case.position)

/-- Fuse the first run at or past `start`. Each turn of the loop moves `start` on, so as many
turns as there are statements are enough. -/
def applyFrom (addressTaken : Nat → Bool) (stmts : List (Node Head Pat Const)) :
    Nat → Nat → Applied Head Pat Const
  | 0, _ => .unchanged
  | turns + 1, start =>
    match stmts.drop start with
    | [] => .unchanged
    | first :: rest => match first.splitGuard with
      | none => applyFrom addressTaken stmts turns (start + 1)
      | some (index, _, _) =>
        -- an escaped local is one any call an arm makes could write
        if addressTaken index then applyFrom addressTaken stmts turns (start + 1)
        else
          let run := Run.grow index (first :: rest) start ⟨[], [], [], [], [], start⟩
          if run.cases.length < 2 then applyFrom addressTaken stmts turns (start + 1)
          else match firstWriter index run.cases with
            | (.writes, position) => applyFrom addressTaken stmts turns (position + 1)
            | (.panics, _) => .panics
            | (.clear, _) => .fused (stmts.take start ++ run.hoisted ++
                [buildMatch index run.cases] ++ stmts.drop run.finish)

def applyBlock (addressTaken : Nat → Bool) (stmts : List (Node Head Pat Const)) :
    Applied Head Pat Const :=
  applyFrom addressTaken stmts (stmts.length + 1) 0

end Nir

end Wado
