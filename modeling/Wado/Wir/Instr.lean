/-
The instructions of the Wasm IR, as the passes over it see them: three forms
with bodies under a label, and every other instruction as its immediate data
over its operands in the order they are evaluated.
-/
import Wado.ChaoticIteration
import Mathlib.Data.List.Dedup

namespace Wado.Wir

abbrev Ident := List Char

/-- Stated once, for each test of a name in a list. -/
instance : LawfulBEq Ident := inferInstance

/-- What a marker states. -/
inductive Mark
  | coldPath
  | unlikely
  | cold
deriving DecidableEq

/-- The two halves a marker may state. -/
inductive Rarity
  | cold
  | unlikely
deriving DecidableEq

def Mark.states : Mark → Rarity → Bool
  | .coldPath, _ => true
  | .unlikely, rarity => rarity = .unlikely
  | .cold, rarity => rarity = .cold

/-- What an instruction carries besides its operands.  `op` stands for the
instructions that touch no local, no struct field, no label and no function:
constants, arithmetic, allocation, casts, globals, arrays, memory, tables. -/
inductive Head (Op Ty : Type)
  | declareLocal (name : Ident) (ty : Ty)
  | localGet (name : Ident) (resultTy : Ty)
  | localSet (name : Ident)
  | localTee (name : Ident)
  | structGet (typeId : Nat) (fieldName : Ident) (resultTy : Ty)
  | structSet (typeId : Nat) (fieldName : Ident)
  | br (depth : Nat)
  | brIf (depth : Nat)
  | brTable (targets : List Nat) (default : Nat)
  | ret
  | unreachable
  | nop
  | rare (mark : Mark)
  | blackBox
  | branchHint (likely : Bool)
  | drop
  | call (funcId : Nat)
  | callIndirect (typeId table : Nat)
  | callRef (typeId : Nat)
  | multiValueLocalBind (locals : List (Option Ident))
  | seq
  | op (op : Op)
deriving DecidableEq

/-- An instruction; an operand list is in evaluation order, the order code
generation emits it. -/
inductive WirInstr (Op Ty : Type)
  | block (result : Option Ty) (body : List (WirInstr Op Ty))
  | loop (body : List (WirInstr Op Ty))
  | ite (condition : WirInstr Op Ty) (result : Option Ty) (thenBody : List (WirInstr Op Ty))
      (elseBody : Option (List (WirInstr Op Ty)))
  | node (head : Head Op Ty) (operands : List (WirInstr Op Ty))

variable {Op Ty : Type}

namespace Head

/-- The locals an instruction itself writes, its operands aside. -/
def localWrites : Head Op Ty → List Ident
  | .localSet name => [name]
  | .localTee name => [name]
  | .multiValueLocalBind locals => locals.filterMap id
  | _ => []

/-- The locals an instruction itself names, its operands aside. -/
def localNames : Head Op Ty → List Ident
  | .declareLocal name _ => [name]
  | .localGet name _ => [name]
  | head => head.localWrites

/-- The labels an instruction may branch to, by depth. -/
def targets : Head Op Ty → List Nat
  | .br depth => [depth]
  | .brIf depth => [depth]
  | .brTable targets default => targets ++ [default]
  | _ => []

end Head

namespace WirInstr

mutual

/-- Whether control can leave an instruction other than by falling through,
where `labels` is how many labels a branch out of it crosses before it leaves. -/
def leaves (labels : Nat) : WirInstr Op Ty → Bool
  | .block _ body => leavesAny (labels + 1) body
  | .loop body => leavesAny (labels + 1) body
  | .ite condition _ thenBody elseBody =>
    condition.leaves labels || leavesAny (labels + 1) thenBody || match elseBody with
      | some elseBody => leavesAny (labels + 1) elseBody
      | none => false
  | .node .ret _ => true
  | .node head operands => head.targets.any (labels ≤ ·) || leavesAny labels operands

def leavesAny (labels : Nat) : List (WirInstr Op Ty) → Bool
  | [] => false
  | instr :: rest => instr.leaves labels || leavesAny labels rest

end

attribute [grind =] leaves

mutual

/-- Whether an arm's run reaches a mark that states `rarity` with nothing ahead
of it able to leave, looking into grouping. -/
def isRare (rarity : Rarity) : List (WirInstr Op Ty) → Bool
  | [] => false
  | instr :: rest =>
    instr.startsRare rarity || (!instr.leaves 0 && isRare rarity rest)

def startsRare (rarity : Rarity) : WirInstr Op Ty → Bool
  | .block _ body => isRare rarity body
  | .node .seq body => isRare rarity body
  | .node (.rare mark) _ => mark.states rarity
  | _ => false

end

mutual

/-- The check that every path through an instruction leaves it, which answers
for what a transparent wrapper emits. -/
def alwaysDiverges : WirInstr Op Ty → Bool
  | .ite _ _ thenBody elseBody =>
    seqAlwaysDiverges thenBody &&
      match elseBody with
      | some elseBody => seqAlwaysDiverges elseBody
      | none => false
  | .node (.br _) _ => true
  | .node (.brTable _ _) _ => true
  | .node .ret _ => true
  | .node .unreachable _ => true
  | .node .seq body => seqAlwaysDiverges body
  | .node .drop operands => seqAlwaysDiverges operands
  | .node .blackBox operands => seqAlwaysDiverges operands
  | .node (.branchHint _) operands => seqAlwaysDiverges operands
  | _ => false

def seqAlwaysDiverges : List (WirInstr Op Ty) → Bool
  | [] => false
  | instr :: rest => instr.alwaysDiverges || seqAlwaysDiverges rest

end

attribute [grind =] alwaysDiverges

mutual

/-- Every local an instruction names. -/
def localNames : WirInstr Op Ty → List Ident
  | .block _ body => localNamesAll body
  | .loop body => localNamesAll body
  | .ite condition _ thenBody elseBody =>
    condition.localNames ++ localNamesAll thenBody ++ match elseBody with
      | some elseBody => localNamesAll elseBody
      | none => []
  | .node head operands => head.localNames ++ localNamesAll operands

def localNamesAll : List (WirInstr Op Ty) → List Ident
  | [] => []
  | instr :: rest => instr.localNames ++ localNamesAll rest

end

mutual

/-- The locals declared anywhere in an instruction. -/
def declared : WirInstr Op Ty → List (Ident × Ty)
  | .block _ body => declaredAll body
  | .loop body => declaredAll body
  | .ite condition _ thenBody elseBody =>
    condition.declared ++ declaredAll thenBody ++ match elseBody with
      | some elseBody => declaredAll elseBody
      | none => []
  | .node (.declareLocal name ty) operands => (name, ty) :: declaredAll operands
  | .node _ operands => declaredAll operands

def declaredAll : List (WirInstr Op Ty) → List (Ident × Ty)
  | [] => []
  | instr :: rest => instr.declared ++ declaredAll rest

end

end WirInstr

/-- A function with the arity of its type; an imported one has no body. -/
structure WirFunction (Op Ty : Type) where
  paramNames : List Ident
  results : Nat
  body : Option (List (WirInstr Op Ty))

/-- A module's functions; the indices below the base are imports. -/
structure WirPackage (Op Ty : Type) where
  definedFuncBase : Nat
  functions : List (WirFunction Op Ty)

namespace WirFunction

def declaredLocals (func : WirFunction Op Ty) : List (Ident × Ty) :=
  WirInstr.declaredAll (func.body.getD [])

/-- Every local the body names is a parameter or declared. -/
def LocalsDeclared (func : WirFunction Op Ty) : Prop :=
  ∀ body, func.body = some body → ∀ name ∈ WirInstr.localNamesAll body,
    name ∈ func.paramNames ∨ name ∈ func.declaredLocals.map Prod.fst

end WirFunction

namespace WirPackage

/-- The position of the function an index names, or `none` for an import. -/
def definedFuncPosition (package : WirPackage Op Ty) (index : Nat) : Option Nat :=
  if package.definedFuncBase ≤ index ∧
      index - package.definedFuncBase < package.functions.length then
    some (index - package.definedFuncBase)
  else none

end WirPackage

end Wado.Wir

/-
What a stretch of code may write, and the struct fields each function of a
module may write with the functions it calls.
-/

namespace Wado.Wir

variable {Op Ty : Type}

/-- The struct fields each defined function may write by its position, `none`
where what it writes is unknown. -/
structure CalleeWrites where
  definedFuncBase : Nat
  fields : Nat → Option (List Ident)

/-- The locals and struct fields written, by name, and whether a call may have
written any field. -/
structure Footprint where
  locals : List Ident
  fields : List Ident
  call : Bool

namespace CalleeWrites

/-- The fields the function an index names may write, or `none` if unknown. -/
def of (callees : CalleeWrites) (index : Nat) : Option (List Ident) :=
  if callees.definedFuncBase ≤ index then callees.fields (index - callees.definedFuncBase)
  else none

end CalleeWrites

/-- What an arm consults: nothing in one marked rarely run. -/
def armCallees (arm : List (WirInstr Op Ty)) (callees : Option CalleeWrites) :
    Option CalleeWrites :=
  if WirInstr.isRare .cold arm then none else callees

namespace Footprint

def union (a b : Footprint) : Footprint :=
  ⟨a.locals ++ b.locals, a.fields ++ b.fields, a.call || b.call⟩

/-- What an instruction itself writes, its operands left out. -/
def writesOfNode (callees : Option CalleeWrites) : Head Op Ty → Footprint
  | .call funcId =>
    match callees.bind (·.of funcId) with
    | some fields => ⟨[], fields, false⟩
    | none => ⟨[], [], true⟩
  | .callIndirect _ _ => ⟨[], [], true⟩
  | .callRef _ => ⟨[], [], true⟩
  | .structSet _ fieldName => ⟨[], [fieldName], false⟩
  | head => ⟨head.localWrites, [], false⟩

mutual

/-- What an instruction writes, where a direct call off a cold path to a known
function writes only the fields it names. -/
def writes (callees : Option CalleeWrites) : WirInstr Op Ty → Footprint
  | .block _ body => writesAll callees body
  | .loop body => writesAll callees body
  | .ite condition _ thenBody elseBody =>
    (writes callees condition).union <| (writesAll (armCallees thenBody callees) thenBody).union <|
        match elseBody with
        | some elseBody => writesAll (armCallees elseBody callees) elseBody
        | none => ⟨[], [], false⟩
  | .node head operands => (writesOfNode callees head).union (writesAll callees operands)

def writesAll (callees : Option CalleeWrites) : List (WirInstr Op Ty) → Footprint
  | [] => ⟨[], [], false⟩
  | instr :: rest => (writes callees instr).union (writesAll callees rest)

end

end Footprint

/-- What a function writes by itself, and the positions of what it calls. -/
structure Direct where
  own : Option (List Ident)
  calls : List Nat

namespace Direct

def ofNode (package : WirPackage Op Ty) : Head Op Ty → Direct → Direct
  | .structSet _ fieldName, direct =>
    { direct with own := direct.own.map fun own => own.insert fieldName }
  | .call funcId, direct =>
    match package.definedFuncPosition funcId with
    | some position => { direct with calls := direct.calls ++ [position] }
    | none => { direct with own := none }
  | .callIndirect _ _, direct => { direct with own := none }
  | .callRef _, direct => { direct with own := none }
  | _, direct => direct

mutual

def writes (package : WirPackage Op Ty) : WirInstr Op Ty → Direct → Direct
  | .block _ body, direct => writesAll package body direct
  | .loop body, direct => writesAll package body direct
  | .ite condition _ thenBody elseBody, direct =>
    match elseBody with
    | some elseBody =>
      writesAll package elseBody (writesAll package thenBody (writes package condition direct))
    | none => writesAll package thenBody (writes package condition direct)
  | .node head operands, direct => writesAll package operands (ofNode package head direct)

def writesAll (package : WirPackage Op Ty) : List (WirInstr Op Ty) → Direct → Direct
  | [], direct => direct
  | instr :: rest, direct => writesAll package rest (writes package instr direct)

end

/-- The writes of one function; one with no body may write anything. -/
def ofFunction (package : WirPackage Op Ty) (func : WirFunction Op Ty) : Direct :=
  match func.body with
  | some body => writesAll package body ⟨some [], []⟩
  | none => ⟨none, []⟩

end Direct

namespace CalleeWrites

/-- The fields so far, by position. -/
abbrev Table := Nat → Option (List Ident)

/-- Extend what `f` writes by what each of `calls` writes, and say whether that
changed it. -/
def absorbCalleeWrites (f : Nat) : List Nat → Table → Bool → Table × Bool
  | [], fields, changed => (fields, changed)
  | c :: calls, fields, changed =>
    match fields f with
    | none => (fields, changed)
    | some own =>
      match fields c with
      | none => (Function.update fields f none, true)
      | some written =>
        if written.filter (· ∉ own) = [] then absorbCalleeWrites f calls fields changed
        else
          absorbCalleeWrites f calls
            (Function.update fields f (some (own ++ written.filter (· ∉ own)))) true

section

variable (package : WirPackage Op Ty)

def direct (position : Nat) : Direct :=
  match package.functions[position]? with
  | some func => Direct.ofFunction package func
  | none => ⟨none, []⟩

/-- What each function calls, itself aside. -/
def calls (position : Nat) : List Nat :=
  (direct package position).calls.dedup.filter (· ≠ position)

def callers (position : Nat) : List Nat :=
  (List.range package.functions.length).filter fun f => position ∈ calls package f

def ownFields (position : Nat) : Option (List Ident) :=
  (direct package position).own

/-- Every field some function writes by itself. -/
def named : List Ident :=
  (List.range package.functions.length).flatMap fun f => (ownFields package f).getD []

/-- How much the rows can still change. -/
def potential (fields : Table) : Nat :=
  ((List.range package.functions.length).map fun f =>
    match fields f with
    | none => 0
    | some own => 1 + ((named package).filter (· ∉ own)).length).sum

def everyFunction : Queue where
  pending := (List.range package.functions.length).reverse
  queued := fun f => f < package.functions.length

/-- The writes of every function with those of what it calls, from a queue of
functions to look at again; it empties within the turns given. -/
def ofModule : CalleeWrites where
  definedFuncBase := package.definedFuncBase
  fields :=
    drain (fun f fields => absorbCalleeWrites f (calls package f) fields false) (callers package)
      (package.functions.length +
        potential package (ownFields package) * (package.functions.length + 1))
      (ownFields package) (everyFunction package)

end

end CalleeWrites

end Wado.Wir
