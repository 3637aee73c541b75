/-
Redundant load elimination: a chain of `struct.get`s off a local, read again
where nothing between could have changed it, reuses the first read through a temp.
-/
import Wado.Wir.Instr

namespace Wado.Wir

variable {Op Ty : Type}

/-- A field chain read off a local: the root, then the fields, outermost last. -/
structure Key where
  root : Ident
  fields : List (Nat × Ident)
deriving DecidableEq

namespace Key

def chain : WirInstr Op Ty → Option Key
  | .node (.structGet typeId fieldName _) [expr] =>
    (chain expr).map fun key => { key with fields := key.fields ++ [(typeId, fieldName)] }
  | .node (.localGet name _) [] => some ⟨name, []⟩
  | _ => none

/-- The chain an instruction reads, which has at least one field. -/
def of (instr : WirInstr Op Ty) : Option Key :=
  (chain instr).filter fun key => key.fields ≠ []

end Key

/-- Chains whose value a temp can supply here, each with its defining temp, and
the chains read off each local and through each field. -/
structure Avail where
  chains : List (Nat × Nat)
  byRoot : Ident → List Nat
  byField : Ident → List Nat

namespace Avail

def empty : Avail := ⟨[], fun _ => [], fun _ => []⟩

def get (avail : Avail) (chain : Nat) : Option Nat :=
  avail.chains.lookup chain

def insert (keys : List Key) (chain id : Nat) (avail : Avail) : Avail :=
  match keys[chain]? with
  | none => avail
  | some key =>
    { chains := (chain, id) :: avail.chains.filter (·.1 ≠ chain)
      byRoot := Function.update avail.byRoot key.root ((avail.byRoot key.root).insert chain)
      byField := key.fields.foldl
        (fun byField field => Function.update byField field.2 ((byField field.2).insert chain))
        avail.byField }

def forget (keys : List Key) (avail : Avail) (chain : Nat) : Avail :=
  if avail.get chain = none then avail
  else
    match keys[chain]? with
    | none => avail
    | some key =>
      { chains := avail.chains.filter (·.1 ≠ chain)
        byRoot := Function.update avail.byRoot key.root
          ((avail.byRoot key.root).filter (· ≠ chain))
        byField := key.fields.foldl
          (fun byField field =>
            Function.update byField field.2 ((byField field.2).filter (· ≠ chain)))
          avail.byField }

def retain (keys : List Key) (keep : Nat → Nat → Bool) (avail : Avail) : Avail :=
  ((avail.chains.filter fun entry => !keep entry.1 entry.2).map Prod.fst).foldl (forget keys) avail

def forgetWritten (keys : List Key) (writes : Footprint) (avail : Avail) : Avail :=
  if writes.call then empty
  else
    (writes.locals.flatMap avail.byRoot ++ writes.fields.flatMap avail.byField).foldl
      (forget keys) avail

end Avail

structure Temp (Ty : Type) where
  name : Ident
  ty : Ty
  used : Bool

/-- The state of the walk: every chain the function reads, which `Avail` names by
position, and whether a minted name was already taken. -/
structure Reuser (Ty : Type) where
  keys : List Key
  avail : Avail
  temps : List (Temp Ty)
  panicked : Bool

def loadName (id : Nat) : Ident :=
  ['$', 'l', 'o', 'a', 'd', '_'] ++ Nat.toDigits 10 id

namespace Reuser

def start : Reuser Ty := ⟨[], .empty, [], false⟩

/-- The position of a key, which is new or was met before. -/
def position (key : Key) (reuser : Reuser Ty) : Nat :=
  reuser.keys.idxOf key

def know (key : Key) (reuser : Reuser Ty) : Reuser Ty :=
  { reuser with keys := if key ∈ reuser.keys then reuser.keys else reuser.keys ++ [key] }

def tempName (id : Nat) (reuser : Reuser Ty) : Ident :=
  match reuser.temps[id]? with
  | some temp => temp.name
  | none => []

def use (id : Nat) (reuser : Reuser Ty) : Reuser Ty :=
  { reuser with temps := reuser.temps.modify id fun temp => { temp with used := true } }

/-- A new temp for a chain read here. -/
def mint (taken : List Ident) (chain : Nat) (ty : Ty) (reuser : Reuser Ty) : Reuser Ty :=
  { reuser with
    avail := reuser.avail.insert reuser.keys chain reuser.temps.length
    temps := reuser.temps ++ [⟨loadName reuser.temps.length, ty, false⟩]
    panicked := reuser.panicked || taken.contains (loadName reuser.temps.length) }

def cut (writes : Footprint) (reuser : Reuser Ty) : Reuser Ty :=
  { reuser with avail := reuser.avail.forgetWritten reuser.keys writes }

def back (avail : Avail) (reuser : Reuser Ty) : Reuser Ty :=
  { reuser with avail := avail }

/-- What is available where an arm falls through, or `none` where it never does. -/
def armEnd (arm : List (WirInstr Op Ty)) (reuser : Reuser Ty) : Option Avail :=
  if arm.getLast?.any WirInstr.alwaysDiverges then none else some reuser.avail

def agreed (ends : List (Option Avail)) (chain id : Nat) : Bool :=
  ends.all fun arm => arm.all fun avail => avail.get chain = some id

def meet (before : Avail) (ends : List (Option Avail)) (reuser : Reuser Ty) : Reuser Ty :=
  { reuser with avail := before.retain reuser.keys (agreed ends) }

end Reuser

namespace WirInstr

mutual

/-- Walk an instruction in evaluation order, reusing what is available and
recording what becomes so. -/
def visit (taken : List Ident) (callees : Option CalleeWrites) :
    WirInstr Op Ty → Reuser Ty → WirInstr Op Ty × Reuser Ty
  | .block result body, reuser =>
    let inside := visitAll taken callees body reuser
    (.block result inside.1,
      (inside.2.back reuser.avail).cut (Footprint.writesAll callees inside.1))
  | .loop body, reuser =>
    let entry := reuser.cut (Footprint.writesAll callees body)
    let inside := visitAll taken callees body entry
    (.loop inside.1, inside.2.back entry.avail)
  | .ite condition result thenBody none, reuser =>
    let first := condition.visit taken callees reuser
    let thenArm := visitAll taken (armCallees thenBody callees) thenBody first.2
    (.ite first.1 result thenArm.1 none,
      thenArm.2.meet first.2.avail [thenArm.2.armEnd thenArm.1, some first.2.avail])
  | .ite condition result thenBody (some elseBody), reuser =>
    let first := condition.visit taken callees reuser
    let thenArm := visitAll taken (armCallees thenBody callees) thenBody first.2
    let elseArm := visitAll taken (armCallees elseBody callees) elseBody
      (thenArm.2.back first.2.avail)
    (.ite first.1 result thenArm.1 (some elseArm.1),
      elseArm.2.meet first.2.avail [thenArm.2.armEnd thenArm.1, elseArm.2.armEnd elseArm.1])
  | .node head operands, reuser =>
    match Key.of (.node head operands), head with
    | some key, .structGet typeId fieldName resultTy =>
      match (reuser.know key).avail.get ((reuser.know key).position key) with
      | some id => (.node (.localGet (reuser.tempName id) resultTy) [], (reuser.know key).use id)
      | none =>
        let inside := visitAll taken callees operands (reuser.know key)
        (.node (.localTee (loadName inside.2.temps.length))
            [.node (.structGet typeId fieldName resultTy) inside.1],
          inside.2.mint taken ((reuser.know key).position key) resultTy)
    | _, head =>
      let inside := visitAll taken callees operands reuser
      (.node head inside.1, inside.2.cut (Footprint.writesOfNode callees head))

def visitAll (taken : List Ident) (callees : Option CalleeWrites) :
    List (WirInstr Op Ty) → Reuser Ty → List (WirInstr Op Ty) × Reuser Ty
  | [], reuser => ([], reuser)
  | instr :: rest, reuser =>
    let first := instr.visit taken callees reuser
    let others := visitAll taken callees rest first.2
    (first.1 :: others.1, others.2)

end

mutual

/-- Strip the tee off every candidate no later read reused. -/
def unwrapUnused (unused : List Ident) : WirInstr Op Ty → WirInstr Op Ty
  | .block result body => .block result (unwrapAll unused body)
  | .loop body => .loop (unwrapAll unused body)
  | .ite condition result thenBody none =>
    .ite (condition.unwrapUnused unused) result (unwrapAll unused thenBody) none
  | .ite condition result thenBody (some elseBody) =>
    .ite (condition.unwrapUnused unused) result (unwrapAll unused thenBody)
      (some (unwrapAll unused elseBody))
  | .node (.localTee name) [value] =>
    if name ∈ unused then value.unwrapUnused unused
    else .node (.localTee name) [value.unwrapUnused unused]
  | .node head operands => .node head (unwrapAll unused operands)

def unwrapAll (unused : List Ident) : List (WirInstr Op Ty) → List (WirInstr Op Ty)
  | [] => []
  | instr :: rest => instr.unwrapUnused unused :: unwrapAll unused rest

end

attribute [grind =] unwrapUnused

end WirInstr

namespace WirFunction

/-- The names a temp may not have. -/
def taken (func : WirFunction Op Ty) : List Ident :=
  func.declaredLocals.map Prod.fst ++ func.paramNames

/-- One function's rewriting, `none` where minting a temp fails its assertion. -/
def reuseLoads (callees : CalleeWrites) (func : WirFunction Op Ty) : Option (WirFunction Op Ty) :=
  match func.body with
  | none => some func
  | some body =>
    let visited := WirInstr.visitAll func.taken (some callees) body .start
    if visited.2.panicked then none
    else if visited.2.temps.isEmpty then some { func with body := some visited.1 }
    else
      let used := visited.2.temps.filter (·.used)
      let unused := (visited.2.temps.filter (!·.used)).map (·.name)
      some { func with
        body := some (used.map (fun temp => .node (.declareLocal temp.name temp.ty) []) ++
          WirInstr.unwrapAll unused visited.1) }

end WirFunction

namespace WirPackage

/-- The pass over a module. -/
def reuseStructLoads (package : WirPackage Op Ty) : Option (WirPackage Op Ty) :=
  (package.functions.mapM (WirFunction.reuseLoads (CalleeWrites.ofModule package))).map
    fun functions => { package with functions := functions }

end WirPackage

end Wado.Wir
