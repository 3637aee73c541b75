/-
Does this type satisfy this trait?  Every step is through an impl's bounds, each a
question of its own, and a question that reaches itself is cut.
-/
import Wado.TraitSolver.Bounds

namespace Wado.TraitSolver

/-- What a target parameter matched: a pack takes every element past the tuple's
fixed prefix. -/
inductive Binding where
  | one (ty : SolverType)
  | pack (elems : List SolverType)
deriving DecidableEq, Repr

namespace Binding

def asType : Binding → SolverType
  | .one ty => ty
  | .pack elems => .tuple elems

def elements : Binding → List SolverType
  | .one ty => [ty]
  | .pack elems => elems

end Binding

/-- What a match has bound, and the projections it met beside the types they met. -/
structure Matched where
  bindings : List (Option Binding)
  deferred : List (SolverType × SolverType)
deriving DecidableEq, Repr

namespace Matched

def unbound (params : Nat) : Matched :=
  ⟨List.replicate params none, []⟩

def bindingAt (state : Matched) (index : Nat) : Option Binding :=
  state.bindings[index]?.join

/-- The index is in range: no impl mentions a parameter it does not declare. -/
def bind (state : Matched) (index : Nat) (binding : Binding) : Matched :=
  { state with bindings := state.bindings.set index (some binding) }

def typeAt (state : Matched) (index : Nat) : Option SolverType :=
  (state.bindingAt index).map Binding.asType

end Matched

mutual

/-- Matches an impl target against a type, binding the target's parameters by
position; `none` where they do not match. -/
def matchTarget : SolverType → SolverType → Matched → Option Matched
  | .param index, ty, state =>
    match state.bindingAt index with
    | some bound => if bound = .one ty then some state else none
    | none => some (state.bind index (.one ty))
  | .decl head args, .decl tyHead tyArgs, state =>
    if head = tyHead ∧ args.length = tyArgs.length then matchEach args tyArgs state else none
  | .ref isMut inner, .ref tyMut tyInner, state =>
    if isMut = tyMut then matchTarget inner tyInner state else none
  | .tuple elems, .tuple tyElems, state => matchElems elems tyElems state
  | .pack index, .tuple tyElems, state => some (state.bind index (.pack tyElems))
  | .projection base trait_ assoc args, ty, state =>
    some { state with
      deferred := state.deferred ++ [(.projection base trait_ assoc args, ty)] }
  -- An open row meets any row, on either side.
  | .anyRow, _, state => some state
  | _, .anyRow, state => some state
  | _, _, _ => none

def matchEach : List SolverType → List SolverType → Matched → Option Matched
  | target :: targets, ty :: tys, state => (matchTarget target ty state).bind
      (matchEach targets tys)
  | _, _, state => some state

/-- A pack that ends a tuple takes the elements past those before it. -/
def matchElems : List SolverType → List SolverType → Matched → Option Matched
  | [.pack index], tys, state => some (state.bind index (.pack tys))
  | target :: targets, ty :: tys, state =>
    (matchTarget target ty state).bind (matchElems targets tys)
  | [], [], state => some state
  | _, _, _ => none

end

/-- Whether the impl's target meets the type without a projection left to decide. -/
def reachesTarget (impl : ImplDef) (ty : SolverType) : Bool :=
  match matchTarget impl.target ty (.unbound impl.params.length) with
  | none => false
  | some state => state.deferred.isEmpty

/-- At every parameter, whether an argument `args` says is one `written` says: each
side its written argument, or the trait's default at `ty` where it wrote none. -/
def answersArgs (program : Program) (impl : ImplDef) (ty : SolverType)
    (subject : Option SolverType) (written args : List SolverType) : Bool :=
  let written := program.perParam impl.trait_ written
  let args := program.perParam impl.trait_ args
  -- A `Self` default lowers to the impl's target, which the match bound to `ty`.
  let selves := [some ty, subject].filterMap id
  let said := fun (i : Nat) (given : Option SolverType) =>
    match given with
    | some given => [given]
    | none =>
      match program.defaultArg impl i with
      | some default => if default = impl.target then selves else [default]
      | none => []
  (List.range (max written.length args.length)).all fun i =>
    let asks := said i args[i]?.join
    let offered := said i written[i]?.join
    asks.isEmpty || asks.any fun ask => offered.any fun offer => decide (ask = offer)

/-- Whether the impl answers its trait at the declared defaults. -/
def atDefaults (program : Program) (impl : ImplDef) : Bool :=
  answersArgs program impl impl.target none impl.traitArgs []

/-- Whether the impl is one of `trait_` at its defaults from one of `origins`,
targeting a declaration. -/
def atSelf (program : Program) (impl : ImplDef) (trait_ : TraitDeclId)
    (origins : List ImplOrigin) : Bool :=
  decide (impl.trait_ = some trait_) && decide (impl.origin ∈ origins) &&
    atDefaults program impl && (targetHead impl.target).isSome

/-- Whether an impl of `trait_` at its defaults from one of `origins` reaches the
type, whatever its bounds. -/
def reachedBy (program : Program) (trait_ : TraitDeclId) (ty : SolverType)
    (origins : List ImplOrigin) : Bool :=
  !origins.isEmpty && (program.implsFor trait_ ty).any fun entry =>
    atSelf program entry.2 trait_ origins && reachesTarget entry.2 ty

/-- Which of `Eq` and `Ord` a written impl reaching the type implements without the
other, with that impl: a concrete one before a generic one. -/
def comparisonRow (program : Program) (ty : SolverType) : Option (TraitDeclId × ImplId) :=
  program.comparisons.bind fun eqOrd =>
    let written := fun trait_ =>
      let reaching := (program.implsFor trait_ ty).filter fun entry =>
        atSelf program entry.2 trait_ [.written] && reachesTarget entry.2 ty
      ((reaching.find? fun entry => entry.2.params.isEmpty).or reaching.head?).map Prod.fst
    match written eqOrd.1, written eqOrd.2 with
    | some id, none => some (eqOrd.1, id)
    | none, some id => some (eqOrd.2, id)
    | _, _ => none

def rowIs (program : Program) (ty : SolverType) (written : TraitDeclId) : Bool :=
  match comparisonRow program ty with
  | some (row, _) => decide (row = written)
  | none => false

/-- Whether the type has no `Ord`, as a written `eq` reaches it alone. -/
def withholds (program : Program) (trait_ : TraitDeclId) (ty : SolverType) : Bool :=
  match program.comparisons with
  | some (eq, ord) => decide (trait_ = ord) && rowIs program ty eq
  | none => false

/-- Whether `trait_`'s body at the type is the `==` a `cmp` written alone gives. -/
def eqFromCmp (program : Program) (trait_ : TraitDeclId) (ty : SolverType) : Bool :=
  match program.comparisons with
  | some (eq, ord) => decide (trait_ = eq) && rowIs program ty ord
  | none => false

/-- Which of `Eq` and `Ord` a written impl reaching the type implements. -/
def writtenComparison (program : Program) (ty : SolverType) : Option TraitDeclId :=
  program.comparisons.bind fun eqOrd =>
    [eqOrd.1, eqOrd.2].find? fun written => reachedBy program written ty [.written]

/-- The trait only an impl written at the type itself answers. -/
def writtenOnlyAt (program : Program) (ty : SolverType) : Option TraitDeclId :=
  if (writtenComparison program ty).isSome then program.hash else none

/-- The base a newtype receiver inherits from, at the receiver's own arguments. -/
def newtypeBase (program : Program) (ty : SolverType) : Run (Option SolverType) :=
  match ty with
  | .decl head args =>
    match (program.types.lookup head).bind TypeDef.newtypeBase with
    | none => .ok none
    | some base =>
      match base.mapParams fun i => args[i]? with
      | some base => .ok (some base)
      | none => .error .panic
  | _ => .ok none

/-- The type with every newtype level peeled, past the levels in `seen`. -/
def peelNewtypes (program : Program) : Nat → List SolverType → SolverType → Run SolverType
  | 0, _, _ => .error .fuel
  | fuel + 1, seen, ty => do
    match ← newtypeBase program ty with
    | none => return ty
    | some base =>
      if base ∈ seen then return ty else peelNewtypes program fuel (seen ++ [base]) base

/-- The declaration a type instantiates, which a fact is stated of. -/
def factHead (program : Program) : SolverType → Option TypeDeclId
  | .decl head _ => some head
  | .tuple _ => program.tuple
  | _ => none

namespace Declaration

/-- A member that is a pack is each element of the tuple its argument is. -/
def instantiated (args : List SolverType) : List SolverType → Run (List SolverType)
  | [] => .ok []
  | member :: members =>
    match member.mapParams fun i => args[i]? with
    | none => .error .panic
    | some at_ => do
      let rest ← instantiated args members
      return match member, at_ with
        | .pack _, .tuple elems => elems ++ rest
        | _, at_ => at_ :: rest

/-- The members `projectsParam` holds of, at the instance whose arguments are
`args`. -/
def projectedMembersAt (decl : Declaration) (args : List SolverType)
    (projecting : List TypeDeclId) : Run (List SolverType) :=
  if args.length = decl.params then
    instantiated args (decl.members.filter fun member => member.projectsParam projecting)
  else .error .panic

end Declaration

/-- An associated type as one impl binds it, with what the match bound each of the
impl's parameters to. -/
structure Member where
  binding : SolverType
  matched : List (Option SolverType)
deriving DecidableEq, Repr

/-- The binding at a family's own arguments, which follow the impl's. -/
def Member.at (member : Member) (args : List SolverType) : Option SolverType :=
  member.binding.mapParams fun i =>
    if i < member.matched.length then member.matched[i]?.join
    else args[i - member.matched.length]?

/-- A bound that holds, and the bodies its answer owes. -/
structure Holds where
  requests : List DerivationRequest
  /-- The associated types the answering impl binds. -/
  assoc : List (AssocId × Member)
deriving DecidableEq, Repr

namespace Holds

def default : Holds :=
  ⟨[], []⟩

/-- What the answering impl binds `assoc` to at the receiver. -/
def assocAt (holds : Holds) (assoc : AssocId) (args : List SolverType) : Option SolverType :=
  (holds.assoc.find? fun entry => entry.1 = assoc).bind fun entry => entry.2.at args

end Holds

/-- A question open on the stack. -/
structure Open where
  ty : SolverType
  trait_ : TraitDeclId
  args : List SolverType
  throughMember : Bool
deriving DecidableEq, Repr

/-- What stays the same under one question. -/
structure Query where
  program : Program
  env : Env
  /-- A type answered about at the type itself, without its newtype base's impls. -/
  atItself : Option SolverType

/-- What a step of a question asks in turn, under the questions open: whether
another holds, and what a type's projections bind. -/
structure Asks where
  holds : List Open → Bool → SolverType → TraitDeclId → List SolverType → Option SolverType →
    Run (Option Holds)
  normalized : List Open → SolverType → Run SolverType

section Steps

variable {α σ : Type}

/-- Whether `test` answers so of one, the rest unasked. -/
def anyRun (test : α → Run Bool) : List α → Run Bool
  | [] => .ok false
  | a :: as => do
    if ← test a then return true else anyRun test as

def allRun (test : α → Run Bool) : List α → Run Bool
  | [] => .ok true
  | a :: as => do
    if ← test a then allRun test as else return false

/-- Each step in turn, until one refuses. -/
def eachSome (step : α → σ → Run (Option σ)) : List α → σ → Run (Option σ)
  | [], state => .ok (some state)
  | a :: as, state => do
    match ← step a state with
    | none => return none
    | some state => eachSome step as state

/-- The first answer. -/
def firstSome (step : α → Run (Option σ)) : List α → Run (Option σ)
  | [] => .ok none
  | a :: as => do
    match ← step a with
    | some answer => return some answer
    | none => firstSome step as

end Steps

section Normalize

variable (asks : Asks) (asking : List Open)

mutual

/-- The type with each projection an impl answers replaced by what that impl
binds. -/
def normalizedAt : SolverType → Run SolverType
  | .projection base trait_ assoc args => do
    let base ← normalizedAt base
    let args ← normalizedEach args
    let held ← asks.holds asking false base trait_ [] none
    match held.bind fun held => held.assocAt assoc args with
    | some ty => asks.normalized asking ty
    | none => return .projection base trait_ assoc args
  | .decl head args => do return .decl head (← normalizedEach args)
  | .tuple elems => do return .tuple (← normalizedEach elems)
  | .ref isMut inner => do return .ref isMut (← normalizedAt inner)
  | .param index => .ok (.param index)
  | .pack index => .ok (.pack index)
  | .anyRow => .ok .anyRow

def normalizedEach : List SolverType → Run (List SolverType)
  | [] => .ok []
  | ty :: tys => do
    let ty ← normalizedAt ty
    return ty :: (← normalizedEach tys)

end

/-- The type, written in an impl's parameter space, at what the match bound each
parameter to; `none` where it names one left unbound. -/
def atBindings (ty : SolverType) (state : Matched) : Run (Option SolverType) :=
  match ty.mapParams state.typeAt with
  | none => .ok none
  | some bound => do return some (← normalizedAt asks asking bound)

/-- An argument at the bindings, as written where they leave it open. -/
def argAtBindings (state : Matched) (arg : SolverType) : Run SolverType := do
  return (← atBindings asks asking arg state).getD arg

def argsAtBindings (state : Matched) : List SolverType → Run (List SolverType)
  | [] => .ok []
  | arg :: args => do
    let arg ← argAtBindings asks asking state arg
    return arg :: (← argsAtBindings state args)

/-- Whether the projection read at the bindings is what it met; `none` where it
names a parameter still unbound. -/
def projectionHolds (state : Matched) (met : SolverType × SolverType) : Run (Option Bool) := do
  match ← atBindings asks asking met.1 state with
  | none => return none
  | some expected => return some (decide (expected = (← normalizedAt asks asking met.2)))

def projectionsRefuted (state : Matched) (deferred : List (SolverType × SolverType)) : Run Bool :=
  anyRun (fun met => do return decide ((← projectionHolds asks asking state met) = some false))
    deferred

def projectionsMet (state : Matched) : Run Bool :=
  allRun (fun met => do return decide ((← projectionHolds asks asking state met) = some true))
    state.deferred

/-- Whether an answer to a bound meets one pin on it, binding what the pin names
that is still unbound. -/
def meetsPin (answer : Holds) (pin : Pin) (state : Matched) : Run (Option Matched) := do
  match answer.assocAt pin.assoc [] with
  | none => return some state
  | some actual =>
    let actual ← normalizedAt asks asking actual
    match ← atBindings asks asking pin.ty state with
    | some expected => return if expected = actual then some state else none
    | none =>
      match matchTarget pin.ty actual state with
      | none => return none
      | some state' =>
        let new := state'.deferred.drop state.deferred.length
        if ← projectionsRefuted asks asking state' new then return none
        else return some state'

def meetsPins (pins : List Pin) (trait_ : TraitDeclId) (answer : Holds) (state : Matched) :
    Run (Option Matched) :=
  eachSome (meetsPin asks asking answer) (pins.filter fun pin => pin.trait_ = trait_) state

end Normalize

/-- One impl applying to one type: what it holds with, and its trait arguments at
the type it matched. -/
structure Answer where
  holds : Holds
  traitArgs : List SolverType

/-- How far an impl's parameters are answered. -/
structure Progress where
  state : Matched
  requests : List DerivationRequest

namespace ImplDef

/-- The pins that name the parameter at `index`. -/
def pinsOn (impl : ImplDef) (index : Nat) : List Pin :=
  (impl.params.flatMap ParamDef.pins).filter fun pin => pin.ty.mentionsParam index

/-- Whether the impl's target is a parameter and the type a reference: a value
blanket answers none. -/
def blanketAtRef (impl : ImplDef) (ty : SolverType) : Bool :=
  match impl.target, ty with
  | .param _, .ref _ _ => true
  | _, _ => false

end ImplDef

namespace Query

variable (query : Query) (fuel : Nat) (asks : Asks) (asking : List Open)

/-- One element of what a parameter is bound to, asked one bound of the parameter
at the bindings. -/
def askBound (param : ParamDef) (throughMember : Bool) (bound : ParamBound) (element : SolverType)
    (progress : Progress) : Run (Option Progress) := do
  let args ← argsAtBindings asks asking progress.state bound.args
  match ← asks.holds asking throughMember element bound.trait_ args none with
  | none => return none
  | some answer =>
    match ← meetsPins asks asking param.pins bound.trait_ answer progress.state with
    | none => return none
    | some state => return some ⟨state, progress.requests ++ answer.requests⟩

/-- Whether every element is copyable, where the parameter admits only such. -/
def copyableAnswers (param : ParamDef) (throughMember : Bool) (elements : List SolverType) :
    Run Bool :=
  match query.program.copyable with
  | none => .ok true
  | some copyable =>
    if param.copyable then
      allRun (fun element => do
        let peeled ← peelNewtypes query.program fuel [element] element
        return (← asks.holds asking throughMember peeled copyable [] none).isSome) elements
    else .ok true

/-- One parameter of an impl: every bound holds of what it is bound to.  `fromPin`
says that the target left it unbound. -/
def paramAnswers (impl : ImplDef) (fromPin : Nat → Bool) (param : ParamDef × Nat)
    (progress : Progress) : Run (Option Progress) := do
  let pinsOn := impl.pinsOn param.2
  -- Only a pin on a member channel descends into the type's members.
  let throughMember := fromPin param.2 &&
    pinsOn.any fun pin => decide (pin.assoc ∈ query.program.memberChannels)
  match progress.state.bindingAt param.2 with
  | none =>
    return if param.1.bounds.isEmpty || !pinsOn.isEmpty then some progress else none
  | some binding =>
    if ← query.copyableAnswers fuel asks asking param.1 throughMember binding.elements then
      eachSome (fun bound =>
          eachSome (askBound asks asking param.1 throughMember bound) binding.elements)
        param.1.bounds progress
    else return none

/-- The body an answer through the impl owes. -/
def ownRequests (implemented : TraitDeclId) (impl : ImplDef) (ty : SolverType) :
    List DerivationRequest :=
  if impl.origin = .written then []
  else
    let structural :=
      match query.program.traits.lookup implemented with
      | some traitDef => traitDef.structural
      | none => false
    [⟨ty, implemented, structural && !eqFromCmp query.program implemented ty⟩]

/-- A derivation asks each member projected off a parameter at the instance. -/
def projectedMembers (implemented : TraitDeclId) (impl : ImplDef) (ty : SolverType)
    (progress : Progress) : Run (Option Progress) :=
  match ty with
  | .decl head args =>
    if impl.origin = .derived then
      match query.program.declarations.lookup head with
      | none => .ok (some progress)
      | some decl => do
        let members ← decl.projectedMembersAt args query.program.projecting
        eachSome (fun member progress => do
            let member ← normalizedAt asks asking member
            match ← asks.holds asking true member implemented [] none with
            | none => return none
            | some answer =>
              return some { progress with requests := progress.requests ++ answer.requests })
          members progress
    else .ok (some progress)
  | _ => .ok (some progress)

/-- Whether the impl gives way at the type, to another impl or to one written
there. -/
def givesWay (implemented : TraitDeclId) (impl : ImplDef) (ty : SolverType) : Bool :=
  reachedBy query.program implemented ty impl.origin.yieldsTo ||
    (decide (impl.origin ≠ .written) && decide (writtenOnlyAt query.program ty = some implemented))

/-- Whether one impl applies to the type: its target matches, and every bound holds
of what the match bound. -/
def implAnswers (id : ImplId) (impl : ImplDef) (ty : SolverType) : Run (Option Answer) := do
  match impl.trait_ with
  | none => return none
  | some implemented =>
    if impl.blanketAtRef ty then return none
    else
      match matchTarget impl.target ty (.unbound impl.params.length) with
      | none => return none
      | some state =>
        if ← projectionsRefuted asks asking state state.deferred then return none
        else if query.givesWay implemented impl ty then return none
        else
          -- The parameters the target binds go first.
          let fromPin := fun index => (state.bindingAt index).isNone
          let params := impl.params.zipIdx
          let order := params.filter (fun param => !fromPin param.2) ++
            params.filter fun param => fromPin param.2
          match ← eachSome (query.paramAnswers fuel asks asking impl fromPin) order
              ⟨state, query.ownRequests implemented impl ty⟩ with
          | none => return none
          | some progress =>
            match ← query.projectedMembers asks asking implemented impl ty progress with
            | none => return none
            | some progress =>
              if ← projectionsMet asks asking progress.state then
                let matched := progress.state.bindings.map (Option.map Binding.asType)
                let assoc := ((query.program.assocBindings.lookup id).getD []).map
                  fun entry => (entry.1, Member.mk entry.2 matched)
                let traitArgs ← argsAtBindings asks asking progress.state impl.traitArgs
                return some ⟨⟨progress.requests, assoc⟩, traitArgs⟩
              else return none

/-- Whether the type is `!` or a newtype over it. -/
def peelsToNever (ty : SolverType) : Run Bool := do
  let peeled ← peelNewtypes query.program fuel [ty] ty
  match query.program.never with
  | none => return false
  | some never => return decide (peeled = .decl never [])

/-- `!` and a newtype over it hold every trait, binding each associated type to
`!`. -/
def neverHolds (ty : SolverType) (trait_ : TraitDeclId) : Run (Option Holds) := do
  if ← query.peelsToNever fuel ty then
    match query.program.never, query.program.traits.lookup trait_ with
    | some never, some traitDef =>
      return some ⟨[], traitDef.assocBounds.map fun entry => (entry.1, ⟨.decl never [], []⟩)⟩
    | none, _ => return none
    | _, none => throw .panic
  else return none

/-- Whether a bound in force on a parameter, read at what its projections bind,
answers the question. -/
def envAnswers (ty : SolverType) (trait_ : TraitDeclId) (args : List SolverType) : Run Bool :=
  let inForce := fun index =>
    match query.env.paramBounds[index]? with
    | none => .ok false
    | some bounds =>
      anyRun (fun bound => do
        let boundArgs ← normalizedEach asks asking bound.args
        boundAnswers query.program fuel ty ⟨bound.trait_, boundArgs⟩ trait_ args) bounds
  match ty with
  | .param index => inForce index
  | .pack index => inForce index
  | _ => .ok false

/-- Whether a trait declares bounds of the projected type that reach the asked
trait. -/
def declaredAnswers (ty : SolverType) (trait_ : TraitDeclId) : Run Bool :=
  match ty with
  | .projection _ of assoc _ =>
    match (query.program.traits.lookup of).bind fun traitDef =>
        traitDef.assocBounds.lookup assoc with
    | none => .ok false
    | some bounds => anyRun (fun bound => query.program.boundReaches fuel bound trait_ ty) bounds
  | _ => .ok false

/-- What a fact of the type's declaration answers. -/
def factAnswers (ty : SolverType) (trait_ : TraitDeclId) : Run (Option Holds) :=
  match (factHead query.program ty).bind fun head => query.program.facts.lookup (head, trait_) with
  | none => .ok none
  | some fact =>
    let requests : List DerivationRequest := [⟨ty, trait_, false⟩]
    match ty with
    | .decl _ args =>
      .ok (some ⟨requests, fact.assoc.map fun entry => (entry.1, ⟨entry.2, args.map some⟩)⟩)
    -- Only a declaration's fact binds an associated type.
    | _ => if fact.assoc.isEmpty then .ok (some ⟨requests, []⟩) else .error .panic

/-- What the impls of the trait answer, the first that applies. -/
def implsAnswer (ty : SolverType) (trait_ : TraitDeclId) (args : List SolverType)
    (subject : Option SolverType) : Run (Option Holds) :=
  firstSome (fun entry => do
      if subject.isSome && decide (entry.1 ∈ query.program.notInherited) then return none
      else
        match ← query.implAnswers fuel asks asking entry.1 entry.2 ty with
        | none => return none
        | some answer =>
          if answersArgs query.program entry.2 ty subject answer.traitArgs args then
            return some answer.holds
          else return none)
    (query.program.implsFor trait_ ty)

/-- What a newtype's base answers for it. -/
def baseAnswers (ty : SolverType) (trait_ : TraitDeclId) (args : List SolverType)
    (subject : Option SolverType) : Run (Option Holds) := do
  if decide (query.atItself = some ty) || decide (writtenOnlyAt query.program ty = some trait_) then
    return none
  else
    match ← newtypeBase query.program ty with
    | none => return none
    | some base => asks.holds asking false base trait_ args (subject.or (some ty))

/-- What a reference's pointee answers for it. -/
def refAnswers (onRef : RefRule) (ty : SolverType) (trait_ : TraitDeclId)
    (args : List SolverType) : Run (Option Holds) :=
  match ty, onRef with
  | .ref _ inner, .inherits => asks.holds asking false inner trait_ args none
  | _, _ => .ok none

/-- A question once it is open: every step that asks another finds it asked. -/
def decide (ty : SolverType) (trait_ : TraitDeclId) (args : List SolverType)
    (subject : Option SolverType) : Run (Option Holds) := do
  let traitDef := query.program.traits.lookup trait_
  let onRef := (traitDef.map TraitDef.onRef).getD .inherits
  if (traitDef.map TraitDef.holdsForAll).getD false then return some .default
  else if withholds query.program trait_ ty then return none
  else if ty.isRef && onRef = .always then return some .default
  else
    match ← query.neverHolds fuel ty trait_ with
    | some holds => return some holds
    | none =>
      if ← query.envAnswers fuel asks asking ty trait_ args then return some .default
      else if ← query.declaredAnswers fuel ty trait_ then return some .default
      else
        match ← query.factAnswers ty trait_ with
        | some holds => return some holds
        | none =>
          match ← query.implsAnswer fuel asks asking ty trait_ args subject with
          | some holds => return some holds
          | none =>
            match ← query.baseAnswers asks asking ty trait_ args subject with
            | some holds => return some holds
            | none => refAnswers asks asking onRef ty trait_ args

/-- A question, cut where it is open already: it then holds only if a member was
descended into since. -/
def holdsAt (throughMember : Bool) (ty : SolverType) (trait_ : TraitDeclId)
    (args : List SolverType) (subject : Option SolverType) : Run (Option Holds) :=
  match asking.findIdx? fun asked => asked.ty = ty && asked.trait_ = trait_ && asked.args =
    args with
  | some at_ =>
    let recursive := throughMember || (asking.drop (at_ + 1)).any Open.throughMember
    .ok (if recursive then some .default else none)
  | none =>
    query.decide fuel asks (asking ++ [⟨ty, trait_, args, throughMember⟩]) ty trait_ args subject

/-- What is asked in turn, `fuel` questions deep. -/
def asksWithin : Nat → Asks
  | 0 => ⟨fun _ _ _ _ _ _ => .error .fuel, fun _ _ => .error .fuel⟩
  | fuel + 1 =>
    let asks := asksWithin fuel
    ⟨query.holdsAt fuel asks, normalizedAt asks⟩

end Query

/-- Whether `ty` satisfies `trait_` at the arguments an asking bound writes for the
trait's own parameters. -/
def holdsWithArgs (fuel : Nat) (program : Program) (env : Env) (ty : SolverType)
    (trait_ : TraitDeclId) (args : List SolverType) : Run (Option Holds) :=
  ((Query.mk program env none).asksWithin fuel).holds [] false ty trait_ args none

/-- `holdsWithArgs` at the trait's declared defaults. -/
def holds (fuel : Nat) (program : Program) (env : Env) (ty : SolverType) (trait_ : TraitDeclId) :
    Run (Option Holds) :=
  holdsWithArgs fuel program env ty trait_ []

end Wado.TraitSolver
