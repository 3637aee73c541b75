/-
What trait resolution is asked about: types by position, traits, impls and the
bounds in force, and the order impls are added in.
-/
import Mathlib.Data.List.Basic

namespace Wado.TraitSolver

/-- A type declaration. -/
structure TypeDeclId where
  id : Nat
deriving DecidableEq, Repr

/-- A trait declaration. -/
structure TraitDeclId where
  id : Nat
deriving DecidableEq, Repr

/-- An `impl` block. -/
structure ImplId where
  id : Nat
deriving DecidableEq, Repr

/-- An associated type of a trait. -/
structure AssocId where
  id : Nat
deriving DecidableEq, Repr

/-- A type as selection reads it; a parameter or a pack is its position. -/
inductive SolverType where
  | decl (head : TypeDeclId) (args : List SolverType)
  | param (index : Nat)
  | pack (index : Nat)
  | ref (isMut : Bool) (inner : SolverType)
  | tuple (elems : List SolverType)
  | projection (base : SolverType) (trait_ : TraitDeclId) (assoc : AssocId)
      (args : List SolverType)
  | anyRow
deriving Repr, Inhabited

namespace SolverType

mutual

def same : SolverType → SolverType → Bool
  | .decl head args, .decl head' args' => decide (head = head') && sameAll args args'
  | .param index, .param index' => decide (index = index')
  | .pack index, .pack index' => decide (index = index')
  | .ref isMut inner, .ref isMut' inner' => decide (isMut = isMut') && same inner inner'
  | .tuple elems, .tuple elems' => sameAll elems elems'
  | .projection base trait_ assoc args, .projection base' trait_' assoc' args' =>
    same base base' && decide (trait_ = trait_') && decide (assoc = assoc') &&
      sameAll args args'
  | .anyRow, .anyRow => true
  | _, _ => false

def sameAll : List SolverType → List SolverType → Bool
  | [], [] => true
  | ty :: tys, ty' :: tys' => same ty ty' && sameAll tys tys'
  | _, _ => false

end

mutual

theorem same_iff : ∀ a b : SolverType, same a b = true ↔ a = b
  | .decl head args, b => by
    cases b <;> simp [same, sameAll_iff args]
  | .param index, b => by
    cases b <;> simp [same]
  | .pack index, b => by
    cases b <;> simp [same]
  | .ref isMut inner, b => by
    cases b <;> simp [same, same_iff inner]
  | .tuple elems, b => by
    cases b <;> simp [same, sameAll_iff elems]
  | .projection base trait_ assoc args, b => by
    cases b <;> simp [same, same_iff base, sameAll_iff args, and_assoc]
  | .anyRow, b => by
    cases b <;> simp [same]

theorem sameAll_iff : ∀ as bs : List SolverType, sameAll as bs = true ↔ as = bs
  | [], bs => by
    cases bs <;> simp [sameAll]
  | a :: as, bs => by
    cases bs <;> simp [sameAll, same_iff a, sameAll_iff as]

end

instance : DecidableEq SolverType :=
  fun a b => decidable_of_iff (same a b = true) (same_iff a b)

mutual

/-- Whether a parameter or pack in the type satisfies `pred`. -/
def mentions (pred : SolverType → Bool) : SolverType → Bool
  | .param index => pred (.param index)
  | .pack index => pred (.pack index)
  | .anyRow => false
  | .decl _ inner => mentionsAny pred inner
  | .tuple inner => mentionsAny pred inner
  | .ref _ inner => mentions pred inner
  | .projection base _ _ args => mentions pred base || mentionsAny pred args

def mentionsAny (pred : SolverType → Bool) : List SolverType → Bool
  | [] => false
  | ty :: tys => mentions pred ty || mentionsAny pred tys

end

/-- Whether the type mentions the parameter or pack at `index`. -/
def mentionsParam (ty : SolverType) (index : Nat) : Bool :=
  ty.mentions fun p => p = .param index || p = .pack index

mutual

/-- Whether the type holds an associated type projected off a parameter or pack;
a declaration among `projecting` holds one off whatever its arguments mention. -/
def projectsParam (projecting : List TypeDeclId) : SolverType → Bool
  | .projection base trait_ assoc args =>
    mentions (fun _ => true) (.projection base trait_ assoc args)
  | .decl head inner =>
    (decide (head ∈ projecting) && mentionsAny (fun _ => true) inner) ||
      projectsParamAny projecting inner
  | .tuple inner => projectsParamAny projecting inner
  | .ref _ inner => projectsParam projecting inner
  | .param _ => false
  | .pack _ => false
  | .anyRow => false

def projectsParamAny (projecting : List TypeDeclId) : List SolverType → Bool
  | [] => false
  | ty :: tys => projectsParam projecting ty || projectsParamAny projecting tys

end

mutual

/-- The type with each parameter and pack replaced by `arg` at its position;
`none` where `arg` has none for one. -/
def mapParams (arg : Nat → Option SolverType) : SolverType → Option SolverType
  | .param index => arg index
  | .pack index => arg index
  | .anyRow => some .anyRow
  | .decl head inner => (mapEach arg inner).map (.decl head)
  | .tuple inner => (mapElems arg inner).map .tuple
  | .ref isMut inner => (mapParams arg inner).map (.ref isMut)
  | .projection base trait_ assoc args =>
    (mapParams arg base).bind fun base =>
      (mapEach arg args).map (.projection base trait_ assoc)

def mapEach (arg : Nat → Option SolverType) : List SolverType → Option (List SolverType)
  | [] => some []
  | ty :: tys => (mapParams arg ty).bind fun ty => (mapEach arg tys).map (ty :: ·)

/-- A pack spread in a tuple splices its elements in. -/
def mapElems (arg : Nat → Option SolverType) : List SolverType → Option (List SolverType)
  | [] => some []
  | elem :: elems =>
    (mapParams arg elem).bind fun mapped =>
      (mapElems arg elems).map fun mappedElems =>
        match elem, mapped with
        | .pack _, .tuple spliced => spliced ++ mappedElems
        | _, mapped => mapped :: mappedElems

end

def isRef : SolverType → Bool
  | .ref _ _ => true
  | _ => false

end SolverType

/-- What a bound says an associated type must be. -/
structure Pin where
  trait_ : TraitDeclId
  assoc : AssocId
  ty : SolverType
deriving DecidableEq, Repr

/-- A `Trait<Args>` written on a type parameter or on a supertrait clause; no
arguments ask for the declared defaults. -/
structure ParamBound where
  trait_ : TraitDeclId
  args : List SolverType
deriving DecidableEq, Repr

def ParamBound.bare (trait_ : TraitDeclId) : ParamBound :=
  ⟨trait_, []⟩

/-- One of an impl's type parameters. -/
structure ParamDef where
  bounds : List ParamBound
  pins : List Pin
  /-- Admits only a `Program.copyable` argument. -/
  copyable : Bool
deriving DecidableEq, Repr

/-- Where an impl came from. -/
inductive ImplOrigin where
  | written
  | derived
  | marker
  | paired
deriving DecidableEq, Repr

/-- The origins of the impls that one yields to where both reach an instance. -/
def ImplOrigin.yieldsTo : ImplOrigin → List ImplOrigin
  | .written => []
  | .marker => []
  | .paired => [.written, .marker]
  | .derived => [.written, .marker, .paired]

/-- An `impl` block, reduced to what the rules read. -/
structure ImplDef where
  /-- `none` for an inherent impl. -/
  trait_ : Option TraitDeclId
  traitArgs : List SolverType
  target : SolverType
  params : List ParamDef
  origin : ImplOrigin
deriving DecidableEq, Repr

/-- The default a trait's type parameter declares. -/
inductive ArgDefault where
  | selfType
  | type (ty : SolverType)
  /-- A default the lowering cannot spell. -/
  | opaqueType
deriving DecidableEq, Repr

/-- The default at an impl whose target is `target`. -/
def ArgDefault.at : ArgDefault → SolverType → Option SolverType
  | .selfType, target => some target
  | .type ty, _ => some ty
  | .opaqueType, _ => none

/-- How a reference answers a bound its pointee holds. -/
inductive RefRule where
  | inherits
  | always
  | never
deriving DecidableEq, Repr

/-- A map in insertion order, read at the first entry of a key. -/
abbrev IndexMap (K V : Type) := List (K × V)

/-- A trait declaration, reduced to what the rules read. -/
structure TraitDef where
  supertraits : List ParamBound := []
  holdsForAll : Bool := false
  structural : Bool := false
  onRef : RefRule := .inherits
  argDefaults : List (Option ArgDefault) := []
  /-- The position of its parameter pack. -/
  pack : Option Nat := none
  assocBounds : IndexMap AssocId (List TraitDeclId) := []
deriving DecidableEq, Repr

structure TypeDef where
  /-- For a newtype, the base it inherits impls from. -/
  newtypeBase : Option SolverType
deriving DecidableEq, Repr

/-- A declaration's members, over which a structural trait is derived. -/
structure Declaration where
  id : TypeDeclId
  params : Nat
  /-- Whether the last parameter is a pack. -/
  variadic : Bool
  members : List SolverType
deriving DecidableEq, Repr

/-- A body the answer depends on. -/
structure DerivationRequest where
  ty : SolverType
  trait_ : TraitDeclId
  structural : Bool
deriving DecidableEq, Repr

/-- A declaration's own reflection kind, answering for every instance of it. -/
structure Fact where
  assoc : List (AssocId × SolverType)
deriving DecidableEq, Repr

/-- The bounds in force where a question was asked, by parameter. -/
structure Env where
  paramBounds : List (List ParamBound)
deriving DecidableEq, Repr

/-- What the solver is asked about. -/
structure Program where
  /-- In the order they were added. -/
  impls : IndexMap ImplId ImplDef := []
  /-- The ids of `impls` by trait, and by trait and the declaration the target
  names. -/
  implsByTrait : IndexMap TraitDeclId (List ImplId) := []
  implsByTarget : IndexMap (TraitDeclId × Option TypeDeclId) (List ImplId) := []
  traits : IndexMap TraitDeclId TraitDef := []
  types : IndexMap TypeDeclId TypeDef := []
  facts : IndexMap (TypeDeclId × TraitDeclId) Fact := []
  assocBindings : IndexMap ImplId (List (AssocId × SolverType)) := []
  /-- The declaration a tuple instantiates. -/
  tuple : Option TypeDeclId := none
  declarations : IndexMap TypeDeclId Declaration := []
  projecting : List TypeDeclId := []
  /-- `Eq` and `Ord`. -/
  comparisons : Option (TraitDeclId × TraitDeclId) := none
  hash : Option TraitDeclId := none
  memberChannels : List AssocId := []
  notInherited : List ImplId := []
  copyable : Option TraitDeclId := none
  never : Option TypeDeclId := none
deriving Repr

end Wado.TraitSolver
