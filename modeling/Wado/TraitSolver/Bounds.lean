/-
What a bound says: its arguments by parameter, defaulted where it writes none, and
the traits its supertrait clauses reach.
-/
import Wado.TraitSolver.Impls

namespace Wado.TraitSolver

/-- What the `written` arguments of a use say for each of `params` parameters.  A
pack at `pack` takes the run of every argument past the parameters around it. -/
def argsPerParam {α : Type} (written : List α) (params : Nat) (pack : Option Nat)
    (tuple : List α → α) : List (Option α) :=
  match pack with
  | none => written.map some
  | some pack =>
    let absorbed := written.length + 1 - params
    let run :=
      if pack + absorbed ≤ written.length then (written.drop pack).take absorbed else []
    (List.range pack).map (fun i => written[i]?) ++ [some (tuple run)] ++
      (List.range' (pack + 1) (params - (pack + 1))).map fun i => written[i + absorbed - 1]?

namespace Program

/-- `trait_`'s argument at `index` in a bound on `subject` writing `written` there:
the written one, else the declared default. -/
def argAt (program : Program) (trait_ : TraitDeclId) (written : Option SolverType) (index : Nat)
    (subject : SolverType) : Option SolverType :=
  match written with
  | some arg => some arg
  | none =>
    ((program.traits.lookup trait_).bind fun traitDef => traitDef.argDefaults[index]?.join).bind
      fun default => default.at subject

/-- The default `impl`'s trait declares for its argument at `index`. -/
def defaultArg (program : Program) (impl : ImplDef) (index : Nat) : Option SolverType :=
  impl.trait_.bind fun trait_ => program.argAt trait_ none index impl.target

/-- What `args`, written for `trait_`, say for each of its parameters. -/
def perParam (program : Program) (trait_ : Option TraitDeclId) (args : List SolverType) :
    List (Option SolverType) :=
  match trait_.bind fun trait_ => program.traits.lookup trait_ with
  | some traitDef => argsPerParam args traitDef.argDefaults.length traitDef.pack .tuple
  | none => args.map some

/-- `clause`, written in `sub`'s space, at what a bound on `subject` writes for each
of `sub`'s parameters. -/
def clauseAt (program : Program) (clause : ParamBound) (sub : TraitDeclId)
    (args : List (Option SolverType)) (subject : SolverType) : Option ParamBound :=
  let arg := fun i => program.argAt sub args[i]?.join i subject
  (SolverType.mapEach arg clause.args).map fun args => ⟨clause.trait_, args⟩

/-- The clauses of a bound's trait, at the bound's arguments. -/
def clausesOf (program : Program) (subject : SolverType) (bound : ParamBound) : List ParamBound :=
  match program.traits.lookup bound.trait_ with
  | none => []
  | some traitDef =>
    let args := program.perParam (some bound.trait_) bound.args
    traitDef.supertraits.filterMap fun clause =>
      program.clauseAt clause bound.trait_ args subject

/-- The walk over supertrait clauses: `stack` holds the bounds to visit, the last
pushed first. -/
def argsReachingFrom (program : Program) (wanted : TraitDeclId) (subject : SolverType) :
    Nat → List ParamBound → List ParamBound → List (List SolverType) → Run (List (List SolverType))
  | _, [], _, reaching => .ok reaching
  | 0, _ :: _, _, _ => .error .fuel
  | fuel + 1, next :: stack, seen, reaching =>
    if next ∈ seen then argsReachingFrom program wanted subject fuel stack seen reaching
    else
      argsReachingFrom program wanted subject fuel
        ((program.clausesOf subject next).reverse ++ stack) (seen ++ [next])
        (if next.trait_ = wanted then reaching ++ [next.args] else reaching)

/-- Every argument list a bound on `subject` writing `bound` reaches `wanted`
with. -/
def argsReaching (program : Program) (fuel : Nat) (bound : ParamBound) (wanted : TraitDeclId)
    (subject : SolverType) : Run (List (List SolverType)) :=
  program.argsReachingFrom wanted subject fuel [bound] [] []

/-- Whether a bound on `subject` naming `bound` answers for `wanted`. -/
def boundReaches (program : Program) (fuel : Nat) (bound wanted : TraitDeclId)
    (subject : SolverType) : Run Bool := do
  return !(← program.argsReaching fuel (.bare bound) wanted subject).isEmpty

end Program

/-- Whether `args`, what a walk to `trait_` writes, say `wanted` at every parameter
where `wanted` says one. -/
def saysWanted (program : Program) (subject : SolverType) (trait_ : TraitDeclId)
    (wanted : List (Option SolverType)) (args : List SolverType) : Bool :=
  let args := program.perParam (some trait_) args
  wanted.zipIdx.all fun at_ =>
    match at_.1 with
    | none => true
    | some want => decide (program.argAt trait_ args[at_.2]?.join at_.2 subject = some want)

/-- Whether a bound in force on `subject` answers `trait_` at `wanted`. -/
def boundAnswers (program : Program) (fuel : Nat) (subject : SolverType) (bound : ParamBound)
    (trait_ : TraitDeclId) (wanted : List SolverType) : Run Bool := do
  let wanted := program.perParam (some trait_) wanted
  return (← program.argsReaching fuel bound trait_ subject).any
    (saysWanted program subject trait_ wanted)

end Wado.TraitSolver
