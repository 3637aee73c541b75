/-
The rules a question is answered by, each from finitely many questions in turn.
-/
import Wado.CutSearch
import Wado.TraitSolver.Holds
import Wado.Worklist

namespace Wado.TraitSolver

namespace SolverType

mutual

/-- The type and every type within it. -/
def within : SolverType → List SolverType
  | .decl head args => .decl head args :: withinAll args
  | .param index => [.param index]
  | .pack index => [.pack index]
  | .ref isMut inner => .ref isMut inner :: within inner
  | .tuple elems => .tuple elems :: withinAll elems
  | .projection base trait_ assoc args =>
    .projection base trait_ assoc args :: (within base ++ withinAll args)
  | .anyRow => [.anyRow]

def withinAll : List SolverType → List SolverType
  | [] => []
  | ty :: tys => within ty ++ withinAll tys

end

mutual

/-- What the type's projections project off, each with its trait. -/
def projected : SolverType → List (SolverType × TraitDeclId)
  | .decl _ args => projectedAll args
  | .param _ => []
  | .pack _ => []
  | .ref _ inner => projected inner
  | .tuple elems => projectedAll elems
  | .projection base trait_ _ args => projected base ++ projectedAll args ++ [(base, trait_)]
  | .anyRow => []

def projectedAll : List SolverType → List (SolverType × TraitDeclId)
  | [] => []
  | ty :: tys => projected ty ++ projectedAll tys

end

end SolverType

/-- Whether a type satisfies a trait at the arguments a bound writes. -/
structure Question where
  ty : SolverType
  trait_ : TraitDeclId
  args : List SolverType
deriving DecidableEq, Repr

namespace Matched

/-- An argument at the bindings, as written where they leave it open. -/
def argAt (state : Matched) (arg : SolverType) : SolverType :=
  (arg.mapParams state.typeAt).getD arg

/-- Every bound of an impl's parameters, of each type the match bound one to. -/
def questions (state : Matched) (impl : ImplDef) : List Question :=
  impl.params.zipIdx.flatMap fun param =>
    match state.bindingAt param.2 with
    | none => []
    | some binding =>
      param.1.bounds.flatMap fun bound =>
        binding.elements.map fun element =>
          ⟨element, bound.trait_, bound.args.map state.argAt⟩

end Matched

/-- Whether the impl's target matches the type at the bindings: it gives way to no
other impl there, and it leaves no bounded parameter open. -/
structure Applies (program : Program) (impl : ImplDef) (trait_ : TraitDeclId) (ty : SolverType)
    (state : Matched) : Prop where
  implements : impl.trait_ = some trait_
  value : impl.blanketAtRef ty = false
  targets : matchTarget impl.target ty (.unbound impl.params.length) = some state
  stands : reachedBy program trait_ ty impl.origin.yieldsTo = false
  bound : ∀ param ∈ impl.params.zipIdx, state.bindingAt param.2 = none → param.1.bounds = []

/-- Whether a bound on the type reaches the trait, through supertrait clauses, at
what the question asks. -/
def BoundReaches (program : Program) (bound : ParamBound) (question : Question) : Prop :=
  ∃ args, Worklist.Reaches (program.clausesOf question.ty) bound ⟨question.trait_, args⟩ ∧
    saysWanted program question.ty question.trait_
      (program.perParam (some question.trait_) question.args) args = true

/-- How a question is answered, and the questions that must then be answered. -/
inductive Rule (program : Program) (env : Env) : Question → List Question → Prop
  /-- The trait holds of every type. -/
  | forAll {question : Question} {traitDef : TraitDef}
      (htrait : program.traits.lookup question.trait_ = some traitDef)
      (hall : traitDef.holdsForAll = true) : Rule program env question []
  /-- A bound in force on the parameter answers it. -/
  | inForce {question : Question} {index : Nat} {bounds : List ParamBound} {bound : ParamBound}
      (hty : question.ty = .param index ∨ question.ty = .pack index)
      (hbounds : env.paramBounds[index]? = some bounds) (hbound : bound ∈ bounds)
      (hreaches : BoundReaches program bound question) : Rule program env question []
  /-- The trait declares a bound of the associated type, by the declaration alone. -/
  | declared {question : Question} {base : SolverType} {of : TraitDeclId} {assoc : AssocId}
      {args args' : List SolverType} {traitDef : TraitDef} {bounds : List TraitDeclId}
      {bound : TraitDeclId} (hty : question.ty = .projection base of assoc args)
      (htrait : program.traits.lookup of = some traitDef)
      (hbounds : traitDef.assocBounds.lookup assoc = some bounds) (hbound : bound ∈ bounds)
      (hreaches : Worklist.Reaches (program.clausesOf question.ty) (.bare bound)
        ⟨question.trait_, args'⟩) : Rule program env question []
  /-- A fact of the type's declaration. -/
  | fact {question : Question} {head : TypeDeclId} {fact : Fact}
      (hhead : factHead program question.ty = some head)
      (hfact : program.facts.lookup (head, question.trait_) = some fact) :
      Rule program env question []
  /-- An impl that applies and answers at what the question asks, once every bound
  is answered of what the match bound. -/
  | impl {question : Question} {id : ImplId} {impl : ImplDef} {state : Matched}
      (hmem : (id, impl) ∈ program.impls)
      (happlies : Applies program impl question.trait_ question.ty state)
      (hargs : answersArgs program impl question.ty none (impl.traitArgs.map state.argAt)
        question.args = true) : Rule program env question (state.questions impl)
  /-- The trait holds of every reference. -/
  | refAlways {question : Question} {isMut : Bool} {inner : SolverType} {traitDef : TraitDef}
      (hty : question.ty = .ref isMut inner)
      (htrait : program.traits.lookup question.trait_ = some traitDef)
      (hrule : traitDef.onRef = .always) : Rule program env question []
  /-- The reference inherits what its pointee holds. -/
  | refInherits {question : Question} {isMut : Bool} {inner : SolverType}
      (hty : question.ty = .ref isMut inner)
      (hrule : ∀ traitDef, program.traits.lookup question.trait_ = some traitDef →
        traitDef.onRef = .inherits) :
      Rule program env question [⟨inner, question.trait_, question.args⟩]

/-- A finite derivation of the question from the rules. -/
abbrev Derivable (program : Program) (env : Env) : Question → Prop :=
  CutSearch.Derivable (Rule program env)

/-- A program without pins, projections or newtypes, and with no copyable, never,
comparison or hash trait set. -/
structure Plain (program : Program) : Prop where
  noPins : ∀ id impl, (id, impl) ∈ program.impls → ∀ param ∈ impl.params, param.pins = []
  noProjections : ∀ id impl, (id, impl) ∈ program.impls → impl.target.projected = [] ∧
    SolverType.projectedAll impl.traitArgs = [] ∧
    ∀ param ∈ impl.params, ∀ bound ∈ param.bounds, SolverType.projectedAll bound.args = []
  noProjectedMembers : ∀ head decl, program.declarations.lookup head = some decl →
    SolverType.projectedAll decl.members = []
  noProjecting : program.projecting = []
  noNewtypes : ∀ head typeDef, program.types.lookup head = some typeDef → typeDef.newtypeBase = none
  copyable : program.copyable = none
  never : program.never = none
  comparisons : program.comparisons = none
  hash : program.hash = none

/-- No impl and no fact binds an associated type. -/
def BindsNone (program : Program) : Prop :=
  (∀ id bindings, program.assocBindings.lookup id = some bindings → bindings = []) ∧
    ∀ key fact, program.facts.lookup key = some fact → fact.assoc = []

/-- No projection is met: the question's type and the bounds in force hold none, or
nothing binds an associated type. -/
def Unprojected (program : Program) (env : Env) (ty : SolverType) : Prop :=
  BindsNone program ∨ (ty.projected = [] ∧
    ∀ bounds ∈ env.paramBounds, ∀ bound ∈ bounds, SolverType.projectedAll bound.args = [])

/-- What the code asserts of a program: a derived impl targets a declaration at its
own parameters, and a fact of the tuple declaration binds nothing. -/
structure Asserted (program : Program) : Prop where
  derived : ∀ id impl, (id, impl) ∈ program.impls → impl.origin = .derived →
    ∃ head args, impl.target = .decl head args ∧
      ∀ decl, program.declarations.lookup head = some decl → decl.params = args.length
  tupleFacts : ∀ head trait_ fact, program.tuple = some head →
    program.facts.lookup (head, trait_) = some fact → fact.assoc = []

/-- No supertrait walk runs on: a bound in force, and one a trait declares of an
associated type, reaches finitely many bounds. -/
structure FiniteClauses (program : Program) (env : Env) : Prop where
  inForce : ∀ bounds ∈ env.paramBounds, ∀ bound ∈ bounds, ∀ subject,
    { bound' | Worklist.Reaches (program.clausesOf subject) bound bound' }.Finite
  declared : ∀ of traitDef assoc bounds, program.traits.lookup of = some traitDef →
    traitDef.assocBounds.lookup assoc = some bounds → ∀ bound ∈ bounds, ∀ subject,
    { bound' | Worklist.Reaches (program.clausesOf subject) (.bare bound) bound' }.Finite

end Wado.TraitSolver

/-
The walk over supertrait clauses finds every argument list a bound reaches a trait
with, and ends where a bound reaches finitely many.
-/

namespace Wado.TraitSolver

variable {program : Program} {wanted : TraitDeclId} {subject : SolverType} {bound : ParamBound}

/-- What a walk has found of `wanted`. -/
def foundOf (wanted : TraitDeclId) (visited : List ParamBound) : List (List SolverType) :=
  (visited.filter fun found => found.trait_ = wanted).map ParamBound.args

theorem argsReachingFrom_eq (fuel : Nat) :
    ∀ stack seen reaching, program.argsReachingFrom wanted subject fuel stack seen reaching =
      match Worklist.walk (program.clausesOf subject) fuel stack seen with
      | none => .error .fuel
      | some visited => .ok (reaching ++ foundOf wanted visited) := by
  induction fuel with
  | zero =>
    intro stack seen reaching
    cases stack with
    | nil => simp [Program.argsReachingFrom, Worklist.walk, foundOf]
    | cons next stack => rfl
  | succ fuel ih =>
    intro stack seen reaching
    cases stack with
    | nil => simp [Program.argsReachingFrom, Worklist.walk, foundOf]
    | cons next stack =>
      rw [Program.argsReachingFrom, Worklist.walk]
      by_cases hseen : next ∈ seen
      · rw [if_pos hseen, if_pos hseen]
        exact ih stack seen reaching
      · rw [if_neg hseen, if_neg hseen, ih]
        cases Worklist.walk (program.clausesOf subject) fuel
            ((program.clausesOf subject next).reverse ++ stack) (seen ++ [next]) with
        | none => rfl
        | some visited =>
          by_cases hwanted : next.trait_ = wanted
          · simp [foundOf, hwanted]
          · simp [foundOf, hwanted]

theorem mem_foundOf {visited : List ParamBound} {args : List SolverType} :
    args ∈ foundOf wanted visited ↔ (⟨wanted, args⟩ : ParamBound) ∈ visited := by
  unfold foundOf
  simp only [List.mem_map, List.mem_filter, decide_eq_true_eq]
  constructor
  · rintro ⟨found, ⟨hin, rfl⟩, rfl⟩
    exact hin
  · intro hin
    exact ⟨_, ⟨hin, rfl⟩, rfl⟩

/-- With any fuel from some on, the walk from a bound answers with what the bound
reaches. -/
theorem argsReaching_ends
    (hfinite : { bound' | Worklist.Reaches (program.clausesOf subject) bound bound' }.Finite) :
    ∃ least, ∀ fuel, least ≤ fuel → ∀ wanted, ∃ reaching,
      program.argsReaching fuel bound wanted subject = .ok reaching ∧ ∀ args, args ∈ reaching ↔
          Worklist.Reaches (program.clausesOf subject) bound ⟨wanted, args⟩ := by
  obtain ⟨least, hends⟩ := Worklist.walk_ends_of_finite hfinite
  refine ⟨least, ?_⟩
  intro fuel hfuel wanted
  obtain ⟨visited, hvisited⟩ := hends fuel hfuel
  refine ⟨foundOf wanted visited, ?_, ?_⟩
  · rw [Program.argsReaching, argsReachingFrom_eq, hvisited]
    rfl
  · intro args
    rw [mem_foundOf, Worklist.mem_walk_iff hvisited]

/-- The walk's answers on every trait asked of, once it has the fuel. -/
def WalkAnswers (program : Program) (fuel : Nat) (bound : ParamBound) (subject : SolverType) :
    Prop :=
  ∀ wanted, ∃ reaching, program.argsReaching fuel bound wanted subject = .ok reaching ∧
    ∀ args, args ∈ reaching ↔ Worklist.Reaches (program.clausesOf subject) bound ⟨wanted, args⟩

theorem boundAnswers_eq {fuel : Nat} {question : Question}
    (hwalk : WalkAnswers program fuel bound question.ty) :
    ∃ answer, boundAnswers program fuel question.ty bound question.trait_ question.args =
      .ok answer ∧ (answer = true ↔ BoundReaches program bound question) := by
  obtain ⟨reaching, hreaching, hmem⟩ := hwalk question.trait_
  refine ⟨_, by rw [boundAnswers, hreaching]; rfl, ?_⟩
  rw [List.any_eq_true]
  constructor
  · rintro ⟨args, hargs, hsays⟩
    exact ⟨args, (hmem args).mp hargs, hsays⟩
  · rintro ⟨args, hreach, hsays⟩
    exact ⟨args, (hmem args).mpr hreach, hsays⟩

theorem boundReaches_eq {fuel : Nat} {bound : TraitDeclId}
    (hwalk : WalkAnswers program fuel (.bare bound) subject) :
    ∃ answer, program.boundReaches fuel bound wanted subject = .ok answer ∧ (answer = true ↔
        ∃ args, Worklist.Reaches (program.clausesOf subject) (.bare bound) ⟨wanted, args⟩) := by
  obtain ⟨reaching, hreaching, hmem⟩ := hwalk wanted
  refine ⟨_, by rw [Program.boundReaches, hreaching]; rfl, ?_⟩
  cases reaching with
  | nil =>
    constructor
    · intro h
      cases h
    · rintro ⟨args, hreach⟩
      cases (hmem args).mpr hreach
  | cons args reaching =>
    constructor
    · intro _
      exact ⟨args, (hmem args).mp List.mem_cons_self⟩
    · intro _
      rfl

/-- Some fuel serves every item of a list. -/
theorem exists_least {α : Type} {P : α → Nat → Prop} {items : List α}
    (h : ∀ item ∈ items, ∃ least, ∀ fuel, least ≤ fuel → P item fuel) :
    ∃ least, ∀ item ∈ items, ∀ fuel, least ≤ fuel → P item fuel := by
  induction items with
  | nil =>
    refine ⟨0, ?_⟩
    intro item hitem
    cases hitem
  | cons head items ih =>
    obtain ⟨least, hhead⟩ := h head List.mem_cons_self
    obtain ⟨least', hrest⟩ := ih fun item hitem => h item (List.mem_cons_of_mem _ hitem)
    refine ⟨max least least', ?_⟩
    intro item hitem fuel hfuel
    rcases List.mem_cons.mp hitem with rfl | hitem
    · exact hhead fuel (le_trans (Nat.le_max_left _ _) hfuel)
    · exact hrest item hitem fuel (le_trans (Nat.le_max_right _ _) hfuel)

end Wado.TraitSolver
