/-
The arena IR as trees: statements, expressions and pool values are nodes of one type.
-/
import Mathlib.Algebra.Order.Ring.Nat
import Mathlib.Data.List.Basic
import Mathlib.Tactic.Common

namespace Wado.Nir

/-- An integer type of at most 64 bits. -/
structure IntType where
  signed : Bool
  width : Nat
deriving DecidableEq, Repr

namespace IntType

/-- A pattern of 64 bits, widened by the signedness of its type. -/
def widen (type : IntType) (bits : UInt64) : Int :=
  if type.signed then bits.toInt64.toInt else bits.toNat

/-- The number a pattern stands for at its type, which looks at no bit past the width. -/
def number (type : IntType) (bits : UInt64) : Int :=
  if type.signed then Int.bmod bits.toNat (2 ^ type.width) else (bits.toNat % 2 ^ type.width : Nat)

end IntType

/-- An integer constant of the value pool: its pattern is sign-extended where its type is
signed, and zero-extended elsewhere. -/
structure IntConst where
  type : IntType
  bits : UInt64
  extended : type.widen bits = type.number bits
deriving DecidableEq

inductive Pattern (Pat : Type)
  | literal (key : Int)
  | wildcard
  | binding (index : Nat)
  /-- Any other pattern, with the locals that it binds. -/
  | other (head : Pat) (bindings : List Nat)
deriving DecidableEq, Repr

inductive Node (Head Pat Const : Type)
  | int (value : IntConst)
  /-- Any other constant of the pool. -/
  | constant (value : Const)
  /-- A bare local, of the skeleton or promoted into the pool. -/
  | localVar (promoted : Bool) (index : Nat)
  | eq (left right : Node Head Pat Const)
  /-- A projection that shares its operand's storage: a field, an element, a payload, a cast,
  `&` or `*`. -/
  | project (head : Head) (inner : Node Head Pat Const) (operands : List (Node Head Pat Const))
  | mutRef (place : Node Head Pat Const)
  | assign (target value : Node Head Pat Const)
  /-- Any other operation on the values of its operands, such as a call. -/
  | op (head : Head) (operands : List (Node Head Pat Const))
  | ifElse (condition : Node Head Pat Const) (thenBlock elseBlock : List (Node Head Pat Const))
  /-- An `if` without an `else`. -/
  | ifThen (condition : Node Head Pat Const) (thenBlock : List (Node Head Pat Const))
  | matchOn (scrutinee : Node Head Pat Const) (arms : List (Node Head Pat Const))
  | arm (pattern : Pattern Pat) (guard : List (Node Head Pat Const)) (body : Node Head Pat Const)
  /-- A block with a value of its own. Without a label it is one that no `break` names. -/
  | labeled (label : Option String) (isUnit : Bool) (block : List (Node Head Pat Const))
  | loop (body : List (Node Head Pat Const))
  | letTo (isMut : Bool) (index : Nat) (value : Node Head Pat Const)
  | letDestructure (pattern : Pattern Pat) (value : Node Head Pat Const)
  /-- An expression as a statement. -/
  | expr (operand : Node Head Pat Const)
  | breakTo (label : Option String) (value : List (Node Head Pat Const))
  | continue_
  | returnWith (value : List (Node Head Pat Const))

variable {Head Pat Const : Type}

/-- The locals that a pattern binds. -/
def Pattern.binds : Pattern Pat → List Nat
  | .binding index => [index]
  | .other _ bindings => bindings
  | _ => []

namespace Node

/-- The local whose interior storage an expression reaches; a promoted local names no node. -/
def storageRoot : Node Head Pat Const → Option Nat
  | .localVar promoted index => if promoted then none else some index
  | .project _ inner _ => inner.storageRoot
  | .mutRef place => place.storageRoot
  | _ => none

/-- The local a node writes: the root of an assigned place, or of one handed out by `&mut`. -/
def localWrittenBy : Node Head Pat Const → Option Nat
  | .assign target _ => target.storageRoot
  | .mutRef place => place.storageRoot
  | _ => none

/-- Whether a node is a `let` of a local, or one of its patterns binds it. -/
def bindsLocal (index : Nat) : Node Head Pat Const → Bool
  | .letTo _ bound _ => bound == index
  | .letDestructure pattern _ => pattern.binds.contains index
  | .arm pattern _ _ => pattern.binds.contains index
  | _ => false

end Node

/-- What the search for a write finds: none, a write, or a binding of the local, where the
compiler panics. -/
inductive Scan
  | clear
  | writes
  | panics
deriving DecidableEq, Repr

mutual

/-- The search of a subtree for a write to a local, the last child first. -/
def Node.scan (index : Nat) : Node Head Pat Const → Scan
  | .int _ => .clear
  | .constant _ => .clear
  | .localVar _ _ => .clear
  | .eq left right => match right.scan index with
      | .clear => left.scan index
      | found => found
  | .project _ inner operands => match scanAll index operands with
      | .clear => inner.scan index
      | found => found
  | .mutRef place =>
    if place.storageRoot = some index then .writes else place.scan index
  | .assign target value =>
    if target.storageRoot = some index then .writes
    else match value.scan index with
      | .clear => target.scan index
      | found => found
  | .op _ operands => scanAll index operands
  | .ifElse condition thenBlock elseBlock => match scanAll index elseBlock with
      | .clear => match scanAll index thenBlock with
        | .clear => condition.scan index
        | found => found
      | found => found
  | .ifThen condition thenBlock => match scanAll index thenBlock with
      | .clear => condition.scan index
      | found => found
  | .matchOn scrutinee arms => match scanAll index arms with
      | .clear => scrutinee.scan index
      | found => found
  | .arm pattern guard body => match body.scan index with
      | .clear => match scanAll index guard with
        | .clear => if pattern.binds.contains index then .panics else .clear
        | found => found
      | found => found
  | .labeled _ _ block => scanAll index block
  | .loop body => scanAll index body
  | .letTo _ bound value => if bound = index then .panics else value.scan index
  | .letDestructure pattern value => match value.scan index with
      | .clear => if pattern.binds.contains index then .panics else .clear
      | found => found
  | .expr operand => operand.scan index
  | .breakTo _ value => scanAll index value
  | .continue_ => .clear
  | .returnWith value => scanAll index value

def scanAll (index : Nat) : List (Node Head Pat Const) → Scan
  | [] => .clear
  | node :: rest => match scanAll index rest with
      | .clear => node.scan index
      | found => found

end

mutual

/-- Whether a local is read, written or bound in a subtree. -/
def Node.mentions (index : Nat) : Node Head Pat Const → Bool
  | .int _ => false
  | .constant _ => false
  | .localVar _ i => i == index
  | .eq left right => left.mentions index || right.mentions index
  | .project _ inner operands => inner.mentions index || mentionsAny index operands
  | .mutRef place => place.mentions index
  | .assign target value => target.mentions index || value.mentions index
  | .op _ operands => mentionsAny index operands
  | .ifElse condition thenBlock elseBlock =>
    condition.mentions index || mentionsAny index thenBlock || mentionsAny index elseBlock
  | .ifThen condition thenBlock => condition.mentions index || mentionsAny index thenBlock
  | .matchOn scrutinee arms => scrutinee.mentions index || mentionsAny index arms
  | .arm pattern guard body =>
    pattern.binds.contains index || mentionsAny index guard || body.mentions index
  | .labeled _ _ block => mentionsAny index block
  | .loop body => mentionsAny index body
  | .letTo _ bound value => bound == index || value.mentions index
  | .letDestructure pattern value => pattern.binds.contains index || value.mentions index
  | .expr operand => operand.mentions index
  | .breakTo _ value => mentionsAny index value
  | .continue_ => false
  | .returnWith value => mentionsAny index value

def mentionsAny (index : Nat) : List (Node Head Pat Const) → Bool
  | [] => false
  | node :: rest => node.mentions index || mentionsAny index rest

end

mutual

/-- Whether a local is assigned or bound in a subtree. -/
def Node.sets (index : Nat) : Node Head Pat Const → Bool
  | .int _ => false
  | .constant _ => false
  | .localVar _ _ => false
  | .eq left right => left.sets index || right.sets index
  | .project _ inner operands => inner.sets index || setsAny index operands
  | .mutRef place => place.sets index
  | .assign target value =>
    target.storageRoot == some index || target.sets index || value.sets index
  | .op _ operands => setsAny index operands
  | .ifElse condition thenBlock elseBlock =>
    condition.sets index || setsAny index thenBlock || setsAny index elseBlock
  | .ifThen condition thenBlock => condition.sets index || setsAny index thenBlock
  | .matchOn scrutinee arms => scrutinee.sets index || setsAny index arms
  | .arm pattern guard body =>
    pattern.binds.contains index || setsAny index guard || body.sets index
  | .labeled _ _ block => setsAny index block
  | .loop body => setsAny index body
  | .letTo _ bound value => bound == index || value.sets index
  | .letDestructure pattern value => pattern.binds.contains index || value.sets index
  | .expr operand => operand.sets index
  | .breakTo _ value => setsAny index value
  | .continue_ => false
  | .returnWith value => setsAny index value

def setsAny (index : Nat) : List (Node Head Pat Const) → Bool
  | [] => false
  | node :: rest => node.sets index || setsAny index rest

end

end Wado.Nir
