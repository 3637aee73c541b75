/-
Fusing a signed range check into one unsigned comparison.
-/
import Wado.Nir.Syntax

namespace Wado.Nir

namespace RangeCheck

inductive BinaryOp
  | eq
  | notEq
  | lt
  | ltEq
  | gt
  | gtEq
  | and
  | bitAnd
  | or
  | bitOr
  /-- An operation on numbers, or any other one. -/
  | other
deriving DecidableEq, Repr

/-- The comparison that answers the same with its operands swapped. -/
def BinaryOp.converse : BinaryOp → Option BinaryOp
  | .eq => some .eq
  | .notEq => some .notEq
  | .lt => some .gt
  | .ltEq => some .gtEq
  | .gt => some .lt
  | .gtEq => some .ltEq
  | _ => none

/-- An expression of the skeleton, or a value of the pool. -/
inductive Operand
  | expr (id : Nat)
  | value (id : Nat)
deriving DecidableEq, Repr

inductive ExprKind
  | localVar (index : Nat)
  | binary (left : Operand) (op : BinaryOp) (right : Operand)
  /-- A field access, and whether the receiver's type is a `List` or a `String`. -/
  | fieldAccess (onSequence : Bool) (fieldIndex : Nat)
  | other
deriving DecidableEq, Repr

inductive ValueKind
  | int (value : IntConst)
  | binary (lhs : Nat) (op : BinaryOp) (rhs : Nat)
  | fieldAccess (onSequence : Bool) (fieldIndex : Nat)
  | other
deriving DecidableEq

/-- Which way a fused check answers: inside the range, or outside of it. -/
inductive Shape
  | inside
  | outside
deriving DecidableEq, Repr

/-- A comparison of two operands cast to an unsigned type. -/
structure Fused where
  left : Operand
  op : BinaryOp
  right : Operand
  unsigned : IntType
deriving DecidableEq, Repr

/-- The one place that holds an expression. -/
inductive Holder
  | operandOf (id : Nat) (isRight : Bool)
  | letOf (index : Nat)
deriving DecidableEq, Repr

/-- A body, with what the passes before have found in it. -/
structure Body where
  exprs : Nat → ExprKind
  values : Nat → ValueKind
  /-- The integer type of an operand that has one. -/
  operandType : Operand → Option IntType
  isBool : Nat → Bool
  /-- The operands that copies of them stand for. -/
  binds : Nat → Option Operand
  /-- What a block that captures an operand yields. -/
  captureBlockBinding : Operand → Option Operand
  /-- Whether an operand has no effect and does not trap. -/
  isPureNontrapping : Operand → Bool
  holder : Nat → Holder
  holder_left : ∀ {id child op right}, exprs id = .binary (.expr child) op right →
    holder child = .operandOf id false
  holder_right : ∀ {id child op left}, exprs id = .binary left op (.expr child) →
    holder child = .operandOf id true
  holder_let : ∀ {index child}, binds index = some (.expr child) → holder child = .letOf index

namespace Body

variable (body : Body)

def binaryParts : Operand → Option (Operand × BinaryOp × Operand)
  | .expr id => match body.exprs id with
      | .binary left op right => some (left, op, right)
      | _ => none
  | .value id => match body.values id with
      | .binary lhs op rhs => some (.value lhs, op, .value rhs)
      | _ => none

def maxBindChain : Nat := 8

/-- The operand that a copy stands for. -/
def bindOf : Operand → Option Operand
  | .expr id => match body.exprs id with
      | .localVar index => body.binds index
      | _ => none
  | .value _ => none

def resolveFor : Nat → Operand → Operand
  | 0, cur => cur
  | hops + 1, cur => match body.bindOf cur with
      | some next => resolveFor hops next
      | none => cur

def resolve (op : Operand) : Operand := body.resolveFor maxBindChain op

def peelFor : Nat → Operand → Operand
  | 0, cur => cur
  | hops + 1, cur => match body.captureBlockBinding (body.resolve cur) with
      | some next => peelFor hops next
      | none => cur

def peelCaptureBlock (op : Operand) : Operand := body.peelFor maxBindChain op

/-- The field of a `List` or `String` that holds its length. -/
def lenIndex : Nat := 1

/-- Whether an operand itself reads a length. -/
def readsLength : Operand → Bool
  | .expr id => match body.exprs id with
      | .fieldAccess onSequence fieldIndex => fieldIndex == lenIndex && onSequence
      | _ => false
  | .value id => match body.values id with
      | .fieldAccess onSequence fieldIndex => fieldIndex == lenIndex && onSequence
      | _ => false

def isSeqLength (op : Operand) : Bool :=
  body.readsLength (body.resolve (body.peelCaptureBlock op))

def poolIntConst (id : Nat) : Option Int :=
  match body.values id with
  | .int value =>
    if value.type.signed ∨ value.bits.toNat < 2 ^ 63 then some value.bits.toInt64.toInt else none
  | _ => none

def parseConstI64 (op : Operand) : Option Int :=
  match body.resolve op with
  | .value id => body.poolIntConst id
  | .expr _ => none

def operandSame (a b : Operand) : Bool :=
  match body.resolve a, body.resolve b with
  | .expr ea, .expr eb => ea == eb || match body.exprs ea, body.exprs eb with
      | .localVar ia, .localVar ib => ia == ib
      | _, _ => false
  | .value va, .value vb => va == vb
  | _, _ => false

/-- A comparison with its operation turned to `<` or `<=`. -/
def ordered (op : Operand) : Option (Operand × BinaryOp × Operand) := do
  let (left, kind, right) ← body.binaryParts op
  match kind with
  | .lt => some (left, kind, right)
  | .ltEq => some (left, kind, right)
  | .gt => some (right, ← kind.converse, left)
  | .gtEq => some (right, ← kind.converse, left)
  | _ => none

/-- The `x` of `0 <= x`, or of `x < 0`. -/
def zeroSide (op : Operand) (shape : Shape) : Option Operand := do
  let (left, kind, right) ← body.ordered op
  match shape, kind with
  | .inside, .ltEq => if body.parseConstI64 left = some 0 then some right else none
  | .inside, .lt => if body.parseConstI64 left = some (-1) then some right else none
  | .outside, .lt => if body.parseConstI64 right = some 0 then some left else none
  | .outside, .ltEq => if body.parseConstI64 right = some (-1) then some left else none
  | _, _ => none

def nonNegative (op : Operand) : Bool :=
  body.isSeqLength op || (body.parseConstI64 op).any (0 ≤ ·)

/-- The sides of `x < n`, or of `n < x`, where `n` is known not to be negative. -/
def boundSide (op x : Operand) (shape : Shape) : Option (Operand × BinaryOp × Operand) := do
  let (left, kind, right) ← body.ordered op
  let (index, bound) := match shape with
    | .inside => (left, right)
    | .outside => (right, left)
  if body.operandSame index x && body.nonNegative bound then some (left, kind, right) else none

/-- The unsigned type of the width of a signed one. -/
def unsignedOf (type : IntType) : Option IntType :=
  if type = ⟨true, 32⟩ then some ⟨false, 32⟩
  else if type = ⟨true, 64⟩ then some ⟨false, 64⟩
  else none

/-- What two halves fuse into, the zero side and then the bound side. -/
def halves (zero bound : Operand) (shape : Shape) : Option (Operand × BinaryOp × Operand) := do
  let x ← body.zeroSide zero shape
  body.boundSide bound x shape

/-- What an expression fuses into, its halves in either order. -/
def fused (id : Nat) : Option (Operand × BinaryOp × Operand) :=
  match body.exprs id with
  | .binary left op right => do
    let shape ← match op with
      | .and => some Shape.inside
      | .bitAnd => some Shape.inside
      | .or => some Shape.outside
      | .bitOr => some Shape.outside
      | _ => none
    if !body.isBool id || !body.isPureNontrapping right then none
    else (body.halves left right shape).or (body.halves right left shape)
  | _ => none

/-- What the rule makes of an expression. -/
def applyExpr (id : Nat) : Option Fused := do
  let (left, op, right) ← body.fused id
  let unsigned ← (body.operandType left).bind unsignedOf
  return ⟨left, op, right, unsigned⟩

end Body

end RangeCheck

end Wado.Nir
