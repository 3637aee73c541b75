/-
Integers folded at compile time: a value is its bit pattern, kept sign- or
zero-extended in 64 bits.
-/
import Wado.Narrow

namespace Wado.ConstEval

/-- The integer primitives. -/
inductive PrimitiveType
  | i8
  | i16
  | i32
  | i64
  | u8
  | u16
  | u32
  | u64
deriving DecidableEq, Repr

def isSignedInt : PrimitiveType → Bool
  | .i8 | .i16 | .i32 | .i64 => true
  | .u8 | .u16 | .u32 | .u64 => false

def intBitWidth : PrimitiveType → Nat
  | .i8 | .u8 => 8
  | .i16 | .u16 => 16
  | .i32 | .u32 => 32
  | .i64 | .u64 => 64

inductive NirBinaryOp
  | add
  | sub
  | mul
  | div
  | mod
  | eq
  | notEq
  | lt
  | ltEq
  | gt
  | gtEq
  | and
  | or
  | bitAnd
  | bitOr
  | bitXor
  | shl
  | shr
  | notIdentical
deriving DecidableEq, Repr

inductive NirUnaryOp
  | neg
  | not
  | bitNot
  | ref
  | mutRef
  | deref
deriving DecidableEq, Repr

/-- A compile-time value an integer operator takes or gives. -/
inductive Value
  | int (value : BitVec 64) (prim : PrimitiveType)
  | bool (b : Bool)
deriving DecidableEq, Repr

/-- What a comparison answers of how its operands are ordered. -/
def NirBinaryOp.holdsFor (op : NirBinaryOp) (ordering : Ordering) : Option Bool :=
  match op with
  | .eq => some ordering.isEq
  | .notEq => some ordering.isNe
  | .lt => some ordering.isLT
  | .ltEq => some ordering.isLE
  | .gt => some ordering.isGT
  | .gtEq => some ordering.isGE
  | _ => none

/-- Truncate, or sign-extend, a bit pattern to fit the primitive. -/
def truncateInt (value : BitVec 64) : PrimitiveType → BitVec 64
  | .u8 => value &&& 0xFF
  | .u16 => value &&& 0xFFFF
  | .u32 => value &&& 0xFFFFFFFF
  | .u64 => value
  | .i8 => (value.setWidth 8).signExtend 64
  | .i16 => (value.setWidth 16).signExtend 64
  | .i32 => (value.setWidth 32).signExtend 64
  | .i64 => value

/-- `checked_div` of an unsigned integer. -/
def checkedUDiv {n : Nat} (x y : BitVec n) : Option (BitVec n) :=
  if y = 0 then none else some (x / y)

/-- `checked_div` of a signed integer: it has no quotient that does not fit. -/
def checkedSDiv {n : Nat} (x y : BitVec n) : Option (BitVec n) :=
  if y = 0 ∨ Narrow.Overflows x y then none else some (x.sdiv y)

/-- A signed integer of `n` bits, cast from a pattern and back. -/
def atSigned (n : Nat) (f : BitVec n → BitVec n → Option (BitVec n)) (lval rval : BitVec 64) :
    Option (BitVec 64) :=
  (f (lval.setWidth n) (rval.setWidth n)).map fun v => v.signExtend 64

/-- `none` where the division traps at runtime. -/
def evalIntDiv (lval rval : BitVec 64) (prim : PrimitiveType) : Option (BitVec 64) :=
  let quotient :=
    match prim with
    | .u8 | .u16 | .u32 | .u64 => checkedUDiv lval rval
    | .i8 => atSigned 8 checkedSDiv lval rval
    | .i16 => atSigned 16 checkedSDiv lval rval
    | .i32 => atSigned 32 checkedSDiv lval rval
    | .i64 => atSigned 64 checkedSDiv lval rval
  quotient.map fun quotient => truncateInt quotient prim

/-- `wrapping_rem` of a signed integer, the remainder of a dividend by -1 being 0. -/
def wrappingRem {n : Nat} (x y : BitVec n) : Option (BitVec n) :=
  some (x.srem y)

/-- `none` for a zero divisor, which traps at runtime. -/
def evalIntMod (lval rval : BitVec 64) (prim : PrimitiveType) : Option (BitVec 64) :=
  if rval = 0 then none
  else
    let remainder :=
      match prim with
      | .u8 | .u16 | .u32 | .u64 => some (lval % rval)
      | .i8 => atSigned 8 wrappingRem lval rval
      | .i16 => atSigned 16 wrappingRem lval rval
      | .i32 => atSigned 32 wrappingRem lval rval
      | .i64 => atSigned 64 wrappingRem lval rval
    remainder.map fun remainder => truncateInt remainder prim

/-- The shift amount reduced modulo the width. -/
def shiftAmount (rval : BitVec 64) (prim : PrimitiveType) : Nat :=
  (rval.setWidth 32 &&& BitVec.ofNat 32 (intBitWidth prim - 1)).toNat

def evalIntShl (lval rval : BitVec 64) (prim : PrimitiveType) : BitVec 64 :=
  truncateInt (lval <<< shiftAmount rval prim) prim

def evalIntShr (lval rval : BitVec 64) (prim : PrimitiveType) : BitVec 64 :=
  if isSignedInt prim then truncateInt (lval.sshiftRight (shiftAmount rval prim)) prim
  else truncateInt (lval >>> shiftAmount rval prim) prim

/-- The operands are ordered as 64-bit integers, which their extension keeps. -/
def ordering (lval rval : BitVec 64) (prim : PrimitiveType) : Ordering :=
  if isSignedInt prim then compare lval.toInt rval.toInt else compare lval.toNat rval.toNat

def evalIntBinary (lval : BitVec 64) (op : NirBinaryOp) (rval : BitVec 64) (prim : PrimitiveType) :
    Option Value :=
  match op with
  | .add => some (.int (truncateInt (lval + rval) prim) prim)
  | .sub => some (.int (truncateInt (lval - rval) prim) prim)
  | .mul => some (.int (truncateInt (lval * rval) prim) prim)
  | .div => (evalIntDiv lval rval prim).map fun value => .int value prim
  | .mod => (evalIntMod lval rval prim).map fun value => .int value prim
  | .eq | .notEq | .lt | .ltEq | .gt | .gtEq =>
    (op.holdsFor (ordering lval rval prim)).map .bool
  | .bitAnd => some (.int (truncateInt (lval &&& rval) prim) prim)
  | .bitOr => some (.int (truncateInt (lval ||| rval) prim) prim)
  | .bitXor => some (.int (truncateInt (lval ^^^ rval) prim) prim)
  | .shl => some (.int (evalIntShl lval rval prim) prim)
  | .shr => some (.int (evalIntShr lval rval prim) prim)
  | .and | .or | .notIdentical => none

/-- An unsigned integer has no negation. -/
def evalIntNeg (value : BitVec 64) : PrimitiveType → Option (BitVec 64)
  | .i8 => some (truncateInt ((-value.setWidth 8).signExtend 64) .i8)
  | .i16 => some (truncateInt ((-value.setWidth 16).signExtend 64) .i16)
  | .i32 => some (truncateInt ((-value.setWidth 32).signExtend 64) .i32)
  | .i64 => some (-value)
  | _ => none

def evalUnary (op : NirUnaryOp) (operand : Value) : Option Value :=
  match op, operand with
  | .neg, .int value prim => (evalIntNeg value prim).map fun v => .int v prim
  | .neg, .bool _ => none
  | .not, .bool b => some (.bool !b)
  | .not, .int _ _ => none
  | .bitNot, .int value prim => some (.int (truncateInt (~~~value) prim) prim)
  | .bitNot, .bool _ => none
  | .ref, _ | .mutRef, _ | .deref, _ => none

/-- A bit pattern of the primitive, as its values are kept. -/
structure IntValue (prim : PrimitiveType) where
  value : BitVec 64
  canonical : truncateInt value prim = value

end Wado.ConstEval

/-
The code emitted for the same operators: Wasm's instructions at 32 and 64 bits,
what they compute, and which of them an operator becomes.
-/

namespace Wado.ConstEval

/-- The instructions of one width that give a value of that width. -/
inductive BinOp
  | add
  | sub
  | mul
  | divS
  | divU
  | remS
  | remU
  | and
  | or
  | xor
  | shl
  | shrS
  | shrU
deriving DecidableEq, Repr

/-- The instructions of one width that give a truth value. -/
inductive RelOp
  | eq
  | ne
  | ltS
  | ltU
  | leS
  | leU
  | gtS
  | gtU
  | geS
  | geU
deriving DecidableEq, Repr

/-- What an instruction computes, `none` where it traps. -/
def BinOp.run {w : Nat} (op : BinOp) (x y : BitVec w) : Option (BitVec w) :=
  match op with
  | .add => some (x + y)
  | .sub => some (x - y)
  | .mul => some (x * y)
  | .divS => if y = 0 ∨ Narrow.Overflows x y then none else some (x.sdiv y)
  | .divU => if y = 0 then none else some (x / y)
  | .remS => if y = 0 then none else some (x.srem y)
  | .remU => if y = 0 then none else some (x % y)
  | .and => some (x &&& y)
  | .or => some (x ||| y)
  | .xor => some (x ^^^ y)
  -- Shift amounts are reduced modulo the width.
  | .shl => some (x <<< (y.toNat % w))
  | .shrS => some (x.sshiftRight (y.toNat % w))
  | .shrU => some (x >>> (y.toNat % w))

def RelOp.run {w : Nat} (op : RelOp) (x y : BitVec w) : Bool :=
  match op with
  | .eq => x = y
  | .ne => x ≠ y
  | .ltS => x.slt y
  | .ltU => x.ult y
  | .leS => x.sle y
  | .leU => x.ule y
  | .gtS => y.slt x
  | .gtU => y.ult x
  | .geS => y.sle x
  | .geU => y.ule x

/-- The instructions an integer operator becomes: `I32Add` is `i32 add`, `I64LtU` is
`i64Rel ltU`. -/
inductive WirInstr
  | i32Const (n : BitVec 32)
  | i64Const (n : BitVec 64)
  | i32 (op : BinOp) (left right : WirInstr)
  | i64 (op : BinOp) (left right : WirInstr)
  | i32Rel (op : RelOp) (left right : WirInstr)
  | i64Rel (op : RelOp) (left right : WirInstr)
  | i32Eqz (operand : WirInstr)
  | i32Extend8S (operand : WirInstr)
  | i32Extend16S (operand : WirInstr)
  | ite (condition thenBody elseBody : WirInstr)
  | seq (instr : WirInstr)
deriving DecidableEq, Repr

inductive WasmValue
  | i32 (v : BitVec 32)
  | i64 (v : BitVec 64)
deriving DecidableEq, Repr

/-- How running an instruction ends; `invalid` where the module would not validate. -/
inductive Outcome
  | value (v : WasmValue)
  | trap
  | invalid
deriving DecidableEq, Repr

namespace Outcome

/-- Goes on with an `i32`. -/
def asI32 (outcome : Outcome) (next : BitVec 32 → Outcome) : Outcome :=
  match outcome with
  | .value (.i32 v) => next v
  | .value (.i64 _) => .invalid
  | .trap => .trap
  | .invalid => .invalid

def asI64 (outcome : Outcome) (next : BitVec 64 → Outcome) : Outcome :=
  match outcome with
  | .value (.i64 v) => next v
  | .value (.i32 _) => .invalid
  | .trap => .trap
  | .invalid => .invalid

def ofI32 : Option (BitVec 32) → Outcome
  | some v => .value (.i32 v)
  | none => .trap

def ofI64 : Option (BitVec 64) → Outcome
  | some v => .value (.i64 v)
  | none => .trap

def ofBool (b : Bool) : Outcome :=
  .value (.i32 (if b then 1 else 0))

end Outcome

/-- Runs an instruction after its operands, the left one first. -/
def WirInstr.eval : WirInstr → Outcome
  | .i32Const n => .value (.i32 n)
  | .i64Const n => .value (.i64 n)
  | .i32 op left right =>
    left.eval.asI32 fun x => right.eval.asI32 fun y => .ofI32 (op.run x y)
  | .i64 op left right =>
    left.eval.asI64 fun x => right.eval.asI64 fun y => .ofI64 (op.run x y)
  | .i32Rel op left right =>
    left.eval.asI32 fun x => right.eval.asI32 fun y => .ofBool (op.run x y)
  | .i64Rel op left right =>
    left.eval.asI64 fun x => right.eval.asI64 fun y => .ofBool (op.run x y)
  | .i32Eqz operand => operand.eval.asI32 fun x => .ofBool (x = 0)
  | .i32Extend8S operand =>
    operand.eval.asI32 fun x => .value (.i32 ((x.setWidth 8).signExtend 32))
  | .i32Extend16S operand =>
    operand.eval.asI32 fun x => .value (.i32 ((x.setWidth 16).signExtend 32))
  | .ite condition thenBody elseBody =>
    condition.eval.asI32 fun x => if x ≠ 0 then thenBody.eval else elseBody.eval
  | .seq instr => instr.eval

/-- The scalar a primitive is represented by. -/
inductive PrimitiveKind
  | i32Signed
  | i32Unsigned
  | i64Signed
  | i64Unsigned
deriving DecidableEq, Repr

def PrimitiveKind.fromPrimitive : PrimitiveType → PrimitiveKind
  | .i8 | .i16 | .i32 => .i32Signed
  | .u8 | .u16 | .u32 => .i32Unsigned
  | .i64 => .i64Signed
  | .u64 => .i64Unsigned

/-- The same instruction at the kind's width. -/
def PrimitiveKind.binary (kind : PrimitiveKind) (op : BinOp) (left right : WirInstr) : WirInstr :=
  match kind with
  | .i32Signed | .i32Unsigned => .i32 op left right
  | .i64Signed | .i64Unsigned => .i64 op left right

/-- The instruction of the kind's width and signedness. -/
def PrimitiveKind.bySign (kind : PrimitiveKind) (signed unsigned : BinOp)
    (left right : WirInstr) : WirInstr :=
  match kind with
  | .i32Signed => .i32 signed left right
  | .i32Unsigned => .i32 unsigned left right
  | .i64Signed => .i64 signed left right
  | .i64Unsigned => .i64 unsigned left right

def PrimitiveKind.compare (kind : PrimitiveKind) (signed unsigned : RelOp)
    (left right : WirInstr) : WirInstr :=
  match kind with
  | .i32Signed => .i32Rel signed left right
  | .i32Unsigned => .i32Rel unsigned left right
  | .i64Signed => .i64Rel signed left right
  | .i64Unsigned => .i64Rel unsigned left right

/-- Signed `/` at the operand's width: a narrow dividend is shifted into the top of the
i32, where only its own least value overflows, and the quotient divided back. -/
def signedDivI32 (left right : WirInstr) (prim : PrimitiveType) : WirInstr :=
  let shift := 32 - intBitWidth prim
  if shift = 0 then .i32 .divS left right
  else
    .i32 .divS (.i32 .divS (.i32 .shl left (.i32Const (BitVec.ofNat 32 shift))) right)
      (.i32Const ((1 : BitVec 32) <<< shift))

/-- The shift amount reduced modulo a width that Wasm does not reduce by itself. -/
def narrowShiftAmount (amount : WirInstr) (prim : PrimitiveType) : WirInstr :=
  if intBitWidth prim ≥ 32 then amount
  else .i32 .and amount (.i32Const (BitVec.ofNat 32 (intBitWidth prim - 1)))

def translateBinaryOp (op : NirBinaryOp) (left right : WirInstr) (prim : PrimitiveType) :
    WirInstr :=
  let kind := PrimitiveKind.fromPrimitive prim
  match op with
  | .notIdentical => kind.compare .ne .ne left right
  | .add => kind.binary .add left right
  | .sub => kind.binary .sub left right
  | .mul => kind.binary .mul left right
  | .div =>
    match kind with
    | .i64Unsigned => .i64 .divU left right
    | .i64Signed => .i64 .divS left right
    | .i32Unsigned => .i32 .divU left right
    | .i32Signed => signedDivI32 left right prim
  | .mod => kind.bySign .remS .remU left right
  | .eq => kind.compare .eq .eq left right
  | .notEq => kind.compare .ne .ne left right
  | .lt => kind.compare .ltS .ltU left right
  | .ltEq => kind.compare .leS .leU left right
  | .gt => kind.compare .gtS .gtU left right
  | .gtEq => kind.compare .geS .geU left right
  | .and | .bitAnd => kind.binary .and left right
  | .or | .bitOr => kind.binary .or left right
  | .bitXor => kind.binary .xor left right
  | .shl => kind.binary .shl left (narrowShiftAmount right prim)
  | .shr => kind.bySign .shrS .shrU left (narrowShiftAmount right prim)

def translateUnaryOp (op : NirUnaryOp) (operand : WirInstr) (prim : PrimitiveType) : WirInstr :=
  let kind := PrimitiveKind.fromPrimitive prim
  match op with
  | .neg =>
    match kind with
    | .i64Signed | .i64Unsigned => .i64 .sub (.i64Const 0) operand
    | .i32Signed | .i32Unsigned => .i32 .sub (.i32Const 0) operand
  | .not => .i32Eqz operand
  | .bitNot =>
    match kind with
    | .i64Signed | .i64Unsigned => .i64 .xor operand (.i64Const (-1))
    | .i32Signed | .i32Unsigned => .i32 .xor operand (.i32Const (-1))
  | .ref | .mutRef | .deref => .seq operand

/-- Truncates an i32 to a type that is narrower. -/
def truncateToSubI32 (instr : WirInstr) : PrimitiveType → WirInstr
  | .i8 => .i32Extend8S instr
  | .u8 => .i32 .and instr (.i32Const 0xFF)
  | .i16 => .i32Extend16S instr
  | .u16 => .i32 .and instr (.i32Const 0xFFFF)
  | .i32 | .u32 | .i64 | .u64 => instr

/-- The operators whose result is a truth value already. -/
def NirBinaryOp.givesBool : NirBinaryOp → Bool
  | .eq | .notEq | .lt | .ltEq | .gt | .gtEq | .and | .or | .notIdentical => true
  | _ => false

def emitBinaryWir (op : NirBinaryOp) (left right : WirInstr) (prim : PrimitiveType) : WirInstr :=
  if op = .and then .ite left right (.i32Const 0)
  else if op = .or then .ite left (.i32Const 1) right
  else
    let result := translateBinaryOp op left right prim
    if op.givesBool then result else truncateToSubI32 result prim

def emitUnaryWir (op : NirUnaryOp) (operand : WirInstr) (prim : PrimitiveType) : WirInstr :=
  let result := translateUnaryOp op operand prim
  match op with
  | .neg | .bitNot => truncateToSubI32 result prim
  | _ => result

/-- A bit pattern in the primitive's register. -/
def register (value : BitVec 64) : PrimitiveType → WasmValue
  | .i64 | .u64 => .i64 value
  | _ => .i32 (value.setWidth 32)

/-- What running should end with where folding gives this answer. -/
def Outcome.ofFold : Option Value → Outcome
  | some (.int bits prim) => .value (register bits prim)
  | some (.bool b) => .ofBool b
  | none => .trap

attribute [grind =] isSignedInt intBitWidth truncateInt evalIntBinary BinOp.run translateBinaryOp
    WirInstr.eval
  truncateToSubI32

end Wado.ConstEval
