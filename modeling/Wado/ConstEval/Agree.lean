/-
Folding and the emitted code compute the same: both the operator at the primitive's
own width.
-/
import Wado.ConstEval.Fold

namespace Wado.ConstEval

open Narrow Option Outcome WirInstr BitVec

/-- A result at the width of the operands. -/
inductive Computed (n : Nat)
  | int (v : BitVec n)
  | bool (b : Bool)

/-- How two integers of `n` bits are ordered. -/
def order {n : Nat} (signed : Bool) (x y : BitVec n) : Ordering :=
  if signed then compare x.toInt y.toInt else compare x.toNat y.toNat

/-- What an operator computes of integers of `n` bits: no value where the quotient has
none, nor for the operators that integers do not have. -/
def compute {n : Nat} (signed : Bool) (op : NirBinaryOp) (x y : BitVec n) : Option (Computed n) :=
  match op with
  | .add => some (.int (x + y))
  | .sub => some (.int (x - y))
  | .mul => some (.int (x * y))
  | .div =>
    if y = 0 ∨ (signed = true ∧ Overflows x y) then none
    else some (.int (if signed then x.sdiv y else x / y))
  | .mod => if y = 0 then none else some (.int (if signed then x.srem y else x % y))
  | .eq | .notEq | .lt | .ltEq | .gt | .gtEq => (op.holdsFor (order signed x y)).map .bool
  | .bitAnd => some (.int (x &&& y))
  | .bitOr => some (.int (x ||| y))
  | .bitXor => some (.int (x ^^^ y))
  | .shl => some (.int (x <<< (y.toNat % n)))
  | .shr => some (.int (if signed then x.sshiftRight (y.toNat % n) else x >>> (y.toNat % n)))
  | .and | .or | .notIdentical => none

/-- The value of a primitive with these bits. -/
def Computed.toValue (prim : PrimitiveType) : Computed (intBitWidth prim) → Value
  | .int v => .int (extend (isSignedInt prim) 64 v) prim
  | .bool b => .bool b

section Widths

variable {prim : PrimitiveType}

theorem width_le (prim : PrimitiveType) : intBitWidth prim ≤ 64 := by
  cases prim <;> decide

theorem and_ofNat {w k : Nat} (hk : k ≤ w) (v : BitVec w) :
    v &&& BitVec.ofNat w (2 ^ k - 1) = (v.setWidth k).setWidth w := by
  have hpow := Nat.pow_le_pow_right (show 0 < 2 by decide) hk
  have hpos := Nat.two_pow_pos k
  apply eq_of_toNat_eq
  rw [toNat_and, toNat_ofNat, Nat.mod_eq_of_lt (by omega),
    Nat.and_two_pow_sub_one_eq_mod, toNat_setWidth_of_le hk, toNat_setWidth]

theorem truncateInt_eq (value : BitVec 64) (prim : PrimitiveType) :
    truncateInt value prim = extend (isSignedInt prim) 64 (value.setWidth (intBitWidth prim)) := by
  cases prim with
  | u8 => exact @and_ofNat 64 8 (by decide) value
  | u16 => exact @and_ofNat 64 16 (by decide) value
  | u32 => exact @and_ofNat 64 32 (by decide) value
  | u64 => simp [truncateInt, isSignedInt, intBitWidth]
  | i64 => simp [truncateInt, isSignedInt, intBitWidth]
  | _ => rfl

@[simp] theorem setWidth_extend_prim (x : BitVec (intBitWidth prim)) :
    (extend (isSignedInt prim) 64 x).setWidth (intBitWidth prim) = x :=
  setWidth_extend_self _ (width_le prim) x

theorem shiftAmount_eq (rval : BitVec 64) (prim : PrimitiveType) :
    shiftAmount rval prim = (rval.setWidth (intBitWidth prim)).toNat % intBitWidth prim := by
  have hmask : ∀ k, k ≤ 6 → (rval.setWidth 32 &&& BitVec.ofNat 32 (2 ^ k - 1)).toNat =
      rval.toNat % 2 ^ 32 % 2 ^ k := by
    intro k hk
    rw [and_ofNat (by omega), toNat_setWidth_of_le (by omega), toNat_setWidth,
      toNat_setWidth]
  unfold shiftAmount
  cases prim with
  | i8 | u8 =>
    refine (hmask 3 (by decide)).trans ?_
    simp only [intBitWidth, toNat_setWidth]
    omega
  | i16 | u16 =>
    refine (hmask 4 (by decide)).trans ?_
    simp only [intBitWidth, toNat_setWidth]
    omega
  | i32 | u32 =>
    refine (hmask 5 (by decide)).trans ?_
    rw [Nat.mod_mod_of_dvd _ (by decide : 2 ^ 5 ∣ 2 ^ 32)]
    simp only [intBitWidth, toNat_setWidth]
    omega
  | i64 | u64 =>
    refine (hmask 6 (by decide)).trans ?_
    simp only [intBitWidth, toNat_setWidth]
    omega

end Widths

section Fold

variable {prim : PrimitiveType} (x y : BitVec (intBitWidth prim))

/-- The pattern kept for the integer. -/
abbrev pattern (x : BitVec (intBitWidth prim)) : BitVec 64 :=
  extend (isSignedInt prim) 64 x

theorem ordering_pattern :
    ordering (pattern x) (pattern y) prim = order (isSignedInt prim) x y := by
  unfold ordering order pattern
  cases isSignedInt prim with
  | true => rw [if_pos rfl, if_pos rfl, toInt_extend_true (width_le prim),
      toInt_extend_true (width_le prim)]
  | false => rw [if_neg (by decide), if_neg (by decide), toNat_extend_false (width_le prim),
      toNat_extend_false (width_le prim)]

theorem evalIntDiv_pattern : evalIntDiv (pattern x) (pattern y) prim =
    if y = 0 ∨ (isSignedInt prim = true ∧ Overflows x y) then none
    else some (pattern (if isSignedInt prim then x.sdiv y else x / y)) := by
  have hunsigned : isSignedInt prim = false →
      ((checkedUDiv (pattern x) (pattern y)).map fun q => truncateInt q prim) =
        if y = 0 then none else some (pattern (x / y)) := by
    intro hsign
    unfold checkedUDiv pattern
    by_cases hy : y = 0
    · rw [if_pos hy, if_pos ((extend_eq_zero _ (width_le prim)).mpr hy)]
      rfl
    · rw [if_neg hy, if_neg (fun h => hy ((extend_eq_zero _ (width_le prim)).mp h)), hsign,
        udiv_extend (width_le prim), map_some, truncateInt_eq, hsign,
        setWidth_extend_self _ (width_le prim)]
  have hsigned : ((atSigned (intBitWidth prim) checkedSDiv (pattern x) (pattern y)).map
      fun q => truncateInt q prim) =
        if y = 0 ∨ Overflows x y then none else some (pattern (x.sdiv y)) := by
    unfold atSigned checkedSDiv pattern
    rw [setWidth_extend_prim, setWidth_extend_prim]
    by_cases hy : y = 0 ∨ Overflows x y
    · rw [if_pos hy, if_pos hy]
      rfl
    · rw [if_neg hy, if_neg hy, map_some, map_some, truncateInt_eq,
        ← extend_true, setWidth_extend_self _ (width_le prim)]
  cases prim with
  | i8 | i16 | i32 | i64 => exact hsigned.trans (if_congr (by simp [isSignedInt]) rfl rfl)
  | u8 | u16 | u32 | u64 => exact (hunsigned rfl).trans (if_congr (by simp [isSignedInt]) rfl rfl)

theorem evalIntMod_pattern : evalIntMod (pattern x) (pattern y) prim = if y = 0 then none
    else some (pattern (if isSignedInt prim then x.srem y else x % y)) := by
  have hzero : pattern y = 0 ↔ y = 0 := extend_eq_zero _ (width_le prim)
  have hunsigned : isSignedInt prim = false →
      truncateInt (pattern x % pattern y) prim = pattern (x % y) := by
    intro hsign
    unfold pattern
    rw [hsign, umod_extend (width_le prim), truncateInt_eq, hsign,
      setWidth_extend_self _ (width_le prim)]
  have hsigned : ((atSigned (intBitWidth prim) wrappingRem (pattern x) (pattern y)).map
      fun q => truncateInt q prim) = some (pattern (x.srem y)) := by
    unfold atSigned wrappingRem pattern
    rw [setWidth_extend_prim, setWidth_extend_prim, map_some, map_some,
      truncateInt_eq, ← extend_true, setWidth_extend_self _ (width_le prim)]
  unfold evalIntMod
  by_cases hy : y = 0
  · rw [if_pos hy, if_pos (hzero.mpr hy)]
  · rw [if_neg hy, if_neg (fun h => hy (hzero.mp h))]
    cases prim with
    | i8 | i16 | i32 | i64 => exact hsigned
    | u8 | u16 | u32 | u64 => exact congrArg some (hunsigned rfl)

/-- Folding is the operator at the primitive's width. -/
theorem evalIntBinary_pattern (op : NirBinaryOp) : evalIntBinary (pattern x) op (pattern y) prim =
      (compute (isSignedInt prim) op x y).map (Computed.toValue prim) := by
  have hle := width_le prim
  cases op with
  | add =>
    simp only [evalIntBinary, compute, map_some, Computed.toValue, truncateInt_eq,
      setWidth_add _ _ hle, setWidth_extend_prim]
  | sub =>
    simp only [evalIntBinary, compute, map_some, Computed.toValue, truncateInt_eq,
      setWidth_sub hle, setWidth_extend_prim]
  | mul =>
    simp only [evalIntBinary, compute, map_some, Computed.toValue, truncateInt_eq,
      setWidth_mul _ _ hle, setWidth_extend_prim]
  | div =>
    rw [evalIntBinary, evalIntDiv_pattern, compute]
    split <;> rfl
  | mod =>
    rw [evalIntBinary, evalIntMod_pattern, compute]
    split <;> rfl
  | bitAnd =>
    simp only [evalIntBinary, compute, map_some, Computed.toValue, truncateInt_eq,
      setWidth_and, setWidth_extend_prim]
  | bitOr =>
    simp only [evalIntBinary, compute, map_some, Computed.toValue, truncateInt_eq,
      setWidth_or, setWidth_extend_prim]
  | bitXor =>
    simp only [evalIntBinary, compute, map_some, Computed.toValue, truncateInt_eq,
      setWidth_xor, setWidth_extend_prim]
  | shl =>
    simp only [evalIntBinary, evalIntShl, compute, map_some, Computed.toValue,
      truncateInt_eq, shiftAmount_eq, setWidth_shiftLeft_of_le hle, setWidth_extend_prim]
  | shr =>
    simp only [evalIntBinary, evalIntShr, compute, map_some, Computed.toValue,
      truncateInt_eq, shiftAmount_eq, setWidth_extend_prim]
    by_cases hsign : isSignedInt prim = true
    · simp only [pattern, hsign, if_true, setWidth_sshiftRight_extend hle]
    · rw [Bool.not_eq_true] at hsign
      simp only [pattern, hsign, Bool.false_eq_true, if_false, setWidth_ushiftRight_extend hle]
  | and => rfl
  | or => rfl
  | notIdentical => rfl
  | eq | notEq | lt | ltEq | gt | gtEq =>
    rw [evalIntBinary, ordering_pattern]
    rfl

end Fold

section Emit

variable {prim : PrimitiveType} {x y z : BitVec (intBitWidth prim)} {left right : WirInstr}

theorem eval_i32 {op : BinOp} {a b : BitVec 32} (hl : left.eval = .value (.i32 a))
    (hr : right.eval = .value (.i32 b)) :
    (i32 op left right).eval = .ofI32 (op.run a b) := by
  simp only [eval, hl, hr, asI32]

theorem eval_i64 {op : BinOp} {a b : BitVec 64} (hl : left.eval = .value (.i64 a))
    (hr : right.eval = .value (.i64 b)) :
    (i64 op left right).eval = .ofI64 (op.run a b) := by
  simp only [eval, hl, hr, asI64]

theorem eval_i32Rel {op : RelOp} {a b : BitVec 32} (hl : left.eval = .value (.i32 a))
    (hr : right.eval = .value (.i32 b)) :
    (i32Rel op left right).eval = .ofBool (op.run a b) := by
  simp only [eval, hl, hr, asI32]

theorem eval_i64Rel {op : RelOp} {a b : BitVec 64} (hl : left.eval = .value (.i64 a))
    (hr : right.eval = .value (.i64 b)) :
    (i64Rel op left right).eval = .ofBool (op.run a b) := by
  simp only [eval, hl, hr, asI64]

/-- Whether the primitive is held in an i64. -/
def isWide : PrimitiveType → Bool
  | .i64 | .u64 => true
  | _ => false

theorem register_narrow (h : isWide prim = false) (x : BitVec (intBitWidth prim)) :
    register (pattern x) prim = .i32 (extend (isSignedInt prim) 32 x) := by
  cases prim with
  | i64 | u64 => cases h
  | _ => exact congrArg WasmValue.i32 (setWidth_extend _ (by decide) _)

theorem register_wide (h : isWide prim = true) (x : BitVec (intBitWidth prim)) :
    register (pattern x) prim = .i64 (extend (isSignedInt prim) 64 x) := by
  cases prim with
  | i64 | u64 => rfl
  | _ => cases h

theorem width_narrow (h : isWide prim = false) : intBitWidth prim ≤ 32 := by
  cases prim with
  | i64 | u64 => cases h
  | _ => decide

variable {instr : WirInstr}

/-- What is left of a word once truncated to the primitive. -/
theorem eval_truncate_narrow (h : isWide prim = false) {v : BitVec 32}
    (hv : instr.eval = .value (.i32 v)) :
    (truncateToSubI32 instr prim).eval =
      .value (register (pattern (v.setWidth (intBitWidth prim))) prim) := by
  rw [register_narrow h]
  cases prim with
  | i64 | u64 => cases h
  | i8 | i16 =>
    simp only [truncateToSubI32, eval, hv, asI32]
    rfl
  | u8 =>
    rw [truncateToSubI32, eval_i32 hv rfl]
    exact congrArg (fun w => value (.i32 w)) (@and_ofNat 32 8 (by decide) v)
  | u16 =>
    rw [truncateToSubI32, eval_i32 hv rfl]
    exact congrArg (fun w => value (.i32 w)) (@and_ofNat 32 16 (by decide) v)
  | i32 | u32 =>
    rw [truncateToSubI32, hv]
    simp [isSignedInt, intBitWidth]

theorem eval_truncate_trap (hv : instr.eval = .trap) :
    (truncateToSubI32 instr prim).eval = .trap := by
  cases prim <;> simp only [truncateToSubI32, eval, hv, asI32]

theorem eval_truncate_wide (h : isWide prim = true) {v : BitVec 64}
    (hv : instr.eval = .value (.i64 v)) :
    (truncateToSubI32 instr prim).eval =
      .value (register (pattern (v.setWidth (intBitWidth prim))) prim) := by
  rw [register_wide h]
  cases prim with
  | i64 | u64 =>
    rw [truncateToSubI32, hv]
    simp [isSignedInt, intBitWidth]
  | _ => cases h

/-- In a register of any width the instruction gives a word with these low bits. -/
def Runs {n : Nat} (signed : Bool) (op : BinOp) (x y z : BitVec n) : Prop :=
  ∀ w, n ≤ w → ∃ v : BitVec w,
    op.run (extend signed w x) (extend signed w y) = some v ∧ v.setWidth n = z

theorem binary_narrow (h : isWide prim = false) (op : BinOp) :
    (PrimitiveKind.fromPrimitive prim).binary op left right = .i32 op left right := by
  cases prim with
  | i64 | u64 => cases h
  | _ => rfl

theorem binary_wide (h : isWide prim = true) (op : BinOp) :
    (PrimitiveKind.fromPrimitive prim).binary op left right = .i64 op left right := by
  cases prim with
  | i64 | u64 => rfl
  | _ => cases h

/-- The instruction of the primitive's own signedness. -/
theorem bySign_eq (signed unsigned : BinOp) :
    (PrimitiveKind.fromPrimitive prim).bySign signed unsigned left right =
      (PrimitiveKind.fromPrimitive prim).binary (if isSignedInt prim then signed else unsigned)
        left right := by
  cases prim <;> rfl

theorem eval_binary {op : BinOp} (hl : left.eval = .value (register (pattern x) prim))
    (hr : right.eval = .value (register (pattern y) prim))
    (h : Runs (isSignedInt prim) op x y z) :
    (truncateToSubI32 ((PrimitiveKind.fromPrimitive prim).binary op left right) prim).eval =
      .value (register (pattern z) prim) := by
  cases hwide : isWide prim with
  | false =>
    rw [register_narrow hwide] at hl hr
    obtain ⟨v, hv, rfl⟩ := h 32 (width_narrow hwide)
    rw [binary_narrow hwide]
    exact eval_truncate_narrow hwide ((eval_i32 hl hr).trans (by rw [hv, ofI32]))
  | true =>
    rw [register_wide hwide] at hl hr
    obtain ⟨v, hv, rfl⟩ := h 64 (width_le prim)
    rw [binary_wide hwide]
    exact eval_truncate_wide hwide ((eval_i64 hl hr).trans (by rw [hv, ofI64]))

theorem eval_binary_trap {op : BinOp} (hl : left.eval = .value (register (pattern x) prim))
    (hr : right.eval = .value (register (pattern y) prim))
    (h : ∀ w, intBitWidth prim ≤ w →
      op.run (extend (isSignedInt prim) w x) (extend (isSignedInt prim) w y) = none) :
    (truncateToSubI32 ((PrimitiveKind.fromPrimitive prim).binary op left right) prim).eval =
      .trap := by
  apply eval_truncate_trap
  cases hwide : isWide prim with
  | false =>
    rw [register_narrow hwide] at hl hr
    rw [binary_narrow hwide, eval_i32 hl hr, h 32 (width_narrow hwide), ofI32]
  | true =>
    rw [register_wide hwide] at hl hr
    rw [binary_wide hwide, eval_i64 hl hr, h 64 (width_le prim), ofI64]

/-- The amount a narrow shift is by, as Wasm reduces it. -/
theorem eval_amount_narrow (hwide : isWide prim = false)
    (hr : right.eval = .value (register (pattern y) prim)) :
    ∃ amount : BitVec 32, (narrowShiftAmount right prim).eval = .value (.i32 amount) ∧
      amount.toNat % 32 = y.toNat % intBitWidth prim := by
  rw [register_narrow hwide] at hr
  have hmask : ∀ k, k ≤ 5 → 2 ^ k ∣ 2 ^ intBitWidth prim → ∃ amount : BitVec 32,
        (i32 .and right (.i32Const (BitVec.ofNat 32 (2 ^ k - 1)))).eval =
        .value (.i32 amount) ∧ amount.toNat % 32 = y.toNat % 2 ^ k := by
    intro k hk hdvd
    refine ⟨_, eval_i32 hr rfl, ?_⟩
    have hlt := Nat.le_of_dvd (by decide) (Nat.pow_dvd_pow 2 hk)
    rw [and_ofNat (by omega), toNat_setWidth_of_le (by omega), toNat_setWidth,
      toNat_extend_mod _ (width_narrow hwide) _ hdvd]
    exact Nat.mod_eq_of_lt (Nat.lt_of_lt_of_le (Nat.mod_lt _ (Nat.two_pow_pos k)) hlt)
  cases prim with
  | i64 | u64 => cases hwide
  | i8 | u8 => exact hmask 3 (by decide) (by decide)
  | i16 | u16 => exact hmask 4 (by decide) (by decide)
  | i32 | u32 => exact ⟨_, hr, toNat_extend_mod _ (width_narrow hwide) _ (by decide)⟩

theorem amount_wide (hwide : isWide prim = true) : narrowShiftAmount right prim = right := by
  cases prim with
  | i64 | u64 => rfl
  | _ => cases hwide

theorem eval_shift {op : BinOp} (hl : left.eval = .value (register (pattern x) prim))
    (hr : right.eval = .value (register (pattern y) prim))
    (h : ∀ w, intBitWidth prim ≤ w → ∀ amount : BitVec w,
      amount.toNat % w = y.toNat % intBitWidth prim →
        ∃ v, op.run (extend (isSignedInt prim) w x) amount = some v ∧
          v.setWidth (intBitWidth prim) = z) :
    (truncateToSubI32 ((PrimitiveKind.fromPrimitive prim).binary op left
      (narrowShiftAmount right prim)) prim).eval = .value (register (pattern z) prim) := by
  cases hwide : isWide prim with
  | false =>
    obtain ⟨amount, hamount, hsame⟩ := eval_amount_narrow hwide hr
    rw [register_narrow hwide] at hl
    obtain ⟨v, hv, rfl⟩ := h 32 (width_narrow hwide) amount hsame
    rw [binary_narrow hwide]
    exact eval_truncate_narrow hwide ((eval_i32 hl hamount).trans (by rw [hv, ofI32]))
  | true =>
    rw [register_wide hwide] at hl hr
    have hsame : (extend (isSignedInt prim) 64 y).toNat % 64 = y.toNat % intBitWidth prim := by
      cases prim with
      | i64 | u64 => exact toNat_extend_mod _ (by decide) _ (by decide)
      | _ => cases hwide
    obtain ⟨v, hv, rfl⟩ := h 64 (width_le prim) _ hsame
    rw [binary_wide hwide, amount_wide hwide]
    exact eval_truncate_wide hwide ((eval_i64 hl hr).trans (by rw [hv, ofI64]))

/-- A narrow signed division is done in the top of the i32. -/
theorem eval_div_top {n k : Nat} {x y : BitVec n} (hn : 2 ≤ n) (hk : n + k = 32)
    (hl : left.eval = .value (.i32 (extend true 32 x)))
    (hr : right.eval = .value (.i32 (extend true 32 y))) :
    (i32 .divS (.i32 .divS (.i32 .shl left (.i32Const (BitVec.ofNat 32 k))) right)
      (.i32Const ((1 : BitVec 32) <<< k))).eval =
        .ofI32 (if y = 0 ∨ Overflows x y then none else some (extend true 32 (x.sdiv y))) := by
  have hle : n ≤ 32 := by omega
  have hshift : (i32 .shl left (.i32Const (BitVec.ofNat 32 k))).eval =
      .value (.i32 (extend true 32 x <<< k)) := by
    rw [eval_i32 hl rfl, BinOp.run, toNat_ofNat, Nat.mod_eq_of_lt (by omega),
      Nat.mod_eq_of_lt (by omega), ofI32]
  have hfirst := @eval_i32 _ _ .divS _ _ hshift hr
  have hzero : extend true 32 y = 0 ↔ y = 0 := extend_eq_zero true hle
  by_cases htrap : y = 0 ∨ Overflows x y
  · rw [BinOp.run, if_pos (by rwa [hzero, overflows_top hn hk]), ofI32] at hfirst
    rw [if_pos htrap, eval, hfirst]
    rfl
  · rw [BinOp.run, if_neg (by rwa [hzero, overflows_top hn hk]), ofI32] at hfirst
    rw [if_neg htrap, eval_i32 hfirst rfl, BinOp.run, ← sdiv_top hn hk (fun h => htrap (Or.inr h))]
    rw [show (1 : BitVec 32) <<< k = BitVec.twoPow 32 k from rfl,
      if_neg (not_or.mpr ⟨twoPow_ne_zero hn hk, not_overflows_twoPow hn hk _⟩)]

/-- A value as wide as its register is divided as it is. -/
theorem divS_same {n : Nat} (x y : BitVec n) : BinOp.run .divS (extend true n x) (extend true n y) =
      if y = 0 ∨ Overflows x y then none else some (extend true n (x.sdiv y)) := by
  rw [extend_self, extend_self, extend_self, BinOp.run]

section

variable (hl : left.eval = .value (register (pattern x) prim))
include hl

section

variable (hr : right.eval = .value (register (pattern y) prim))
include hr

theorem eval_div :
    (truncateToSubI32 (translateBinaryOp .div left right prim) prim).eval =
      if y = 0 ∨ (isSignedInt prim = true ∧ Overflows x y) then .trap
      else .value (register (pattern (if isSignedInt prim then x.sdiv y else x / y)) prim) := by
  have hunsigned : isSignedInt prim = false →
      (truncateToSubI32 ((PrimitiveKind.fromPrimitive prim).binary .divU left right) prim).eval =
        if y = 0 then .trap else .value (register (pattern (x / y)) prim) := by
    intro hsign
    have hzero : ∀ w, intBitWidth prim ≤ w → (extend (isSignedInt prim) w y = 0 ↔ y = 0) :=
      fun w hw => extend_eq_zero _ hw
    by_cases hy : y = 0
    · rw [if_pos hy]
      refine eval_binary_trap hl hr ?_
      intro w hw
      rw [BinOp.run, if_pos ((hzero w hw).mpr hy)]
    · rw [if_neg hy]
      refine eval_binary hl hr ?_
      intro w hw
      refine ⟨_, by rw [BinOp.run, if_neg (fun h => hy ((hzero w hw).mp h))], ?_⟩
      rw [hsign, udiv_extend hw, setWidth_extend_self _ hw]
  have hsigned : ∀ instr : WirInstr, isWide prim = false → isSignedInt prim = true →
      instr.eval = .ofI32 (if y = 0 ∨ Overflows x y then none
        else some (extend true 32 (x.sdiv y))) →
      (truncateToSubI32 instr prim).eval = if y = 0 ∨ Overflows x y then .trap
        else .value (register (pattern (x.sdiv y)) prim) := by
    intro instr hwide hsign hinstr
    by_cases htrap : y = 0 ∨ Overflows x y
    · rw [if_pos htrap] at hinstr ⊢
      exact eval_truncate_trap hinstr
    · rw [if_neg htrap] at hinstr ⊢
      rw [eval_truncate_narrow hwide hinstr, setWidth_extend_self _ (width_narrow hwide)]
  cases prim with
  | u8 | u16 | u32 | u64 =>
    exact (hunsigned rfl).trans (if_congr (by simp [isSignedInt]) rfl rfl)
  | i8 =>
    rw [register_narrow rfl] at hl hr
    exact (hsigned _ rfl rfl (eval_div_top (by decide) (by decide) hl hr)).trans
      (if_congr (by simp [isSignedInt]) rfl rfl)
  | i16 =>
    rw [register_narrow rfl] at hl hr
    exact (hsigned _ rfl rfl (eval_div_top (by decide) (by decide) hl hr)).trans
      (if_congr (by simp [isSignedInt]) rfl rfl)
  | i32 =>
    rw [register_narrow rfl] at hl hr
    exact (hsigned _ rfl rfl
      ((eval_i32 hl hr).trans (congrArg ofI32 (divS_same x y)))).trans
        (if_congr (by simp [isSignedInt]) rfl rfl)
  | i64 =>
    rw [register_wide rfl] at hl hr
    refine ((eval_i64 hl hr).trans (congrArg ofI64 (divS_same x y))).trans ?_
    by_cases htrap : y = 0 ∨ Overflows x y
    · exact (congrArg ofI64 (if_pos htrap)).trans
        (if_pos (by simpa [isSignedInt] using htrap)).symm
    · exact (congrArg ofI64 (if_neg htrap)).trans
        (if_neg (by simpa [isSignedInt] using htrap)).symm

theorem eval_mod :
    (truncateToSubI32 (translateBinaryOp .mod left right prim) prim).eval = if y = 0 then .trap
      else .value (register (pattern (if isSignedInt prim then x.srem y else x % y)) prim) := by
  have hzero : ∀ w, intBitWidth prim ≤ w → (extend (isSignedInt prim) w y = 0 ↔ y = 0) :=
    fun w hw => extend_eq_zero _ hw
  rw [translateBinaryOp, bySign_eq]
  by_cases hy : y = 0
  · rw [if_pos hy]
    refine eval_binary_trap hl hr ?_
    intro w hw
    cases isSignedInt prim <;> simp only [if_true, if_false, Bool.false_eq_true, BinOp.run] <;>
      rw [if_pos ((extend_eq_zero _ hw).mpr hy)]
  · rw [if_neg hy]
    refine eval_binary hl hr ?_
    intro w hw
    have hne := fun h => hy ((hzero w hw).mp h)
    cases hsign : isSignedInt prim with
    | true =>
      rw [hsign] at hne
      refine ⟨_, by rw [if_pos rfl, BinOp.run, if_neg hne], ?_⟩
      rw [if_pos rfl, srem_extend hw, setWidth_extend_self _ hw]
    | false =>
      rw [hsign] at hne
      refine ⟨_, by rw [if_neg (by decide), BinOp.run, if_neg hne], ?_⟩
      rw [if_neg (by decide), umod_extend hw, setWidth_extend_self _ hw]

end

end

end Emit

end Wado.ConstEval
