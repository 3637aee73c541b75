/-
Comparisons and unary operators, and what folding answers of the integers of a
primitive against the code emitted for the same operator.
-/
import Wado.ConstEval.Agree

namespace Wado.ConstEval

open Narrow Outcome

section Compare

variable {n : Nat} (signed : Bool)

/-- The integer the bits stand for. -/
def toInteger (x : BitVec n) : Int := if signed then x.toInt else x.toNat

theorem toInteger_inj {x y : BitVec n} : toInteger signed x = toInteger signed y ↔ x = y := by
  cases signed with
  | true => exact BitVec.toInt_inj
  | false => exact Int.ofNat_inj.trans BitVec.toNat_inj

theorem toInteger_extend {w : Nat} (h : n ≤ w) (x : BitVec n) :
    toInteger signed (extend signed w x) = toInteger signed x := by
  cases signed with
  | true => exact toInt_extend_true h x
  | false => exact congrArg Int.ofNat (toNat_extend_false h x)

theorem compare_int (a b : Int) :
    compare a b = if a < b then .lt else if a = b then .eq else .gt := rfl

theorem order_eq (x y : BitVec n) :
    order signed x y = compare (toInteger signed x) (toInteger signed y) := by
  cases signed with
  | true => rfl
  | false =>
    simp only [order, toInteger, Bool.false_eq_true, if_false, compare_int, Int.ofNat_lt,
      Int.ofNat_inj]
    rfl

/-- What each comparison answers, by the order of the integers. -/
theorem holdsFor_compare (a b : Int) :
    NirBinaryOp.holdsFor .eq (compare a b) = some (decide (a = b)) ∧
    NirBinaryOp.holdsFor .notEq (compare a b) = some (decide (a ≠ b)) ∧
    NirBinaryOp.holdsFor .lt (compare a b) = some (decide (a < b)) ∧
    NirBinaryOp.holdsFor .ltEq (compare a b) = some (decide (a ≤ b)) ∧
    NirBinaryOp.holdsFor .gt (compare a b) = some (decide (b < a)) ∧
    NirBinaryOp.holdsFor .gtEq (compare a b) = some (decide (b ≤ a)) := by
  rcases Int.lt_trichotomy a b with h | rfl | h
  · simp [compare_int, NirBinaryOp.holdsFor, h, Int.le_of_lt h, Int.ne_of_lt h,
      Int.not_lt.mpr (Int.le_of_lt h)]
  · simp [NirBinaryOp.holdsFor]
  · simp [compare_int, NirBinaryOp.holdsFor, h, Int.le_of_lt h, (Int.ne_of_lt h).symm,
      Int.not_lt.mpr (Int.le_of_lt h)]

/-- The instruction of the operands' signedness answers by the integers alone. -/
def Compares (s u : RelOp) (answer : Int → Int → Bool) : Prop :=
  ∀ (w : Nat) (x y : BitVec w),
    (if signed then s else u).run x y = answer (toInteger signed x) (toInteger signed y)

theorem compares_eq : Compares signed .eq .eq fun a b => decide (a = b) := by
  intro w x y
  simp only [toInteger_inj]
  cases signed <;> rfl

theorem compares_ne : Compares signed .ne .ne fun a b => decide (a ≠ b) := by
  intro w x y
  simp only [ne_eq, toInteger_inj]
  cases signed <;> rfl

theorem compares_lt : Compares signed .ltS .ltU fun a b => decide (a < b) := by
  intro w x y
  cases signed with
  | true => rfl
  | false => exact decide_eq_decide.mpr Int.ofNat_lt.symm

theorem compares_le : Compares signed .leS .leU fun a b => decide (a ≤ b) := by
  intro w x y
  cases signed with
  | true => rfl
  | false => exact decide_eq_decide.mpr Int.ofNat_le.symm

theorem compares_gt : Compares signed .gtS .gtU fun a b => decide (b < a) := by
  intro w x y
  cases signed with
  | true => rfl
  | false => exact compares_lt false w y x

theorem compares_ge : Compares signed .geS .geU fun a b => decide (b ≤ a) := by
  intro w x y
  cases signed with
  | true => rfl
  | false => exact compares_le false w y x

end Compare

section Binary

variable {prim : PrimitiveType} {x y z : BitVec (intBitWidth prim)} {left right : WirInstr}

theorem eval_compare {s u : RelOp} {answer : Int → Int → Bool}
    (h : Compares (isSignedInt prim) s u answer)
    (hl : left.eval = .value (register (pattern x) prim))
    (hr : right.eval = .value (register (pattern y) prim)) :
    ((PrimitiveKind.fromPrimitive prim).compare s u left right).eval =
      .ofBool (answer (toInteger (isSignedInt prim) x) (toInteger (isSignedInt prim) y)) := by
  cases hwide : isWide prim with
  | false =>
    have hle := width_narrow hwide
    rw [register_narrow hwide] at hl hr
    rw [← toInteger_extend _ hle x, ← toInteger_extend _ hle y, ← h, ← eval_i32Rel hl hr]
    cases prim with
    | i64 | u64 => cases hwide
    | _ => rfl
  | true =>
    have hle := width_le prim
    rw [register_wide hwide] at hl hr
    rw [← toInteger_extend _ hle x, ← toInteger_extend _ hle y, ← h, ← eval_i64Rel hl hr]
    cases prim with
    | i64 | u64 => rfl
    | _ => cases hwide

/-- The operators an integer has. -/
def NirBinaryOp.onIntegers : NirBinaryOp → Bool
  | .and | .or | .notIdentical => false
  | _ => true

variable {op : NirBinaryOp}

theorem emitBinaryWir_value (h : op.givesBool = false) :
    emitBinaryWir op left right prim =
      truncateToSubI32 (translateBinaryOp op left right prim) prim := by
  unfold emitBinaryWir
  rw [if_neg (by rintro rfl; cases h), if_neg (by rintro rfl; cases h), if_neg (by simp [h])]

theorem emitBinaryWir_bool (hint : op.onIntegers = true) (h : op.givesBool = true) :
    emitBinaryWir op left right prim = translateBinaryOp op left right prim := by
  unfold emitBinaryWir
  rw [if_neg (by rintro rfl; cases hint), if_neg (by rintro rfl; cases hint), if_pos h]

/-- The emitted code computes the operator at the primitive's own width. -/
theorem emitBinaryWir_pattern (hint : op.onIntegers = true)
    (hl : left.eval = .value (register (pattern x) prim))
    (hr : right.eval = .value (register (pattern y) prim)) :
    (emitBinaryWir op left right prim).eval =
      .ofFold ((compute (isSignedInt prim) op x y).map (Computed.toValue prim)) := by
  have hsame : ∀ w, intBitWidth prim ≤ w → ∀ v : BitVec (intBitWidth prim),
      (extend (isSignedInt prim) w v).setWidth (intBitWidth prim) = v :=
    fun w hw v => setWidth_extend_self _ hw v
  obtain ⟨heq, hne, hlt, hle, hgt, hge⟩ := holdsFor_compare
    (toInteger (isSignedInt prim) x) (toInteger (isSignedInt prim) y)
  cases op with
  | and | or | notIdentical => cases hint
  | add =>
    rw [emitBinaryWir_value rfl]
    refine eval_binary hl hr ?_
    intro w hw
    refine ⟨_, rfl, ?_⟩
    rw [BitVec.setWidth_add _ _ hw, hsame w hw, hsame w hw]
  | sub =>
    rw [emitBinaryWir_value rfl]
    refine eval_binary hl hr ?_
    intro w hw
    refine ⟨_, rfl, ?_⟩
    rw [setWidth_sub hw, hsame w hw, hsame w hw]
  | mul =>
    rw [emitBinaryWir_value rfl]
    refine eval_binary hl hr ?_
    intro w hw
    refine ⟨_, rfl, ?_⟩
    rw [BitVec.setWidth_mul _ _ hw, hsame w hw, hsame w hw]
  | bitAnd =>
    rw [emitBinaryWir_value rfl]
    refine eval_binary hl hr ?_
    intro w hw
    refine ⟨_, rfl, ?_⟩
    rw [BitVec.setWidth_and, hsame w hw, hsame w hw]
  | bitOr =>
    rw [emitBinaryWir_value rfl]
    refine eval_binary hl hr ?_
    intro w hw
    refine ⟨_, rfl, ?_⟩
    rw [BitVec.setWidth_or, hsame w hw, hsame w hw]
  | bitXor =>
    rw [emitBinaryWir_value rfl]
    refine eval_binary hl hr ?_
    intro w hw
    refine ⟨_, rfl, ?_⟩
    rw [BitVec.setWidth_xor, hsame w hw, hsame w hw]
  | div =>
    rw [emitBinaryWir_value rfl, eval_div hl hr, compute]
    split <;> rfl
  | mod =>
    rw [emitBinaryWir_value rfl, eval_mod hl hr, compute]
    split <;> rfl
  | shl =>
    rw [emitBinaryWir_value rfl]
    refine eval_shift hl hr ?_
    intro w hw amount hamount
    refine ⟨_, rfl, ?_⟩
    rw [hamount, BitVec.setWidth_shiftLeft_of_le hw, hsame w hw]
  | shr =>
    rw [emitBinaryWir_value rfl, translateBinaryOp, bySign_eq]
    refine eval_shift hl hr ?_
    intro w hw amount hamount
    cases hsign : isSignedInt prim with
    | true =>
      refine ⟨_, rfl, ?_⟩
      rw [hamount, setWidth_sshiftRight_extend hw]
      rfl
    | false =>
      refine ⟨_, rfl, ?_⟩
      rw [hamount, setWidth_ushiftRight_extend hw]
      rfl
  | eq =>
    rw [emitBinaryWir_bool rfl rfl, compute, order_eq, heq]
    exact eval_compare (compares_eq _) hl hr
  | notEq =>
    rw [emitBinaryWir_bool rfl rfl, compute, order_eq, hne]
    exact eval_compare (compares_ne _) hl hr
  | lt =>
    rw [emitBinaryWir_bool rfl rfl, compute, order_eq, hlt]
    exact eval_compare (compares_lt _) hl hr
  | ltEq =>
    rw [emitBinaryWir_bool rfl rfl, compute, order_eq, hle]
    exact eval_compare (compares_le _) hl hr
  | gt =>
    rw [emitBinaryWir_bool rfl rfl, compute, order_eq, hgt]
    exact eval_compare (compares_gt _) hl hr
  | gtEq =>
    rw [emitBinaryWir_bool rfl rfl, compute, order_eq, hge]
    exact eval_compare (compares_ge _) hl hr


end Binary

variable {op : NirUnaryOp}

section Unary

variable {prim : PrimitiveType} {x : BitVec (intBitWidth prim)} {operand : WirInstr}

/-- The unary operators an integer of this signedness has. -/
def NirUnaryOp.onIntegers (signed : Bool) : NirUnaryOp → Bool
  | .neg => signed
  | .bitNot => true
  | _ => false

/-- What such an operator computes of an integer of `n` bits. -/
def computeUnary {n : Nat} (op : NirUnaryOp) (x : BitVec n) : BitVec n :=
  match op with
  | .neg => -x
  | .bitNot => ~~~x
  | _ => x

theorem evalIntNeg_eq (hsign : isSignedInt prim = true) (value : BitVec 64) :
    evalIntNeg value prim =
      some (extend (isSignedInt prim) 64 (-value.setWidth (intBitWidth prim))) := by
  have hnarrow : ∀ k, k ≤ 64 → ∀ v : BitVec k,
      extend true 64 ((v.signExtend 64).setWidth k) = extend true 64 v :=
    fun k hk v => congrArg (extend true 64) (setWidth_extend_self true hk v)
  cases prim with
  | u8 | u16 | u32 | u64 => cases hsign
  | i8 | i16 | i32 => exact congrArg some ((truncateInt_eq _ _).trans (hnarrow _ (by decide) _))
  | i64 =>
    simp only [evalIntNeg, intBitWidth, extend_self, BitVec.setWidth_eq]
    rfl

theorem evalUnary_pattern (hint : op.onIntegers (isSignedInt prim) = true) :
    evalUnary op (.int (pattern x) prim) = some (.int (pattern (computeUnary op x)) prim) := by
  have hle := width_le prim
  cases op with
  | neg =>
    rw [evalUnary, evalIntNeg_eq hint, setWidth_extend_prim]
    rfl
  | bitNot =>
    rw [evalUnary, truncateInt_eq, BitVec.setWidth_not hle, setWidth_extend_prim]
    rfl
  | not | ref | mutRef | deref => cases hint

section

variable (ho : operand.eval = .value (register (pattern x) prim))
include ho

/-- Negation is emitted as a subtraction from zero. -/
theorem eval_neg :
    (emitUnaryWir .neg operand prim).eval = .value (register (pattern (-x)) prim) := by
  have hruns : Runs (isSignedInt prim) .sub 0 x (-x) := by
    intro w hw
    refine ⟨_, rfl, ?_⟩
    rw [setWidth_sub hw, setWidth_extend_self _ hw, setWidth_extend_self _ hw]
    exact BitVec.zero_sub x
  have hzero : extend (isSignedInt prim) 64 (0 : BitVec (intBitWidth prim)) = 0 :=
    extend_zero _ (width_le prim)
  cases prim with
  | i64 | u64 =>
    refine @eval_binary _ 0 x _ (.i64Const 0) operand .sub ?_ ho hruns
    rw [pattern, hzero]
    rfl
  | _ =>
    refine @eval_binary _ 0 x _ (.i32Const 0) operand .sub ?_ ho hruns
    rw [pattern, hzero]
    rfl

/-- The complement is emitted as an exclusive or with all bits set. -/
theorem eval_bitNot :
    (emitUnaryWir .bitNot operand prim).eval = .value (register (pattern (~~~x)) prim) := by
  have hlow : ∀ w, intBitWidth prim ≤ w →
      (extend (isSignedInt prim) w x ^^^ -1).setWidth (intBitWidth prim) = ~~~x := by
    intro w hw
    have hones : (-1 : BitVec w) = BitVec.allOnes w := BitVec.neg_one_eq_allOnes
    rw [hones, BitVec.xor_allOnes, BitVec.setWidth_not hw, setWidth_extend_self _ hw]
  cases hwide : isWide prim with
  | false =>
    rw [register_narrow hwide] at ho
    rw [← hlow 32 (width_narrow hwide)]
    have hxor := @eval_i32 operand (.i32Const (-1)) .xor _ _ ho rfl
    refine Eq.trans ?_ (eval_truncate_narrow hwide hxor)
    cases prim with
    | i64 | u64 => cases hwide
    | _ => rfl
  | true =>
    rw [register_wide hwide] at ho
    rw [← hlow 64 (width_le prim)]
    have hxor := @eval_i64 operand (.i64Const (-1)) .xor _ _ ho rfl
    refine Eq.trans ?_ (eval_truncate_wide hwide hxor)
    cases prim with
    | i64 | u64 => rfl
    | _ => cases hwide

end

theorem emitUnaryWir_pattern (hint : op.onIntegers (isSignedInt prim) = true)
    (ho : operand.eval = .value (register (pattern x) prim)) :
    (emitUnaryWir op operand prim).eval = .value (register (pattern (computeUnary op x)) prim) := by
  cases op with
  | neg => exact eval_neg ho
  | bitNot => exact eval_bitNot ho
  | not | ref | mutRef | deref => cases hint

end Unary
section Folding

variable {prim : PrimitiveType}

theorem IntValue.eq_pattern (v : IntValue prim) :
    v.value = pattern (v.value.setWidth (intBitWidth prim)) := by
  rw [pattern, ← truncateInt_eq, v.canonical]

theorem truncateInt_pattern (x : BitVec (intBitWidth prim)) :
    truncateInt (pattern x) prim = pattern x := by
  rw [truncateInt_eq, setWidth_extend_prim]

theorem ofFold_eq_trap {folded : Option Value} :
    ofFold folded = .trap ↔ folded = none := by
  rcases folded with _ | ⟨_ | _⟩ <;> simp [ofFold, ofBool]

/-- The operands of which no quotient, or no remainder, is computed. -/
def NoResult (op : NirBinaryOp) (l r : IntValue prim) : Prop :=
  ((op = .div ∨ op = .mod) ∧ r.value = 0) ∨ (op = .div ∧ isSignedInt prim = true ∧
      l.value.toInt = -2 ^ (intBitWidth prim - 1) ∧ r.value.toInt = -1)

theorem width_pos (prim : PrimitiveType) : 0 < intBitWidth prim := by
  cases prim <;> decide

/-- Folding an operator of two integers against the code emitted for it. -/
structure FoldsBinary (op : NirBinaryOp) (l r : IntValue prim) (left right : WirInstr) : Prop where
  same : (emitBinaryWir op left right prim).eval = .ofFold (evalIntBinary l.value op r.value prim)
  traps : evalIntBinary l.value op r.value prim = none ↔
    (emitBinaryWir op left right prim).eval = .trap
  noResult : evalIntBinary l.value op r.value prim = none ↔ NoResult op l r
  canonical : ∀ v p, evalIntBinary l.value op r.value prim = some (.int v p) →
    p = prim ∧ truncateInt v prim = v

/-- Folding an operator of one integer against the code emitted for it, which never traps. -/
def FoldsUnary (op : NirUnaryOp) (l : IntValue prim) (operand : WirInstr) : Prop :=
  ∃ v, evalUnary op (.int l.value prim) = some (.int v prim) ∧ truncateInt v prim = v ∧
    (emitUnaryWir op operand prim).eval = .value (register v prim)

theorem evalIntBinary_eq (op : NirBinaryOp) (l r : IntValue prim) :
    evalIntBinary l.value op r.value prim =
      (compute (isSignedInt prim) op (l.value.setWidth (intBitWidth prim))
        (r.value.setWidth (intBitWidth prim))).map (Computed.toValue prim) := by
  conv_lhs => rw [l.eq_pattern, r.eq_pattern]
  rw [evalIntBinary_pattern]

theorem value_eq_zero (r : IntValue prim) :
    r.value = 0 ↔ r.value.setWidth (intBitWidth prim) = 0 := by
  conv_lhs => rw [r.eq_pattern]
  exact extend_eq_zero _ (width_le prim)

theorem overflows_value (hsign : isSignedInt prim = true) (l r : IntValue prim) :
    Overflows (l.value.setWidth (intBitWidth prim)) (r.value.setWidth (intBitWidth prim)) ↔
      l.value.toInt = -2 ^ (intBitWidth prim - 1) ∧ r.value.toInt = -1 := by
  have hsame : ∀ v : IntValue prim,
      (v.value.setWidth (intBitWidth prim)).toInt = v.value.toInt := by
    intro v
    conv_rhs => rw [v.eq_pattern, pattern, hsign, toInt_extend_true (width_le prim)]
  rw [overflows_iff (width_pos prim), hsame, hsame]

theorem compute_eq_none {op : NirBinaryOp} (hint : op.onIntegers = true) (l r : IntValue prim) :
    compute (isSignedInt prim) op (l.value.setWidth (intBitWidth prim))
      (r.value.setWidth (intBitWidth prim)) = none ↔ NoResult op l r := by
  unfold NoResult
  rw [value_eq_zero]
  cases op with
  | and | or | notIdentical => cases hint
  | div =>
    have hover : isSignedInt prim = true ∧
          Overflows (l.value.setWidth (intBitWidth prim)) (r.value.setWidth (intBitWidth prim)) ↔
        isSignedInt prim = true ∧
          l.value.toInt = -2 ^ (intBitWidth prim - 1) ∧ r.value.toInt = -1 :=
      and_congr_right fun hsign => overflows_value hsign l r
    simp only [compute, ite_eq_left_iff, reduceCtorEq, imp_false, Decidable.not_not, hover]
    simp
  | mod => simp [compute]
  | _ => simp [compute, NirBinaryOp.holdsFor]

theorem folds_binary {op : NirBinaryOp} (hint : op.onIntegers = true) (l r : IntValue prim)
    {left right : WirInstr} (hl : left.eval = .value (register l.value prim))
    (hr : right.eval = .value (register r.value prim)) : FoldsBinary op l r left right := by
  have hsame : (emitBinaryWir op left right prim).eval =
      .ofFold (evalIntBinary l.value op r.value prim) := by
    rw [l.eq_pattern] at hl
    rw [r.eq_pattern] at hr
    rw [emitBinaryWir_pattern hint hl hr, evalIntBinary_eq]
  refine ⟨hsame, ?_, ?_, ?_⟩
  · rw [hsame, ofFold_eq_trap]
  · rw [evalIntBinary_eq, Option.map_eq_none_iff, compute_eq_none hint]
  · intro v p h
    rw [evalIntBinary_eq, Option.map_eq_some_iff] at h
    obtain ⟨computed, -, hvalue⟩ := h
    cases computed with
    | bool b => cases hvalue
    | int bits =>
      cases hvalue
      exact ⟨rfl, truncateInt_pattern bits⟩

theorem folds_unary (hint : op.onIntegers (isSignedInt prim) = true)
    (l : IntValue prim) {operand : WirInstr}
    (ho : operand.eval = .value (register l.value prim)) : FoldsUnary op l operand := by
  have hpattern := l.eq_pattern
  rw [hpattern] at ho
  refine ⟨_, ?_, truncateInt_pattern _, emitUnaryWir_pattern hint ho⟩
  rw [← evalUnary_pattern hint, ← hpattern]

theorem evalUnary_none (hint : op.onIntegers (isSignedInt prim) = false)
    (value : BitVec 64) : evalUnary op (.int value prim) = none := by
  cases op with
  | bitNot => cases hint
  | neg =>
    have hneg : evalIntNeg value prim = none := by
      cases prim with
      | i8 | i16 | i32 | i64 => cases hint
      | _ => rfl
    rw [evalUnary, hneg]
    rfl
  | _ => rfl

theorem evalIntBinary_none {op : NirBinaryOp} (hint : op.onIntegers = false)
    (lval rval : BitVec 64) : evalIntBinary lval op rval prim = none := by
  cases op with
  | and | or | notIdentical => rfl
  | _ => cases hint

/-- Folding agrees with the emitted code on the operators an integer has, and answers
nothing for the others. -/
theorem folding_agrees (prim : PrimitiveType) (l r : IntValue prim) {left right : WirInstr}
    (hl : left.eval = .value (register l.value prim))
    (hr : right.eval = .value (register r.value prim)) :
    (∀ op : NirBinaryOp, op.onIntegers = true → FoldsBinary op l r left right) ∧
    (∀ op : NirBinaryOp, op.onIntegers = false → evalIntBinary l.value op r.value prim = none) ∧
    (∀ op : NirUnaryOp, op.onIntegers (isSignedInt prim) = true → FoldsUnary op l left) ∧
    ∀ op : NirUnaryOp, op.onIntegers (isSignedInt prim) = false →
      evalUnary op (.int l.value prim) = none :=
  ⟨fun _ h => folds_binary h l r hl hr, fun _ h => evalIntBinary_none h _ _,
    fun _ h => folds_unary h l hl, fun _ h => evalUnary_none h _⟩

/-- The least byte divided by -1, which has no quotient in eight bits. -/
theorem folding_agrees_least : FoldsBinary .div (⟨-128, by decide⟩ : IntValue .i8) ⟨-1, by decide⟩
        (.i32Const (-128)) (.i32Const (-1)) ∧
      evalIntBinary (-128) .div (-1) .i8 = none :=
  have h := @folding_agrees .i8 ⟨-128, by decide⟩ ⟨-1, by decide⟩ (.i32Const (-128))
    (.i32Const (-1)) rfl rfl
  ⟨h.1 .div rfl, (h.1 .div rfl).noResult.mpr (Or.inr ⟨rfl, rfl, by decide, by decide⟩)⟩

/-- An unsigned integer has no negation to fold, and the code for one does not trap. -/
theorem folding_none_without_trap :
    ¬ ∀ (prim : PrimitiveType) (l : IntValue prim) (op : NirUnaryOp) (operand : WirInstr),
      operand.eval = .value (register l.value prim) → (evalUnary op (.int l.value prim) = none ↔
          (emitUnaryWir op operand prim).eval = .trap) := by
  intro h
  have htrap := (h .u32 ⟨1, by decide⟩ .neg (.i32Const 1) rfl).mp rfl
  cases htrap

end Folding

end Wado.ConstEval
