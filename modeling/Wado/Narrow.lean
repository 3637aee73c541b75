/-
Values of one width held in a wider register, sign- or zero-extended: which
operations on the register are those at the value's own width.
-/
import Mathlib.Algebra.Order.Ring.Nat
import Mathlib.Algebra.Ring.Int.Defs
import Mathlib.Tactic.Common

namespace Wado.Narrow

open BitVec

variable {n m : Nat}

/-- A value in a register of `m` bits. -/
def extend (signed : Bool) (m : Nat) (x : BitVec n) : BitVec m :=
  if signed then x.signExtend m else x.setWidth m

@[simp] theorem extend_true (x : BitVec n) : extend true m x = x.signExtend m := rfl

@[simp] theorem extend_false (x : BitVec n) : extend false m x = x.setWidth m := rfl

variable (signed : Bool)

@[simp] theorem extend_self (x : BitVec n) : extend signed n x = x := by
  cases signed <;> simp

variable {x y : BitVec n}

section Widths

/-- The low bits of a register are the value in a narrower one. -/
theorem setWidth_extend {k : Nat} (hm : k ≤ m) (x : BitVec n) :
    (extend signed m x).setWidth k = extend signed k x := by
  cases signed with
  | false =>
    rw [extend_false, extend_false, setWidth_setWidth_of_le _ hm]
  | true =>
    rw [extend_true, extend_true]
    apply eq_of_getLsbD_eq
    intro i hi
    rw [getLsbD_setWidth, getLsbD_signExtend, getLsbD_signExtend]
    simp only [hi, decide_true, Bool.true_and, Nat.lt_of_lt_of_le hi hm]

section

variable (h : n ≤ m)
include h

theorem setWidth_extend_self (x : BitVec n) :
    (extend signed m x).setWidth n = x := by
  rw [setWidth_extend signed h, extend_self]

theorem extend_inj :
    extend signed m x = extend signed m y ↔ x = y := by
  constructor
  · intro heq
    rw [← setWidth_extend_self signed h x, heq, setWidth_extend_self signed h]
  · rintro rfl
    rfl

theorem extend_zero : extend signed m (0#n) = 0#m := by
  cases signed with
  | false => simp
  | true =>
    apply eq_of_toInt_eq
    rw [extend_true, toInt_signExtend_of_le h, toInt_zero, toInt_zero]

theorem extend_eq_zero {x : BitVec n} : extend signed m x = 0 ↔ x = 0 :=
  (Iff.of_eq (congrArg (extend signed m x = ·) (extend_zero signed h).symm)).trans
    (extend_inj signed h)

theorem toNat_extend_false (x : BitVec n) : (extend false m x).toNat = x.toNat := by
  rw [extend_false, toNat_setWidth_of_le h]

theorem toInt_extend_true (x : BitVec n) : (extend true m x).toInt = x.toInt := by
  rw [extend_true, toInt_signExtend_of_le h]

theorem toNat_extend_mod (x : BitVec n) {d : Nat} (hd : d ∣ 2 ^ n) :
    (extend signed m x).toNat % d = x.toNat % d := by
  have hx := congrArg BitVec.toNat (setWidth_extend_self signed h x)
  rw [toNat_setWidth] at hx
  rw [← hx, Nat.mod_mod_of_dvd _ hd]

end

end Widths

/-- The low bits of a difference are those of the low bits. -/
theorem setWidth_sub (h : n ≤ m) (a b : BitVec m) :
    (a - b).setWidth n = a.setWidth n - b.setWidth n := by
  rw [sub_eq_add_neg, sub_eq_add_neg, setWidth_add _ _ h,
    setWidth_neg_of_le h]

section Shifts

theorem setWidth_ushiftRight_extend (h : n ≤ m) (x : BitVec n) (k : Nat) :
    (extend false m x >>> k).setWidth n = x >>> k := by
  have hsame : extend false m x >>> k = extend false m (x >>> k) := by
    apply eq_of_toNat_eq
    rw [toNat_ushiftRight, toNat_extend_false h, toNat_extend_false h,
      toNat_ushiftRight]
  rw [hsame, setWidth_extend_self false h]

theorem setWidth_sshiftRight_extend (h : n ≤ m) (x : BitVec n) (k : Nat) :
    ((extend true m x).sshiftRight k).setWidth n = x.sshiftRight k := by
  have hsame : (extend true m x).sshiftRight k = extend true m (x.sshiftRight k) := by
    apply eq_of_toInt_eq
    rw [toInt_sshiftRight, toInt_extend_true h, toInt_extend_true h,
      toInt_sshiftRight]
  rw [hsame, setWidth_extend_self true h]

end Shifts

section Division

theorem udiv_extend (h : n ≤ m) (x y : BitVec n) :
    extend false m x / extend false m y = extend false m (x / y) := by
  apply eq_of_toNat_eq
  rw [toNat_udiv, toNat_extend_false h, toNat_extend_false h, toNat_extend_false h,
    toNat_udiv]

theorem umod_extend (h : n ≤ m) (x y : BitVec n) :
    extend false m x % extend false m y = extend false m (x % y) := by
  apply eq_of_toNat_eq
  rw [toNat_umod, toNat_extend_false h, toNat_extend_false h, toNat_extend_false h,
    toNat_umod]

theorem srem_extend (h : n ≤ m) (x y : BitVec n) :
    (extend true m x).srem (extend true m y) = extend true m (x.srem y) := by
  apply eq_of_toInt_eq
  rw [toInt_srem, toInt_extend_true h, toInt_extend_true h, toInt_extend_true h,
    toInt_srem]

/-- Truncating twice toward zero truncates once. -/
theorem tdiv_tdiv (a b : Int) (c : Nat) : (a.tdiv b).tdiv c = a.tdiv (b * c) := by
  have hnat : ∀ p q : Nat, ((p : Int).tdiv q).tdiv c = (p : Int).tdiv (q * c) := by
    intro p q
    rw [← Int.natCast_mul, ← Int.ofNat_tdiv, ← Int.ofNat_tdiv, ← Int.ofNat_tdiv,
      Nat.div_div_eq_div_mul]
  obtain ⟨p, rfl | rfl⟩ := a.eq_nat_or_neg <;> obtain ⟨q, rfl | rfl⟩ := b.eq_nat_or_neg <;>
    simp only [Int.neg_tdiv, Int.tdiv_neg, Int.neg_mul, Int.neg_neg, hnat]

/-- Where the signed quotient does not fit. -/
def Overflows (x y : BitVec n) : Prop := x = BitVec.intMin n ∧ y = -1#n

instance (x y : BitVec n) : Decidable (Overflows x y) := inferInstanceAs (Decidable (_ ∧ _))

theorem toInt_neg_one (h : 0 < n) : (-1#n).toInt = -1 := by
  rw [neg_one_eq_allOnes, toInt_allOnes, if_pos h]

theorem toInt_sdiv (h : ¬ Overflows x y) :
    (x.sdiv y).toInt = x.toInt.tdiv y.toInt := by
  apply toInt_sdiv_of_ne_or_ne
  by_cases hx : x = BitVec.intMin n
  · exact Or.inr fun hy => h ⟨hx, hy⟩
  · exact Or.inl hx

theorem overflows_iff (h : 0 < n) :
    Overflows x y ↔ x.toInt = -2 ^ (n - 1) ∧ y.toInt = -1 := by
  rw [Overflows, ← toInt_inj, ← toInt_inj, toInt_intMin_of_pos h,
    toInt_neg_one h]

section Top

variable {k : Nat}

section

variable (hn : 2 ≤ n)
include hn

theorem toInt_twoPow : (BitVec.twoPow (n + k) k).toInt = 2 ^ k := by
  rw [BitVec.toInt_twoPow, if_neg (by omega), if_neg (by omega)]

/-- A value shifted into the top of the register is exactly its multiple. -/
theorem toInt_shiftLeft_top (x : BitVec n) :
    (extend true (n + k) x <<< k).toInt = x.toInt * 2 ^ k := by
  have hlt := @BitVec.two_mul_toInt_lt n x
  have hle := @BitVec.le_two_mul_toInt n x
  have hpos : (0 : Int) < 2 ^ k := Int.pow_pos (by decide)
  rw [shiftLeft_eq_mul_twoPow, toInt_mul, toInt_extend_true (Nat.le_add_right n k),
    toInt_twoPow hn]
  apply Int.bmod_eq_of_le_mul_two
  · have := Int.mul_le_mul_of_nonneg_right hle (Int.le_of_lt hpos)
    rw [Int.natCast_pow, Int.pow_add]
    calc -(((2 : Nat) : Int) ^ n * 2 ^ k) = -((2 : Nat) : Int) ^ n * 2 ^ k := by rw [Int.neg_mul]
      _ ≤ 2 * x.toInt * 2 ^ k := this
      _ = x.toInt * 2 ^ k * 2 := by rw [Int.mul_comm 2, Int.mul_right_comm]
  · have := Int.mul_lt_mul_of_pos_right hlt hpos
    rw [Int.natCast_pow, Int.pow_add]
    calc x.toInt * 2 ^ k * 2 = 2 * x.toInt * 2 ^ k := by rw [Int.mul_comm 2, Int.mul_right_comm]
      _ < ((2 : Nat) : Int) ^ n * 2 ^ k := this

section

variable (hm : n + k = m)
include hm

theorem overflows_top :
    Overflows (extend true m x <<< k) (extend true m y) ↔ Overflows x y := by
  subst hm
  have hpos : (0 : Int) < 2 ^ k := Int.pow_pos (by decide)
  have hsplit : -(2 : Int) ^ (n + k - 1) = -2 ^ (n - 1) * 2 ^ k := by
    rw [Int.neg_mul, ← Int.pow_add]
    congr 2
    omega
  rw [overflows_iff (by omega), overflows_iff (by omega), toInt_shiftLeft_top hn,
    toInt_extend_true (Nat.le_add_right n k), hsplit, Int.mul_eq_mul_right_iff (by omega)]

theorem not_overflows_twoPow (x : BitVec m) :
    ¬ Overflows x (BitVec.twoPow m k) := by
  subst hm
  have hpos : (0 : Int) < 2 ^ k := Int.pow_pos (by decide)
  rintro ⟨-, hy⟩
  have := congrArg BitVec.toInt hy
  rw [toInt_twoPow hn, toInt_neg_one (by omega)] at this
  omega

theorem twoPow_ne_zero : BitVec.twoPow m k ≠ 0 := by
  subst hm
  have hpos : (0 : Int) < 2 ^ k := Int.pow_pos (by decide)
  intro h
  have := congrArg BitVec.toInt h
  rw [toInt_twoPow hn] at this
  simp only [ofNat_eq_ofNat, toInt_zero] at this
  omega

/-- Dividing in the top of the register and shifting back is dividing at the value's
own width. -/
theorem sdiv_top (h : ¬ Overflows x y) :
    ((extend true m x <<< k).sdiv (extend true m y)).sdiv (BitVec.twoPow m k) =
      extend true m (x.sdiv y) := by
  have hover := not_overflows_twoPow hn hm
  have htop := (overflows_top hn hm).not.mpr h
  subst hm
  have hle := Nat.le_add_right n k
  have hpos : (0 : Int) < 2 ^ k := Int.pow_pos (by decide)
  have hnat : (2 : Int) ^ k = ((2 ^ k : Nat) : Int) := by simp
  apply eq_of_toInt_eq
  rw [toInt_sdiv (hover _), toInt_sdiv htop, toInt_shiftLeft_top hn, toInt_extend_true hle,
    toInt_extend_true hle, toInt_twoPow hn, toInt_sdiv h, hnat, tdiv_tdiv, ← hnat,
    Int.mul_tdiv_mul_of_pos_left _ _ hpos]

end

end

end Top

end Division

end Wado.Narrow
