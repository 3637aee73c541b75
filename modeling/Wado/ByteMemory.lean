/-
A byte memory read and written by little-endian 32-bit words.  Words at distinct
multiples of four do not overlap.
-/
import Mathlib.Data.List.Basic
import Mathlib.Tactic.Ring

namespace ByteMemory

/-- The little-endian word at `a`. -/
def word (bytes : Nat → UInt8) (a : Nat) : Nat :=
  (bytes a).toNat + 256 * (bytes (a + 1)).toNat + 65536 * (bytes (a + 2)).toNat +
    16777216 * (bytes (a + 3)).toNat

/-- `bytes` with `value` as the word at `a`. -/
def setWord (bytes : Nat → UInt8) (a value : Nat) : Nat → UInt8 := fun i =>
  if i = a then UInt8.ofNat value
  else if i = a + 1 then UInt8.ofNat (value / 256)
  else if i = a + 2 then UInt8.ofNat (value / 65536)
  else if i = a + 3 then UInt8.ofNat (value / 16777216)
  else bytes i

/-- `bytes` with `value` as the byte at `a`. -/
def setByte (bytes : Nat → UInt8) (a : Nat) (value : UInt8) : Nat → UInt8 := fun i =>
  if i = a then value else bytes i

variable (bytes : Nat → UInt8)

theorem word_lt (a : Nat) : word bytes a < 2 ^ 32 := by
  have h₀ := (bytes a).toNat_lt
  have h₁ := (bytes (a + 1)).toNat_lt
  have h₂ := (bytes (a + 2)).toNat_lt
  have h₃ := (bytes (a + 3)).toNat_lt
  simp only [word]
  omega

theorem word_setWord_self (a : Nat) {value : Nat}
    (hvalue : value < 2 ^ 32) : word (setWord bytes a value) a = value := by
  simp [word, setWord, UInt8.toNat_ofNat']
  omega

theorem word_congr {bytes' : Nat → UInt8} {a : Nat}
    (h : ∀ i, a ≤ i → i < a + 4 → bytes' i = bytes i) : word bytes' a = word bytes a := by
  simp only [word]
  rw [h a (by omega) (by omega), h (a + 1) (by omega) (by omega), h (a + 2) (by omega) (by omega),
    h (a + 3) (by omega) (by omega)]

/-- A byte that is not part of a word is left alone. -/
theorem setWord_of_lt {a i : Nat} (h : i < a ∨ a + 4 ≤ i) (value : Nat) :
    setWord bytes a value i = bytes i := by
  simp only [setWord]
  rw [if_neg (by omega), if_neg (by omega), if_neg (by omega), if_neg (by omega)]

/-- A word at another multiple of four is left alone. -/
theorem word_setWord_of_ne {a b : Nat} (ha : a % 4 = 0)
    (hb : b % 4 = 0) (hne : b ≠ a) (value : Nat) :
    word (setWord bytes a value) b = word bytes b :=
  word_congr bytes fun _ _ _ => setWord_of_lt bytes (by omega) value

/-- A word that a byte is not part of is left alone. -/
theorem word_setByte_of_lt {a b : Nat} (h : a < b ∨ b + 4 ≤ a)
    (value : UInt8) : word (setByte bytes a value) b = word bytes b :=
  word_congr bytes fun _ _ _ => if_neg (by omega)

end ByteMemory
