/-
Segments of a doubly linked list in a memory of words: the nodes between a
predecessor and a successor.  A node's `next` and `prev` words stand at fixed
offsets from its address.
-/
import Wado.Allocator
import Mathlib.Data.List.Nodup

namespace LinkedSegment

open List

/-- The first node of a segment, or what follows it. -/
def first (nodes : List Nat) (after : Nat) : Nat :=
  nodes.head?.getD after

/-- The last node of a segment, or what precedes it. -/
def last (nodes : List Nat) (before : Nat) : Nat :=
  nodes.getLast?.getD before

@[simp] theorem first_nil (after : Nat) : first [] after = after := rfl

@[simp] theorem first_cons (n : Nat) (nodes : List Nat) (after : Nat) :
    first (n :: nodes) after = n := rfl

@[simp] theorem last_nil (before : Nat) : last [] before = before := rfl

@[simp] theorem last_concat (nodes : List Nat) (n before : Nat) :
    last (nodes ++ [n]) before = n := by
  simp [last]

theorem first_of_head {n : Nat} {nodes : List Nat} (h : nodes.head? = some n) (after : Nat) :
    first nodes after = n := by
  simp [first, h]

theorem last_cons (n : Nat) (nodes : List Nat) (before : Nat) :
    last (n :: nodes) before = last nodes n := by
  cases nodes <;> simp [last, List.getLast?_cons]

theorem first_append (left right : List Nat) (after : Nat) :
    first (left ++ right) after = first left (first right after) := by
  cases left <;> rfl

/-- `nodes` are linked both ways, from `before` to `after`. -/
def Linked (next prev word : Nat → Nat) (before : Nat) : List Nat → Nat → Prop
  | [], _ => True
  | n :: nodes, after =>
    word (prev n) = before ∧ word (next n) = first nodes after ∧ Linked next prev word n nodes after

variable {next prev word word' : Nat → Nat}

theorem linked_append (left right : List Nat) (before after : Nat) :
    Linked next prev word before (left ++ right) after ↔
      Linked next prev word before left (first right after) ∧
        Linked next prev word (last left before) right after := by
  induction left generalizing before with
  | nil => simp [Linked]
  | cons n left ih =>
    simp only [cons_append, Linked, ih, first_append, last_cons, and_assoc]

/-- A segment stays while its nodes' words do. -/
theorem Linked.congr {before after : Nat} {nodes : List Nat}
    (h : Linked next prev word before nodes after)
    (hsame : ∀ n ∈ nodes, word' (next n) = word (next n) ∧ word' (prev n) = word (prev n)) :
    Linked next prev word' before nodes after := by
  induction nodes generalizing before with
  | nil => trivial
  | cons n nodes ih =>
    obtain ⟨hprev, hnext, hrest⟩ := h
    obtain ⟨hn, hp⟩ := hsame n mem_cons_self
    exact ⟨hp.trans hprev, hn.trans hnext, ih hrest fun m hm => hsame m (mem_cons_of_mem n hm)⟩

/-- Another successor: only the last node's `next` word changes. -/
theorem Linked.set_after {before after after' : Nat} {nodes : List Nat}
    (h : Linked next prev word before nodes after)
    (hnext : ∀ n ∈ nodes, word' (next n) = if n = last nodes before then after' else word (next n))
    (hprev : ∀ n ∈ nodes, word' (prev n) = word (prev n)) (hnodup : nodes.Nodup) :
    Linked next prev word' before nodes after' := by
  rcases eq_nil_or_concat nodes with rfl | ⟨init, m, rfl⟩
  · trivial
  · rw [concat_eq_append] at h hnext hprev hnodup ⊢
    rw [last_concat] at hnext
    obtain ⟨hinit, hm⟩ := (linked_append init [m] before after).mp h
    refine (linked_append init [m] before after').mpr ⟨hinit.congr fun n hn => ?_, ?_, ?_, trivial⟩
    · have hne : n ≠ m := fun heq =>
        (nodup_append.mp hnodup).2.2 n hn m mem_cons_self heq
      have hmem : n ∈ init ++ [m] := mem_append_left _ hn
      exact ⟨by rw [hnext n hmem, if_neg hne], hprev n hmem⟩
    · rw [hprev m (by simp)]
      exact hm.1
    · rw [hnext m (by simp), if_pos rfl]
      rfl

/-- Another predecessor: only the first node's `prev` word changes. -/
theorem Linked.set_before {before before' after : Nat} {nodes : List Nat}
    (h : Linked next prev word before nodes after)
    (hnext : ∀ n ∈ nodes, word' (next n) = word (next n))
    (hprev : ∀ n ∈ nodes, word' (prev n) =
      if n = first nodes after then before' else word (prev n)) (hnodup : nodes.Nodup) :
    Linked next prev word' before' nodes after := by
  cases nodes with
  | nil => trivial
  | cons n nodes =>
    obtain ⟨-, hn, hrest⟩ := h
    refine ⟨by rw [hprev n mem_cons_self, first_cons, if_pos rfl],
      (hnext n mem_cons_self).trans hn, hrest.congr fun m hm => ?_⟩
    have hne : m ≠ n := by
      rintro rfl
      exact (nodup_cons.mp hnodup).1 hm
    have hmem := mem_cons_of_mem n hm
    exact ⟨hnext m hmem, by rw [hprev m hmem, first_cons, if_neg hne]⟩

/-- Taking a node out: the node before it and the node after it change. -/
theorem Linked.remove {left right : List Nat} {a before after : Nat}
    (h : Linked next prev word before (left ++ a :: right) after)
    (hnodup : (left ++ a :: right).Nodup)
    (hnextLeft : ∀ n ∈ left, word' (next n) =
      if n = last left before then first right after else word (next n))
    (hprevLeft : ∀ n ∈ left, word' (prev n) = word (prev n))
    (hnextRight : ∀ n ∈ right, word' (next n) = word (next n))
    (hprevRight : ∀ n ∈ right, word' (prev n) =
      if n = first right after then last left before else word (prev n)) :
    Linked next prev word' before (left ++ right) after := by
  obtain ⟨hleft, -, -, hright⟩ := (linked_append left (a :: right) before after).mp h
  obtain ⟨hnodupLeft, hnodupRight, -⟩ := nodup_append.mp hnodup
  exact (linked_append left right before after).mpr
    ⟨hleft.set_after hnextLeft hprevLeft hnodupLeft,
      hright.set_before hnextRight hprevRight hnodupRight.of_cons⟩

/-- Putting a node in front: the node and the one it comes before change. -/
theorem Linked.push {nodes : List Nat} {a before after : Nat}
    (h : Linked next prev word before nodes after) (hnodup : nodes.Nodup)
    (hprev : word' (prev a) = before) (hnext : word' (next a) = first nodes after)
    (hnextNodes : ∀ n ∈ nodes, word' (next n) = word (next n))
    (hprevNodes : ∀ n ∈ nodes, word' (prev n) =
      if n = first nodes after then a else word (prev n)) :
    Linked next prev word' before (a :: nodes) after :=
  ⟨hprev, hnext, h.set_before hnextNodes hprevNodes hnodup⟩

end LinkedSegment

/-
The heap as a row of blocks.  A block is used, free and in the bin of its size,
or a hole: a range an operation is working on, whose tags say nothing.  Every
step of the allocator makes one block into another.
-/

namespace Wado

theorem u32Add_of_lt {a b : Nat} (h : a + b < 2 ^ 32) : u32Add a b = a + b :=
  Nat.mod_eq_of_lt h

theorem u32Sub_of_le {a b : Nat} (h : b ≤ a) (ha : a < 2 ^ 32) : u32Sub a b = a - b := by
  rw [u32Sub, show a + 2 ^ 32 - b = a - b + 2 ^ 32 by omega, Nat.add_mod_right,
    Nat.mod_eq_of_lt (by omega)]

/-- Clearing the low `k` bits of a number of at most `n`. -/
theorem and_clear_low {x n k : Nat} (hx : x < 2 ^ n) (hk : k ≤ n) :
    x &&& (2 ^ n - 2 ^ k) = x / 2 ^ k * 2 ^ k := by
  have hmask : 2 ^ n - 2 ^ k = (2 ^ (n - k) - 1) <<< k := by
    rw [Nat.shiftLeft_eq, Nat.sub_mul, one_mul, ← Nat.pow_add, Nat.sub_add_cancel hk]
  rw [hmask, ← Nat.shiftRight_eq_div_pow, ← Nat.shiftLeft_eq]
  apply Nat.eq_of_testBit_eq
  intro i
  simp only [Nat.testBit_and, Nat.testBit_shiftLeft, Nat.testBit_shiftRight,
    Nat.testBit_two_pow_sub_one]
  by_cases hi : k ≤ i
  · by_cases hin : i < n
    · simp [hi, show i - k < n - k by omega, show k + (i - k) = i by omega]
    · have hbig : x.testBit i = false :=
        Nat.testBit_lt_two_pow (Nat.lt_of_lt_of_le hx (Nat.pow_le_pow_right (by omega) (by omega)))
      simp [hbig, show k + (i - k) = i by omega]
  · simp [hi]

namespace Heap

open ByteMemory LinkedSegment

inductive Kind where
  | used
  | free
  | hole
deriving DecidableEq, Repr

structure Block where
  addr : Nat
  size : Nat
  kind : Kind
deriving DecidableEq, Repr

/-- The bit a block's tags hold beside its size. -/
def Kind.bit : Kind → Nat
  | .used => 1
  | _ => 0

theorem flSize_tag {size : Nat} (hsize : size % 16 = 0) (hlt : size + 1 < 2 ^ 32)
    (kind : Kind) : flSize (size + kind.bit) = size := by
  have hbit : kind.bit ≤ 1 := by cases kind <;> decide
  rw [flSize, and_clear_low (by omega) (by omega)]
  omega

theorem flUsed_tag {size : Nat} (hsize : size % 16 = 0) (kind : Kind) :
    flUsed (size + kind.bit) = kind.bit := by
  have hbit : kind.bit ≤ 1 := by cases kind <;> decide
  rw [flUsed, Nat.and_one_is_mod]
  omega

theorem flBin_eq {size : Nat} (h : 32 ≤ size) (hlt : size < 2 ^ 32) :
    flBin size = min ((size - 32) / 16) 32 := by
  rw [flBin, u32Sub_of_le h hlt, Nat.shiftRight_eq_div_pow]
  split <;> omega

theorem flBin_lt {size : Nat} : flBin size < 33 := by
  simp only [flBin]
  split <;> omega

theorem HeapBase.addr_mod (base : HeapBase) : base.addr % 16 = 0 := by
  rw [HeapBase.addr, pageSize]
  omega

theorem HeapBase.addr_lt (base : HeapBase) : base.addr < 2 ^ 31 :=
  base.lt

theorem flBinSlot_eq (base : HeapBase) {k : Nat} (hk : k < 33) :
    flBinSlot base k = base.addr + 8 + k * 4 := by
  have := HeapBase.addr_lt base
  rw [flBinSlot, u32Add_of_lt (a := base.addr) (by omega), Nat.mod_eq_of_lt (by omega),
    u32Add_of_lt (by omega)]

/-- `blocks` stand one after another from `first` to `end_`. -/
def Tiles : Nat → List Block → Nat → Prop
  | first, [], end_ => first = end_
  | first, b :: blocks, end_ =>
    b.addr = first ∧ b.size % 16 = 0 ∧ 32 ≤ b.size ∧ Tiles (first + b.size) blocks end_

theorem tiles_append (left right : List Block) (first end_ : Nat) :
    Tiles first (left ++ right) end_ ↔
      ∃ middle, Tiles first left middle ∧ Tiles middle right end_ := by
  induction left generalizing first with
  | nil => simp [Tiles]
  | cons b left ih =>
    simp only [List.cons_append, Tiles, ih]
    constructor
    · rintro ⟨ha, hmod, hmin, middle, hleft, hright⟩
      exact ⟨middle, ⟨ha, hmod, hmin, hleft⟩, hright⟩
    · rintro ⟨middle, ⟨ha, hmod, hmin, hleft⟩, hright⟩
      exact ⟨ha, hmod, hmin, middle, hleft, hright⟩

/-- Where a tile's blocks are: between its ends, a multiple of 16 from the first,
32 bytes or more. -/
theorem Tiles.mem {first end_ : Nat} {blocks : List Block} (h : Tiles first blocks end_)
    {b : Block} (hb : b ∈ blocks) :
    first ≤ b.addr ∧ b.addr + b.size ≤ end_ ∧ b.addr % 16 = first % 16 ∧
      b.size % 16 = 0 ∧ 32 ≤ b.size := by
  have hle : ∀ {first : Nat} {blocks : List Block}, Tiles first blocks end_ → first ≤ end_ := by
    intro first blocks h
    induction blocks generalizing first with
    | nil => exact Nat.le_of_eq h
    | cons b blocks ih =>
      have := ih h.2.2.2
      omega
  induction blocks generalizing first with
  | nil => cases hb
  | cons c blocks ih =>
    obtain ⟨ha, hmod, hmin, hrest⟩ := h
    rcases List.mem_cons.mp hb with rfl | hb
    · have := hle hrest
      exact ⟨by omega, by omega, by rw [ha], hmod, hmin⟩
    · have := ih hrest hb
      omega

theorem Tiles.length_le {first end_ : Nat} {blocks : List Block}
    (h : Tiles first blocks end_) : first + 32 * blocks.length ≤ end_ := by
  induction blocks generalizing first with
  | nil => exact Nat.le_of_eq h
  | cons b blocks ih =>
    have := ih h.2.2.2
    have := h.2.2.1
    simp only [List.length_cons]
    omega

/-- The block in the middle, and every other one beside it. -/
theorem Tiles.around {first end_ : Nat} {left right : List Block} {b : Block}
    (h : Tiles first (left ++ b :: right) end_) {c : Block} (hc : c ∈ left ∨ c ∈ right) :
    c.addr + c.size ≤ b.addr ∨ b.addr + b.size ≤ c.addr := by
  obtain ⟨middle, hleft, ha, -, -, hright⟩ := (tiles_append _ _ _ _).mp h
  rcases hc with hc | hc
  · have := hleft.mem hc
    omega
  · have := hright.mem hc
    omega

/-- Two blocks of a tile are one, or lie apart. -/
theorem Tiles.eq_or_apart {first end_ : Nat} {blocks : List Block}
    (h : Tiles first blocks end_) {b c : Block} (hb : b ∈ blocks) (hc : c ∈ blocks) :
    b = c ∨ b.addr + b.size ≤ c.addr ∨ c.addr + c.size ≤ b.addr := by
  obtain ⟨left, right, rfl⟩ := List.append_of_mem hb
  have hcases : c = b ∨ c ∈ left ∨ c ∈ right := by
    simp only [List.mem_append, List.mem_cons] at hc
    tauto
  rcases hcases with rfl | hc
  · exact Or.inl rfl
  · rcases h.around hc with h | h
    · exact Or.inr (Or.inr h)
    · exact Or.inr (Or.inl h)

/-- The 33 bins hold the free blocks, each in the list of its size. -/
structure Binned (base : HeapBase) (bytes : Nat → UInt8) (blocks : List Block)
    (bins : Nat → List Nat) : Prop where
  mem_iff : ∀ k < 33, ∀ a, a ∈ bins k ↔ ∃ b ∈ blocks, b.addr = a ∧ b.kind = .free ∧ flBin b.size = k
  nodup : ∀ k < 33, (bins k).Nodup
  head_eq : ∀ k < 33, word bytes (flBinSlot base k) = first (bins k) 0
  linked : ∀ k < 33, Linked (· + 8) (· + 12) (word bytes) 0 (bins k) 0

/-- The heap is laid out as `blocks`. -/
structure Laid (base : HeapBase) (heap : Heap) (blocks : List Block) : Prop where
  top_lt : base.addr + heap.heapOffset < 2 ^ 32
  top_le : base.addr + heap.heapOffset ≤ heap.memoryBytes
  tiles : Tiles (base.addr + 152) blocks (base.addr + heap.heapOffset)
  tags : ∀ b ∈ blocks, b.kind ≠ .hole → word heap.bytes b.addr = b.size + b.kind.bit ∧
      word heap.bytes (b.addr + b.size - 8) = b.size + b.kind.bit
  apart : ∀ b ∈ blocks, ∀ c ∈ blocks, b.addr + b.size = c.addr → ¬ (b.kind = .free ∧ c.kind = .free)
  binned : ∃ bins, Binned base heap.bytes blocks bins

variable {base : HeapBase} {heap : Heap} {blocks left right : List Block}

/-- What a block's place in the heap says of its numbers. -/
theorem Laid.mem (h : Laid base heap blocks) {b : Block} (hb : b ∈ blocks) :
    base.addr + 152 ≤ b.addr ∧ b.addr + b.size ≤ base.addr + heap.heapOffset ∧
      b.addr % 16 = 8 ∧ b.size % 16 = 0 ∧ 32 ≤ b.size ∧ b.addr + b.size < 2 ^ 32 ∧
      b.addr + b.size ≤ heap.memoryBytes := by
  have hmem := h.tiles.mem hb
  have hmod := HeapBase.addr_mod base
  have := h.top_lt
  have := h.top_le
  omega

theorem load_of_le {addr : Nat} (h : addr + 4 ≤ heap.memoryBytes) :
    heap.load addr = some (word heap.bytes addr) := by
  rw [load, if_pos h]

theorem store_of_le {addr : Nat} (h : addr + 4 ≤ heap.memoryBytes) (value : Nat) :
    heap.store addr value = some { heap with bytes := setWord heap.bytes addr value } := by
  rw [store, if_pos h]

section

variable (h : Laid base heap blocks)
include h

/-- Blocks of one heap at one address are one. -/
theorem Laid.eq_of_addr {b c : Block} (hb : b ∈ blocks)
    (hc : c ∈ blocks) (haddr : b.addr = c.addr) : b = c := by
  have := h.mem hb
  have := h.mem hc
  rcases h.tiles.eq_or_apart hb hc with heq | hapart
  · exact heq
  · omega

/-- A bin's nodes are the addresses of blocks. -/
theorem Laid.bin_mem {bins : Nat → List Nat}
    (hbins : Binned base heap.bytes blocks bins) {k a : Nat} (hk : k < 33) (ha : a ∈ bins k) :
    base.addr + 152 ≤ a ∧ a % 16 = 8 ∧ a + 32 ≤ heap.memoryBytes ∧ a + 32 < 2 ^ 32 := by
  obtain ⟨b, hb, rfl, -, -⟩ := (hbins.mem_iff k hk a).mp ha
  have := h.mem hb
  omega

/-- A block is in one bin only. -/
theorem Laid.bin_unique {bins : Nat → List Nat}
    (hbins : Binned base heap.bytes blocks bins) {j k a : Nat} (hj : j < 33) (hk : k < 33)
    (haj : a ∈ bins j) (hak : a ∈ bins k) : j = k := by
  obtain ⟨b, hb, hba, -, hbj⟩ := (hbins.mem_iff j hj a).mp haj
  obtain ⟨c, hc, hca, -, hck⟩ := (hbins.mem_iff k hk a).mp hak
  rw [← hbj, ← hck, h.eq_of_addr hb hc (hba.trans hca.symm)]

end

/-- Where the bin heads stand: below every block, one word each. -/
theorem flBinSlot_place (base : HeapBase) {k : Nat} (hk : k < 33) :
    flBinSlot base k + 4 < base.addr + 152 ∧ flBinSlot base k % 4 = 0 := by
  have := HeapBase.addr_mod base
  rw [flBinSlot_eq base hk]
  omega

theorem flBinSlot_ne (base : HeapBase) {j k : Nat} (hj : j < 33) (hk : k < 33) (hne : j ≠ k) :
    flBinSlot base j ≠ flBinSlot base k := by
  rw [flBinSlot_eq base hj, flBinSlot_eq base hk]
  omega

end Heap

end Wado
