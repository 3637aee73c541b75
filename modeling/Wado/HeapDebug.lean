/-
Runs of the debug allocator: no byte is handed out twice, what is freed stays poisoned, and
freeing it again traps.
-/
import Wado.HeapAllocs

namespace Wado.Heap

open ByteMemory Option

/-- A block the debug allocator handed out. -/
structure DebugBlock where
  addr : Nat
  size : Nat
  live : Bool
deriving DecidableEq, Repr

/-- The word in front of a block. -/
def DebugBlock.tag (b : DebugBlock) : Nat :=
  if b.live then debugLive else 0xFFFFFFFF

/-- What the memory holds of a block. -/
structure DebugBlock.Holds (bytes : Nat → UInt8) (b : DebugBlock) : Prop where
  tag : word bytes (b.addr - 4) = b.tag
  poison : b.live = false → ∀ i, b.addr ≤ i → i < b.addr + b.size → bytes i = 0xFF

/-- The debug heap's invariant, the newest block first. -/
structure Guarded (base : HeapBase) (heap : Heap) (blocks : List DebugBlock) : Prop where
  offset : 8 ≤ heap.heapOffset
  top_lt : base.addr + heap.heapOffset < 2 ^ 32
  top_le : base.addr + heap.heapOffset ≤ heap.memoryBytes
  within : ∀ b ∈ blocks, base.addr + 12 ≤ b.addr ∧ 0 < b.size ∧
    b.addr + b.size ≤ base.addr + heap.heapOffset
  apart : blocks.Pairwise fun newer older => older.addr + older.size + 4 ≤ newer.addr
  holds : ∀ b ∈ blocks, b.Holds heap.bytes

variable {base : HeapBase} {host : Nat → Nat → Bool} {heap heap' : Heap}
  {blocks left right : List DebugBlock} {b : DebugBlock} {k size newsize ptr : Nat}

section Bump

variable (hk : k < 31) (htop : base.addr + heap.heapOffset < 2 ^ 32)
include hk htop

/-- The frontier is padded up to a multiple of the alignment. -/
theorem bump_padded : ∃ pad < 2 ^ k, (base.addr + heap.heapOffset + pad) % 2 ^ k = 0 ∧
    (heap.frontier base + (2 ^ k + 2 ^ 64 - 1) % 2 ^ 64) &&&
      (2 ^ 64 - 1 - (2 ^ k + 2 ^ 64 - 1) % 2 ^ 64) = base.addr + heap.heapOffset + pad := by
  have hpos : 0 < 2 ^ k := Nat.two_pow_pos k
  have hlt : 2 ^ k < 2 ^ 31 := Nat.pow_lt_pow_right (by omega) hk
  have hfrontier : heap.frontier base = base.addr + heap.heapOffset := u32Add_of_lt htop
  have hmask : (2 ^ k + 2 ^ 64 - 1) % 2 ^ 64 = 2 ^ k - 1 := by omega
  have hclear : 2 ^ 64 - 1 - (2 ^ k - 1) = 2 ^ 64 - 2 ^ k := by omega
  rw [hfrontier, hmask, hclear, and_clear_low (by omega) (by omega)]
  have hdiv := Nat.div_add_mod' (base.addr + heap.heapOffset + (2 ^ k - 1)) (2 ^ k)
  have hmod := Nat.mod_lt (base.addr + heap.heapOffset + (2 ^ k - 1)) hpos
  generalize hstart : (base.addr + heap.heapOffset + (2 ^ k - 1)) / 2 ^ k * 2 ^ k = start at *
  refine ⟨start - (base.addr + heap.heapOffset), by omega, ?_, by omega⟩
  rw [Nat.add_sub_cancel' (by omega), ← hstart, Nat.mul_mod_left]

theorem bump_aligned {start : Nat} (hrun : heap.bump base host (2 ^ k) size = some (start, heap')) :
    start % 2 ^ k = 0 ∧ base.addr + heap.heapOffset ≤ start ∧ start + size < 2 ^ 32 ∧
      heap'.bytes = heap.bytes ∧ base.addr + heap'.heapOffset = start + size ∧
      start + size ≤ heap'.memoryBytes := by
  obtain ⟨pad, -, hmod, hstart⟩ := bump_padded hk htop
  have hbase := HeapBase.addr_lt base
  simp only [bump, hstart] at hrun
  split at hrun
  · cases hrun
  · rename_i hmax
    rw [maxAddress] at hmax
    obtain ⟨grown, hgrow, hret⟩ := bind_eq_some_iff.mp hrun
    have hgrown : grown.bytes = heap.bytes ∧
        base.addr + heap.heapOffset + pad + size ≤ grown.memoryBytes := by
      split at hgrow
      · obtain ⟨hbytes, -, -, hroom⟩ := growMemory_some hgrow (by omega) (by rw [maxAddress]; omega)
        exact ⟨hbytes, hroom⟩
      · cases hgrow
        exact ⟨rfl, by omega⟩
    have hpair : ((base.addr + heap.heapOffset + pad) % 2 ^ 32, grown.setFrontier base
        ((base.addr + heap.heapOffset + pad + size) % 2 ^ 32)) = (start, heap') := by
      simpa using hret
    rw [Nat.mod_eq_of_lt (by omega), Nat.mod_eq_of_lt (by omega), setFrontier,
      u32Sub_of_le (by omega) (by omega)] at hpair
    cases hpair
    refine ⟨hmod, by omega, by omega, hgrown.1, ?_, hgrown.2⟩
    show base.addr + (base.addr + heap.heapOffset + pad + size - base.addr) = _
    omega

/-- Where `bump` traps, there is no room past the padding. -/
theorem bump_aligned_none (hrun : heap.bump base host (2 ^ k) size = none) :
    ∃ pad < 2 ^ k, NoRoom base host heap (pad + size) := by
  obtain ⟨pad, hpad, -, hstart⟩ := bump_padded hk htop
  refine ⟨pad, hpad, ?_⟩
  rw [NoRoom, ← Nat.add_assoc]
  simp only [bump, hstart] at hrun
  split at hrun
  · exact Or.inl ‹_›
  · rename_i hmax
    split at hrun
    · rename_i hpast
      refine Or.inr ⟨hpast, memoryGrow_none hpast (by omega) ?_⟩
      cases hgrow : heap.growMemory host (base.addr + heap.heapOffset + pad + size) with
      | some grown =>
        rw [hgrow] at hrun
        cases hrun
      | none =>
        simp only [growMemory] at hgrow
        split at hgrow
        · cases hgrow
        · exact hgrow
    · cases hrun

end Bump

/-- A block is left alone with its tag and, once it is freed, its bytes. -/
theorem DebugBlock.Holds.congr {bytes bytes' : Nat → UInt8} (h : b.Holds bytes) (hlo : 4 ≤ b.addr)
    (hsame : ∀ i, b.addr ≤ i + 4 → i < b.addr ∨ b.live = false ∧ i < b.addr + b.size →
      bytes' i = bytes i) : b.Holds bytes' where
  tag := by
    rw [word_congr bytes fun i hi hlt => hsame i (by omega) (Or.inl (by omega)), h.tag]
  poison hfreed i hi hlt := by
    rw [hsame i (by omega) (Or.inr ⟨hfreed, hlt⟩), h.poison hfreed i hi hlt]

/-- The bytes kept in front of a block for its tag. -/
theorem gap_place (k : Nat) :
    (if 2 ^ k < 4 then 4 else 2 ^ k) = max (2 ^ k) 4 ∧ max (2 ^ k) 4 % 2 ^ k = 0 := by
  rcases Nat.lt_or_ge k 2 with hk | hk
  · obtain rfl | rfl : k = 0 ∨ k = 1 := by omega
    · decide
    · decide
  · have : 2 ^ 2 ≤ 2 ^ k := Nat.pow_le_pow_right (by omega) hk
    rw [if_neg (by omega), Nat.max_eq_left (by omega)]
    exact ⟨rfl, Nat.mod_self _⟩

/-- An allocation traps only in `bump`. -/
theorem Guarded.alloc_eq (h : Guarded base heap blocks) (hk : k < 31) (hpos : newsize ≠ 0)
    (host : Nat → Nat → Bool) (oldptr oldsize : Nat) :
    heap.debugRealloc base host oldptr oldsize (2 ^ k) newsize =
      (heap.bump base host (2 ^ k) (max (2 ^ k) 4 + newsize)).map fun (start, heap') =>
        (start + max (2 ^ k) 4, { heap' with
          bytes := setWord heap'.bytes (start + max (2 ^ k) 4 - 4) debugLive }) := by
  simp only [debugRealloc, if_neg hpos, (gap_place k).1, bind_eq_bind]
  cases hbump : heap.bump base host (2 ^ k) (max (2 ^ k) 4 + newsize) with
  | none => rfl
  | some pair =>
    obtain ⟨start, heap₁⟩ := pair
    obtain ⟨-, -, hend, -, -, hmemory⟩ := bump_aligned hk h.top_lt hbump
    rw [bind_some]
    dsimp only
    rw [u32Add_of_lt (by omega), u32Sub_of_le (by omega) (by omega), store_of_le (by omega)]
    rfl

theorem Guarded.alloc (h : Guarded base heap blocks) (hk : k < 31) (hpos : newsize ≠ 0)
    {oldptr oldsize : Nat}
    (hrun : heap.debugRealloc base host oldptr oldsize (2 ^ k) newsize = some (ptr, heap')) :
    ptr % 2 ^ k = 0 ∧ Guarded base heap' (⟨ptr, newsize, true⟩ :: blocks) := by
  have hoffset := h.offset
  have haligned := (gap_place k).2
  rw [h.alloc_eq hk hpos] at hrun
  obtain ⟨⟨start, heap₁⟩, hbump, hrest⟩ := map_eq_some_iff.mp hrun
  obtain ⟨hstart, hle, hend, hbytes, htop, hmemory⟩ := bump_aligned hk h.top_lt hbump
  have hroom : 4 ≤ max (2 ^ k) 4 := Nat.le_max_right _ _
  generalize max (2 ^ k) 4 = gap at *
  cases hrest
  refine ⟨by rw [Nat.add_mod, hstart, haligned, Nat.zero_add, Nat.zero_mod], ?_, ?_, ?_, ?_, ?_, ?_⟩
  · show 8 ≤ heap₁.heapOffset
    omega
  · show base.addr + heap₁.heapOffset < 2 ^ 32
    omega
  · show base.addr + heap₁.heapOffset ≤ heap₁.memoryBytes
    omega
  · refine List.forall_mem_cons.mpr ⟨⟨?_, Nat.pos_of_ne_zero hpos, ?_⟩, fun b hb => ?_⟩
    · show base.addr + 12 ≤ start + gap
      omega
    · show start + gap + newsize ≤ base.addr + heap₁.heapOffset
      omega
    · have := h.within b hb
      show _ ∧ _ ∧ b.addr + b.size ≤ base.addr + heap₁.heapOffset
      omega
  · refine List.pairwise_cons.mpr ⟨fun b hb => ?_, h.apart⟩
    have := h.within b hb
    show b.addr + b.size + 4 ≤ start + gap
    omega
  · refine List.forall_mem_cons.mpr ⟨⟨word_setWord_self _ _ (by decide), nofun⟩, fun b hb => ?_⟩
    have := h.within b hb
    refine (h.holds b hb).congr (by omega) fun i _ hi => ?_
    show setWord heap₁.bytes _ _ i = heap.bytes i
    rw [setWord_of_lt _ (by omega), hbytes]

section Given

variable (h : Guarded base heap (left ++ b :: right))
include h

theorem Guarded.apart_of : (∀ c ∈ left, b.addr + b.size + 4 ≤ c.addr) ∧
    ∀ c ∈ right, c.addr + c.size + 4 ≤ b.addr := by
  obtain ⟨-, hright, hleft⟩ := List.pairwise_append.mp h.apart
  exact ⟨fun c hc => hleft c hc b List.mem_cons_self, (List.pairwise_cons.mp hright).1⟩

/-- Bytes of the block `b` may change, with its tag, where it holds what is then said of it. -/
theorem Guarded.change (bytes : Nat → UInt8) (live : Bool)
    (hsame : ∀ i, i + 4 < b.addr ∨ b.addr + b.size ≤ i → bytes i = heap.bytes i)
    (hb : DebugBlock.Holds bytes { b with live := live }) :
    Guarded base { heap with bytes := bytes } (left ++ { b with live := live } :: right) where
  offset := h.offset
  top_lt := h.top_lt
  top_le := h.top_le
  within c hc := by
    rcases List.mem_append.mp hc with hc | hc
    · exact h.within c (by simp [hc])
    · rcases List.mem_cons.mp hc with rfl | hc
      · exact h.within b (by simp)
      · exact h.within c (by simp [hc])
  apart := by simpa [List.pairwise_append] using h.apart
  holds c hc := by
    obtain ⟨hleft, hright⟩ := h.apart_of
    rcases List.mem_append.mp hc with hc | hc
    · have hapart := hleft c hc
      exact (h.holds c (by simp [hc])).congr (by omega) fun i hi _ => hsame i (by omega)
    · rcases List.mem_cons.mp hc with rfl | hc
      · exact hb
      · have hapart := hright c hc
        have hwithin := h.within c (by simp [hc])
        exact (h.holds c (by simp [hc])).congr (by omega) fun i _ hi => hsame i (by omega)

theorem Guarded.load_tag : u32Sub b.addr 4 = b.addr - 4 ∧ heap.load (b.addr - 4) = some b.tag := by
  have hmem : b ∈ left ++ b :: right := by simp
  have hwithin := h.within b hmem
  have htop := h.top_lt
  have htopmem := h.top_le
  rw [u32Sub_of_le (by omega) (by omega), load_of_le (by omega), (h.holds b hmem).tag]
  exact ⟨rfl, rfl⟩

/-- A free of a live block never traps, and poisons it. -/
theorem Guarded.free (hlive : b.live = true) (align : Nat) :
    ∃ heap', heap.debugRealloc base host b.addr b.size align 0 = some (0, heap') ∧
      Guarded base heap' (left ++ { b with live := false } :: right) := by
  have hmem : b ∈ left ++ b :: right := by simp
  have hwithin := h.within b hmem
  have htop := h.top_lt
  have htopmem := h.top_le
  have hload := h.load_tag
  rw [DebugBlock.tag, if_pos hlive] at hload
  simp only [debugRealloc, if_pos, if_neg (show b.addr ≠ 0 by omega), hload.1, hload.2,
    bind_eq_bind, bind_some, ne_eq, not_true, if_false,
    store_of_le (show b.addr - 4 + 4 ≤ heap.memoryBytes by omega),
    if_pos (show ¬b.size = 0 by omega)]
  have hfill : (Heap.mk (setWord heap.bytes (b.addr - 4) 0xFFFFFFFF) heap.pages
      heap.heapOffset).memoryFill b.addr 0xFF b.size = some _ :=
    if_pos (show b.addr + b.size ≤ heap.memoryBytes by omega)
  rw [hfill]
  refine ⟨_, rfl, h.change _ false (fun i hi => ?_) ⟨?_, fun _ i hi hlt => if_pos ⟨hi, hlt⟩⟩⟩
  · show (if _ then _ else setWord _ _ _ _) = _
    rw [if_neg (by omega), setWord_of_lt _ (by omega)]
  · show word _ (b.addr - 4) = _
    rw [word_congr (setWord heap.bytes (b.addr - 4) 0xFFFFFFFF) fun i _ hi => if_neg (by omega)]
    exact word_setWord_self _ _ (by decide)

/-- A block that is freed again traps. -/
theorem Guarded.free_again (hfreed : b.live = false) (oldsize align : Nat) :
    heap.debugRealloc base host b.addr oldsize align 0 = none := by
  have hwithin := h.within b (by simp)
  simp [debugRealloc, show b.addr ≠ 0 by omega, h.load_tag, DebugBlock.tag, hfreed, debugLive]

end Given

theorem Guarded.write (h : Guarded base heap blocks) {a : Nat} (value : UInt8)
    (hplace : a < base.addr ∨ ∃ b ∈ blocks, b.live = true ∧ b.addr ≤ a ∧ a < b.addr + b.size) :
    Guarded base { heap with bytes := setByte heap.bytes a value } blocks := by
  rcases hplace with hlow | ⟨b, hb, hlive, hlo, hhi⟩
  · refine { h with holds := fun b hb => (h.holds b hb).congr ?_ fun i hi _ => if_neg ?_ }
    · have := h.within b hb
      omega
    · have := h.within b hb
      omega
  · obtain ⟨left, right, rfl⟩ := List.append_of_mem hb
    have hwithin := h.within b hb
    have hchange := h.change (setByte heap.bytes a value) b.live
      (fun i hi => if_neg (by omega)) ((h.holds b hb).congr (by omega) fun i hi hin => if_neg ?_)
    · exact hchange
    · rw [hlive] at hin
      simp at hin
      omega

/-- The states of a program over the debug allocator that frees a live block with the size it
asked for, and writes only below the heap and in live blocks. -/
inductive DebugReachable (base : HeapBase) : Heap → List DebugBlock → Prop
  | start (bytes : Nat → UInt8) : DebugReachable base (start base bytes) []
  | alloc {heap heap' : Heap} {blocks : List DebugBlock} {host : Nat → Nat → Bool}
      {oldptr oldsize k newsize ptr : Nat} (h : DebugReachable base heap blocks) (hk : k < 31)
      (hpos : newsize ≠ 0)
      (hrun : heap.debugRealloc base host oldptr oldsize (2 ^ k) newsize = some (ptr, heap')) :
      DebugReachable base heap' (⟨ptr, newsize, true⟩ :: blocks)
  | free {heap heap' : Heap} {left right : List DebugBlock} {b : DebugBlock}
      {host : Nat → Nat → Bool} {align answer : Nat}
      (h : DebugReachable base heap (left ++ b :: right)) (hlive : b.live = true)
      (hrun : heap.debugRealloc base host b.addr b.size align 0 = some (answer, heap')) :
      DebugReachable base heap' (left ++ { b with live := false } :: right)
  | write {heap : Heap} {blocks : List DebugBlock} {a : Nat} (value : UInt8)
      (h : DebugReachable base heap blocks)
      (hplace : a < base.addr ∨ ∃ b ∈ blocks, b.live = true ∧ b.addr ≤ a ∧ a < b.addr + b.size) :
      DebugReachable base { heap with bytes := setByte heap.bytes a value } blocks

theorem DebugReachable.guarded (h : DebugReachable base heap blocks) :
    Guarded base heap blocks := by
  induction h with
  | start bytes =>
    have hbase := HeapBase.addr_lt base
    refine ⟨Nat.le_refl 8, ?_, ?_, by simp, List.Pairwise.nil, by simp⟩
    · show base.addr + 8 < 2 ^ 32
      omega
    · show base.addr + 8 ≤ (base.reservedPages + 1) * pageSize
      rw [HeapBase.addr, Nat.add_mul, pageSize]
      omega
  | alloc _ hk hpos hrun ih => exact (ih.alloc hk hpos hrun).2
  | free _ hlive hrun ih =>
    obtain ⟨heap₁, hrun', hguarded⟩ := ih.free hlive _
    rw [hrun'] at hrun
    cases hrun
    exact hguarded
  | write value _ hplace ih => exact ih.write value hplace

/-- In every state reached, blocks and their tags are apart, a freed block holds poison, a live one
can be freed, a freed one traps, and an allocation is aligned, past every block handed out, and
traps only where there is no room. -/
theorem debug_run_guarded (h : DebugReachable base heap blocks) : Guarded base heap blocks ∧
    (∀ b ∈ blocks, ∀ host oldsize align, if b.live then
        ∃ heap', heap.debugRealloc base host b.addr b.size align 0 = some (0, heap')
      else heap.debugRealloc base host b.addr oldsize align 0 = none) ∧
    ∀ k < 31, ∀ newsize ≠ 0, ∀ host oldptr oldsize,
      match heap.debugRealloc base host oldptr oldsize (2 ^ k) newsize with
      | some (ptr, _) => ptr % 2 ^ k = 0 ∧ ∀ b ∈ blocks, b.addr + b.size + 4 ≤ ptr
      | none => ∃ pad < 2 ^ k, NoRoom base host heap (pad + (max (2 ^ k) 4 + newsize)) := by
  have hguarded := h.guarded
  refine ⟨hguarded, fun b hb host oldsize align => ?_,
    fun k hk newsize hpos host oldptr oldsize => ?_⟩
  · obtain ⟨left, right, rfl⟩ := List.append_of_mem hb
    split
    · obtain ⟨heap', hrun, -⟩ := hguarded.free ‹_› align
      exact ⟨heap', hrun⟩
    · exact hguarded.free_again (Bool.eq_false_of_not_eq_true ‹_›) oldsize align
  · split
    · rename_i ptr heap' hrun
      obtain ⟨haligned, hnext⟩ := hguarded.alloc hk hpos hrun
      exact ⟨haligned, (List.pairwise_cons.mp hnext.apart).1⟩
    · rename_i hrun
      rw [hguarded.alloc_eq hk hpos, Option.map_eq_none_iff] at hrun
      exact bump_aligned_none hk hguarded.top_lt hrun

theorem debug_run_guarded_first : ∃ heap, Guarded ⟨2, by decide⟩ heap [⟨131088, 100, true⟩] := by
  have hptr : ((start ⟨2, by decide⟩ fun _ => 0).debugRealloc ⟨2, by decide⟩
      (fun _ _ => false) 0 0 (2 ^ 3) 100).map Prod.fst = some 131088 := by decide
  obtain ⟨⟨ptr, heap⟩, hrun, rfl⟩ := map_eq_some_iff.mp hptr
  exact ⟨heap, (debug_run_guarded (.alloc (.start _) (by decide) (by decide) hrun)).1⟩

end Wado.Heap
