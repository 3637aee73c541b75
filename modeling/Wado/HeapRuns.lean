/-
The free-list heap over whole runs: what every allocation, every free of a live
pointer and every write of the program to its own memory preserve.
-/
import Mathlib.Data.List.Perm.Subperm
import Wado.HeapSteps

namespace Wado.Heap

open ByteMemory LinkedSegment List Option

variable {base : HeapBase} {heap heap' : Heap} {blocks left right : List Block}
  {bins : Nat → List Nat}

/-- What the search of the small bins finds: nothing, when those from `j` on are
empty, or a free block of the first of them that has one. -/
theorem Laid.firstSmall_spec (h : Laid base heap blocks) {fuel j : Nat} (hj : j + fuel = 32) :
    (heap.firstSmall base fuel j = some none ∧
      ∀ b ∈ blocks, b.kind = .free → flBin b.size < j ∨ 32 ≤ flBin b.size) ∨
      ∃ b ∈ blocks, b.kind = .free ∧ j ≤ flBin b.size ∧ flBin b.size < 32 ∧
        heap.firstSmall base fuel j = some (some b.addr) := by
  induction fuel generalizing j with
  | zero => exact Or.inl ⟨rfl, fun b _ _ => by omega⟩
  | succ fuel ih =>
    obtain ⟨bins, hbins⟩ := h.binned
    have hslot := flBinSlot_place base (k := j) (by omega)
    have hhead : heap.flBinHead base j = some (first (bins j) 0) := by
      rw [flBinHead, ← hbins.head_eq j (by omega)]
      have hle := h.top_le
      have htiles := h.tiles.length_le
      exact load_of_le (by omega)
    unfold firstSmall
    rw [hhead, bind_eq_bind, bind_some]
    cases hnodes : (bins j).head? with
    | none =>
      rw [List.head?_eq_none_iff] at hnodes
      rw [hnodes, first_nil, if_neg (by simp)]
      rcases ih (j := j + 1) (by omega) with ⟨hnone, hempty⟩ | ⟨b, hb, hfree, hle, hlt, hfound⟩
      · refine Or.inl ⟨hnone, fun b hb hfree => ?_⟩
        have hbin : flBin b.size ≠ j := by
          intro hbin
          have hin := (hbins.mem_iff j (by omega) b.addr).mpr ⟨b, hb, rfl, hfree, hbin⟩
          rw [hnodes] at hin
          cases hin
        have := hempty b hb hfree
        omega
      · exact Or.inr ⟨b, hb, hfree, by omega, hlt, hfound⟩
    | some n =>
      obtain ⟨b, hb, rfl, hfree, hbin⟩ :=
        (hbins.mem_iff j (by omega) n).mp (mem_of_mem_head? hnodes)
      have := h.mem hb
      rw [first_of_head hnodes, if_pos (by omega)]
      exact Or.inr ⟨b, hb, hfree, by omega, by omega, rfl⟩

/-- What the search of a list of free blocks finds: nothing, when all are too
small, or a block that is large enough.  It ends within the list. -/
theorem Laid.firstFit_spec (h : Laid base heap blocks) {size : Nat} {nodes : List Nat}
    {before fuel : Nat} (hnodes : ∀ n ∈ nodes, ∃ b ∈ blocks, b.addr = n ∧ b.kind = .free)
    (hlinked : Linked (· + 8) (· + 12) (word heap.bytes) before nodes 0)
    (hfuel : nodes.length < fuel) :
    (heap.firstFit size fuel (first nodes 0) = some none ∧
      ∀ b ∈ blocks, b.addr ∈ nodes → b.size < size) ∨
      ∃ b ∈ blocks, b.kind = .free ∧ size ≤ b.size ∧
        heap.firstFit size fuel (first nodes 0) = some (some b.addr) := by
  induction nodes generalizing before fuel with
  | nil =>
    obtain ⟨fuel, rfl⟩ := Nat.exists_eq_succ_of_ne_zero (Nat.ne_of_gt hfuel)
    exact Or.inl ⟨rfl, fun b _ hin => by cases hin⟩
  | cons n nodes ih =>
    obtain ⟨fuel, rfl⟩ := Nat.exists_eq_succ_of_ne_zero (Nat.ne_of_gt (Nat.zero_lt_of_lt hfuel))
    obtain ⟨-, hnext, hrest⟩ := hlinked
    obtain ⟨b, hb, rfl, hfree⟩ := hnodes n mem_cons_self
    have hbm := h.mem hb
    obtain ⟨hload, hsize, -⟩ := h.header hb (by simp [hfree])
    have haddr : u32Add b.addr 8 = b.addr + 8 := u32Add_of_lt (by omega)
    have hloadNext : heap.load (b.addr + 8) = some (first nodes 0) := by
      rw [load_of_le (by omega), ← hnext]
    rw [first_cons]
    unfold firstFit
    rw [if_neg (by omega), hload, bind_eq_bind, bind_some, hsize]
    by_cases hle : b.size ≥ size
    · rw [if_pos hle]
      exact Or.inr ⟨b, hb, hfree, hle, rfl⟩
    · rw [if_neg hle, haddr, hloadNext, bind_some]
      rcases ih (fun m hm => hnodes m (mem_cons_of_mem _ hm)) hrest
        (by simpa using hfuel) with ⟨hnone, hsmall⟩ | hfound
      · refine Or.inl ⟨hnone, fun c hc hin => ?_⟩
        rcases mem_cons.mp hin with heq | hin
        · rw [h.eq_of_addr hc hb heq]
          omega
        · exact hsmall c hc hin
      · exact Or.inr hfound

/-- A bin has at most as many nodes as the row has blocks. -/
theorem Binned.length_le (hbins : Binned base heap.bytes blocks bins) {k : Nat} (hk : k < 33) :
    (bins k).length ≤ blocks.length := by
  have hsub : bins k ⊆ blocks.map Block.addr := by
    intro n hn
    obtain ⟨b, hb, rfl, -, -⟩ := (hbins.mem_iff k hk n).mp hn
    exact mem_map_of_mem hb
  simpa using ((hbins.nodup k hk).subperm hsub).length_le

/-- The size of the block an allocation of `newsize` bytes asks for. -/
def roundedSize (newsize : Nat) : Nat :=
  (newsize + 15) / 16 * 16 + 16

variable {newsize : Nat}

theorem wideSize_eq (h : newsize < 2 ^ 32) :
    ((newsize + 15) &&& (2 ^ 64 - 2 ^ 4)) + 16 = roundedSize newsize := by
  rw [and_clear_low (by omega) (by omega)]
  rfl

theorem roundedSize_place (hpos : newsize ≠ 0) :
    roundedSize newsize % 16 = 0 ∧ 32 ≤ roundedSize newsize ∧
      newsize + 16 ≤ roundedSize newsize := by
  rw [roundedSize]
  omega

theorem size_le_of_flBin_le {size size' : Nat} (hsize : size % 16 = 0) (hmin : 32 ≤ size)
    (hlt : size < 2 ^ 32) (hmin' : 32 ≤ size') (hlt' : size' < 2 ^ 32)
    (hle : flBin size ≤ flBin size') (hsmall : flBin size' < 32) : size ≤ size' := by
  rw [flBin_eq hmin hlt, flBin_eq hmin' hlt'] at hle
  rw [flBin_eq hmin' hlt'] at hsmall
  omega

theorem flBin_le_of_size_le {size size' : Nat} (hmin : 32 ≤ size) (hlt' : size' < 2 ^ 32)
    (hle : size ≤ size') : flBin size ≤ flBin size' := by
  rw [flBin_eq hmin (by omega), flBin_eq (by omega) hlt']
  omega

/-- Taking a free block of the row. -/
theorem Laid.take_mem (h : Laid base heap blocks) (hnone : NoHole blocks) {b : Block}
    (hb : b ∈ blocks) (hfree : b.kind = .free) {size : Nat} (hmod : size % 16 = 0)
    (hmin : 32 ≤ size) (hle : size ≤ b.size) :
    ∃ heap' blocks' usedSize, heap.take base b.addr size = some (b.addr + 8, heap') ∧
      Laid base heap' blocks' ∧ NoHole blocks' ∧ size ≤ usedSize ∧
      (⟨b.addr, usedSize, .used⟩ : Block) ∈ blocks' ∧
      ∀ c ∈ blocks, c.kind = .used → c ∈ blocks' := by
  obtain ⟨left, right, rfl⟩ := append_of_mem hb
  obtain ⟨a, blockSize, kind⟩ := b
  simp only at hfree hle
  subst hfree
  obtain ⟨heap', blocks', usedSize, hrun, h', hnone', hused, hmem, hkeep⟩ := h.take_spec
    (fun c hc => hnone c (mem_middle.mpr (Or.inr (Or.inl hc))))
    (fun c hc => hnone c (mem_middle.mpr (Or.inr (Or.inr hc)))) hmod hmin hle
  refine ⟨heap', blocks', usedSize, hrun, h', hnone', hused, hmem, ?_⟩
  intro c hc hcused
  rcases mem_middle.mp hc with rfl | hc
  · cases hcused
  · exact hkeep c hc

/-- The block an allocation takes at the frontier. -/
def allocAtFrontier (base : HeapBase) (host : Nat → Nat → Bool) (heap : Heap) (size : Nat) :
    Option (Nat × Heap) := do
  let (block, heap) ← heap.bump base host 1 size
  let heap ← heap.flSetTags block size 1
  return (u32Add block 8, heap)

/-- Where an allocation takes its block: out of a free one that is large enough,
or, when there is none, at the frontier. -/
theorem Laid.alloc_cases (host : Nat → Nat → Bool) (h : Laid base heap blocks)
    (hpos : newsize ≠ 0) (hlt : newsize < 2 ^ 32) :
    (∃ b ∈ blocks, b.kind = .free ∧ roundedSize newsize ≤ b.size ∧
      heap.alloc base host newsize = heap.take base b.addr (roundedSize newsize)) ∨
    (∀ b ∈ blocks, b.kind = .free → b.size < roundedSize newsize) ∧ heap.alloc base host newsize =
        if roundedSize newsize > maxAddress then none
        else allocAtFrontier base host heap (roundedSize newsize) := by
  obtain ⟨hmod, hmin, -⟩ := roundedSize_place hpos
  simp only [alloc, wideSize_eq hlt]
  generalize roundedSize newsize = size at hmod hmin
  by_cases hmax : size > maxAddress
  · refine Or.inr ⟨fun b hb _ => ?_, by rw [if_pos hmax, if_pos hmax]⟩
    have := h.mem hb
    rw [maxAddress] at hmax
    omega
  rw [if_neg hmax, if_neg hmax]
  rw [maxAddress] at hmax
  rw [Nat.mod_eq_of_lt (a := size) (by omega)]
  have hbin : flBin size ≤ 32 := Nat.le_of_lt_succ flBin_lt
  rcases h.firstSmall_spec (Nat.add_sub_cancel' hbin) with
    ⟨hsmall, hnoSmall⟩ | ⟨b, hb, hfree, hle, hlt', hsmall⟩
  · obtain ⟨bins, hbins⟩ := h.binned
    have hhead : heap.flBinHead base 32 = some (first (bins 32) 0) := by
      have hslot := flBinSlot_place base (k := 32) (by omega)
      have hle := h.top_le
      have htiles := h.tiles.length_le
      rw [flBinHead, ← hbins.head_eq 32 (by omega)]
      exact load_of_le (by omega)
    have hlength := hbins.length_le (k := 32) (by omega)
    have htiles := h.tiles.length_le
    have hnodes : ∀ n ∈ bins 32, ∃ b ∈ blocks, b.addr = n ∧ b.kind = .free := by
      intro n hn
      obtain ⟨b, hb, hba, hfree, -⟩ := (hbins.mem_iff 32 (by omega) n).mp hn
      exact ⟨b, hb, hba, hfree⟩
    rw [hsmall, bind_eq_bind, bind_some, hhead, bind_eq_bind, bind_some]
    rcases (@Laid.firstFit_spec _ _ _ h size _ _ (heap.heapOffset + 1) hnodes
        (hbins.linked 32 (by omega)) (by omega)) with ⟨hfit, hnoFit⟩ | ⟨b, hb, hfree, hle, hfit⟩
    · refine Or.inr ⟨fun b hb hfree => ?_, ?_⟩
      · rcases hnoSmall b hb hfree with hbelow | hlarge
        · -- a block of a bin below is smaller than all of this bin
          have hbm := h.mem hb
          by_contra hge
          have : flBin size ≤ flBin b.size := flBin_le_of_size_le hmin (by omega) (by omega)
          omega
        · have hbin32 : flBin b.size = 32 := by
            have : flBin b.size < 33 := flBin_lt
            omega
          exact hnoFit b hb ((hbins.mem_iff 32 (by omega) _).mpr ⟨b, hb, rfl, hfree, hbin32⟩)
      · rw [hfit, bind_eq_bind, bind_some]
        rfl
    · rw [hfit, bind_eq_bind, bind_some]
      exact Or.inl ⟨b, hb, hfree, hle, rfl⟩
  · have hbm := h.mem hb
    rw [hsmall, bind_eq_bind, bind_some]
    exact Or.inl ⟨b, hb, hfree, size_le_of_flBin_le hmod hmin (by omega) hbm.2.2.2.2.1 (by omega)
      hle hlt', rfl⟩

variable {host : Nat → Nat → Bool}

section

variable (h : Laid base heap blocks)
include h

/-- What the frontier gives: a used block past every other, the rest as before. -/
theorem Laid.allocAtFrontier_spec {size ptr : Nat} (hmod : size % 16 = 0) (hmin : 32 ≤ size)
    (hrun : allocAtFrontier base host heap size = some (ptr, heap')) :
    ∃ a, ptr = a + 8 ∧ Laid base heap' (blocks ++ [⟨a, size, .used⟩]) := by
  obtain ⟨⟨a, heap₁⟩, hbump, hrest⟩ := bind_eq_some_iff.mp hrun
  obtain ⟨heap₂, htags, hret⟩ := bind_eq_some_iff.mp hrest
  obtain ⟨heap₃, htags', h₃⟩ := (h.bump_spec hmod hmin hbump).settle_used
  have hplace := h₃.mem (b := ⟨a, size, .used⟩) (by simp)
  simp only at htags hplace
  rw [htags'] at htags
  cases htags
  have hpair : (u32Add a 8, heap₂) = (ptr, heap') := by simpa using hret
  rw [u32Add_of_lt (by omega)] at hpair
  cases hpair
  exact ⟨a, rfl, h₃⟩

/-- An allocation: a used block with room for the bytes asked for and its tags,
and every used block stays. -/
theorem Laid.alloc_spec {newsize ptr : Nat} (hnone : NoHole blocks) (hpos : newsize ≠ 0)
    (hlt : newsize < 2 ^ 32) (hrun : heap.alloc base host newsize = some (ptr, heap')) :
    ∃ blocks' b, Laid base heap' blocks' ∧ NoHole blocks' ∧ b ∈ blocks' ∧ b.kind = .used ∧
      ptr = b.addr + 8 ∧ newsize + 16 ≤ b.size ∧
      ∀ c ∈ blocks, c.kind = .used → c ∈ blocks' := by
  obtain ⟨hmod, hmin, hroom⟩ := roundedSize_place hpos
  rcases h.alloc_cases host hpos hlt with ⟨b, hb, hfree, hle, halloc⟩ | ⟨-, halloc⟩
  · rw [halloc] at hrun
    obtain ⟨heap₁, blocks', usedSize, htaken, h', hnone', hused, hmem, hkeep⟩ :=
      h.take_mem hnone hb hfree hmod hmin hle
    rw [htaken] at hrun
    cases hrun
    exact ⟨blocks', _, h', hnone', hmem, rfl, rfl, by simp only; omega, hkeep⟩
  · rw [halloc] at hrun
    split at hrun
    · cases hrun
    · obtain ⟨a, rfl, h'⟩ := h.allocAtFrontier_spec hmod hmin hrun
      refine ⟨_, ⟨a, roundedSize newsize, .used⟩, h', ?_, by simp, rfl, rfl, hroom, ?_⟩
      · intro c hc
        rcases mem_append.mp hc with hc | hc
        · exact hnone c hc
        · rw [mem_singleton.mp hc]
          simp
      · exact fun c hc _ => mem_append_left _ hc

/-- Freeing the payload of a used block of the row. -/
theorem Laid.free_mem (hnone : NoHole blocks) {b : Block}
    (hb : b ∈ blocks) (hused : b.kind = .used) :
    ∃ heap' blocks', heap.free base (b.addr + 8) = some heap' ∧ Laid base heap' blocks' ∧
      NoHole blocks' ∧ ∀ c ∈ blocks, c.kind = .used → c ≠ b → c ∈ blocks' := by
  obtain ⟨left, right, rfl⟩ := append_of_mem hb
  obtain ⟨a, size, kind⟩ := b
  simp only at hused
  subst hused
  obtain ⟨heap', blocks', hrun, h', hnone', hkeep⟩ := h.free_spec
    (fun c hc => hnone c (mem_middle.mpr (Or.inr (Or.inl hc))))
    (fun c hc => hnone c (mem_middle.mpr (Or.inr (Or.inr hc))))
  refine ⟨heap', blocks', hrun, h', hnone', ?_⟩
  intro c hc hcused hne
  exact hkeep c hcused ((mem_middle.mp hc).resolve_left hne)

/-- A byte written in a used block's payload, or below the heap, is in no word
the allocator reads. -/
theorem Laid.setByte {a : Nat} (value : UInt8) (hplace : a < base.addr ∨
      ∃ b ∈ blocks, b.kind = .used ∧ b.addr + 8 ≤ a ∧ a + 8 < b.addr + b.size) :
    Laid base { heap with bytes := setByte heap.bytes a value } blocks := by
  have hrw : Rewrites heap { heap with bytes := ByteMemory.setByte heap.bytes a value }
      (fun x => x ≤ a ∧ a < x + 4) :=
    ⟨rfl, rfl, fun x _ hx => word_setByte_of_lt heap.bytes (by omega) value⟩
  -- the byte is apart from every other block
  have hapart : ∀ c ∈ blocks, a < c.addr ∨ c.addr + c.size ≤ a ∨
      c.kind = .used ∧ c.addr + 8 ≤ a ∧ a + 8 < c.addr + c.size := by
    intro c hc
    have hcm := h.mem hc
    rcases hplace with hlow | ⟨b, hb, hused, hlo, hhi⟩
    · exact Or.inl (by omega)
    · rcases h.tiles.eq_or_apart hb hc with rfl | hor
      · exact Or.inr (Or.inr ⟨hused, hlo, hhi⟩)
      · omega
  refine h.congr hrw ?_ ?_ ?_
  · intro c hc _
    have := h.mem hc
    have := hapart c hc
    omega
  · intro c hc hfree
    have := h.mem hc
    rcases hapart c hc with hlow | hhigh | ⟨hused, -⟩
    · omega
    · omega
    · rw [hused] at hfree
      cases hfree
  · intro k hk
    have hslot := flBinSlot_eq base hk
    rcases hplace with hlow | ⟨b, hb, -, hlo, -⟩
    · omega
    · have := h.mem hb
      omega

end

/-- A pointer the allocator handed out, and the bytes asked for at it. -/
structure Live where
  ptr : Nat
  size : Nat
deriving DecidableEq, Repr

/-- The states of a program that has called the allocator `calls` times, never
frees a pointer that is not live, and writes only below the heap and in the bytes
it asked for. -/
inductive Reachable (base : HeapBase) : Nat → Heap → List Live → Prop
  | start {bytes : Nat → UInt8} (hzero : ∀ a, base.addr ≤ a → bytes a = 0) :
      Reachable base 0 (start base bytes) []
  | alloc {calls : Nat} {heap heap' : Heap} {live : List Live} {host : Nat → Nat → Bool}
      {oldptr newsize ptr : Nat} (h : Reachable base calls heap live) (hpos : newsize ≠ 0)
      (hlt : newsize < 2 ^ 32)
      (hrun : heap.freelistRealloc base host oldptr newsize = some (ptr, heap')) :
      Reachable base (calls + 1) heap' (⟨ptr, newsize⟩ :: live)
  | free {calls : Nat} {heap heap' : Heap} {live : List Live} {host : Nat → Nat → Bool}
      {oldptr ptr : Nat} (h : Reachable base calls heap live)
      (hptr : oldptr = 0 ∨ ∃ l ∈ live, l.ptr = oldptr)
      (hrun : heap.freelistRealloc base host oldptr 0 = some (ptr, heap')) :
      Reachable base (calls + 1) heap' (live.filter fun l => l.ptr ≠ oldptr)
  | write {calls : Nat} {heap : Heap} {live : List Live} {a : Nat} (value : UInt8)
      (h : Reachable base calls heap live)
      (hplace : a < base.addr ∨ ∃ l ∈ live, l.ptr ≤ a ∧ a < l.ptr + l.size) :
      Reachable base calls { heap with bytes := ByteMemory.setByte heap.bytes a value } live

/-- Every live pointer is the payload of a used block with room for its bytes. -/
def Backed (blocks : List Block) (live : List Live) : Prop :=
  ∀ l ∈ live, ∃ b ∈ blocks, b.kind = .used ∧ l.ptr = b.addr + 8 ∧ l.size + 16 ≤ b.size

/-- The heap before the first call. -/
structure Untouched (base : HeapBase) (heap : Heap) : Prop where
  offset_eq : heap.heapOffset = 8
  pages_eq : heap.pages = base.reservedPages + 1
  zero : ∀ a, base.addr ≤ a → heap.bytes a = 0

/-- The first call finds every bin empty. -/
theorem Untouched.laid (h : Untouched base heap) :
    Laid base { heap with heapOffset := 152 } [] where
  top_lt := by
    have := HeapBase.addr_lt base
    show base.addr + 152 < 2 ^ 32
    omega
  top_le := by
    show base.addr + 152 ≤ heap.pages * pageSize
    rw [h.pages_eq, Nat.add_mul, HeapBase.addr, pageSize]
    omega
  tiles := rfl
  tags := by simp
  apart := by simp
  binned := by
    refine ⟨fun _ => [], fun _ _ _ => by simp, fun _ _ => nodup_nil, fun k hk => ?_,
      fun _ _ => trivial⟩
    have hslot := flBinSlot_eq base hk
    show word heap.bytes _ = 0
    rw [word, h.zero _ (by omega), h.zero _ (by omega), h.zero _ (by omega), h.zero _ (by omega)]
    rfl

/-- What holds after `calls` calls. -/
def Sound (base : HeapBase) (calls : Nat) (heap : Heap) (live : List Live) : Prop :=
  (calls = 0 ∧ Untouched base heap ∧ live = []) ∨
    0 < calls ∧ ∃ blocks, Laid base heap blocks ∧ NoHole blocks ∧ Backed blocks live

variable {calls : Nat} {live : List Live}

/-- Every call starts on a heap that is laid out. -/
theorem Sound.init (h : Sound base calls heap live) :
    ∃ heap₁ blocks, heap.init base = some heap₁ ∧ Laid base heap₁ blocks ∧ NoHole blocks ∧
      Backed blocks live := by
  rcases h with ⟨-, huntouched, rfl⟩ | ⟨-, blocks, h, hnone, hbacked⟩
  · refine ⟨{ heap with heapOffset := 152 }, [], ?_, huntouched.laid, by simp [NoHole],
      by simp [Backed]⟩
    have hmod := HeapBase.addr_mod base
    have hand : base.addr &&& 15 = 0 := by
      rw [show (15 : Nat) = 2 ^ 4 - 1 from rfl, Nat.and_two_pow_sub_one_eq_mod]
      exact hmod
    rw [Heap.init, if_pos (by rw [huntouched.offset_eq]; omega), if_neg (by simp [hand])]
  · refine ⟨heap, blocks, ?_, h, hnone, hbacked⟩
    have := h.tiles.length_le
    rw [Heap.init, if_neg (by omega)]

theorem Sound.start {bytes : Nat → UInt8} (hzero : ∀ a, base.addr ≤ a → bytes a = 0) :
    Sound base 0 (start base bytes) [] :=
  Or.inl ⟨rfl, ⟨rfl, rfl, hzero⟩, rfl⟩

theorem Sound.alloc {oldptr newsize ptr : Nat} (h : Sound base calls heap live) (hpos : newsize ≠ 0)
    (hlt : newsize < 2 ^ 32)
    (hrun : heap.freelistRealloc base host oldptr newsize = some (ptr, heap')) :
    Sound base (calls + 1) heap' (⟨ptr, newsize⟩ :: live) := by
  obtain ⟨heap₁, blocks, hinit, hlaid, hnone, hbacked⟩ := h.init
  rw [freelistRealloc, hinit, bind_eq_bind, bind_some, if_neg hpos] at hrun
  obtain ⟨blocks', b, hlaid', hnone', hb, hused, hptr, hsize, hkeep⟩ :=
    hlaid.alloc_spec hnone hpos hlt hrun
  refine Or.inr ⟨Nat.succ_pos calls, blocks', hlaid', hnone', ?_⟩
  intro l hl
  rcases mem_cons.mp hl with rfl | hl
  · exact ⟨b, hb, hused, hptr, hsize⟩
  · obtain ⟨c, hc, hcused, hcptr, hcsize⟩ := hbacked l hl
    exact ⟨c, hkeep c hc hcused, hcused, hcptr, hcsize⟩

/-- A free of null or of a live pointer never traps. -/
theorem Sound.free_run (host : Nat → Nat → Bool) {oldptr : Nat}
    (h : Sound base calls heap live) (hptr : oldptr = 0 ∨ ∃ l ∈ live, l.ptr = oldptr) :
    ∃ heap', heap.freelistRealloc base host oldptr 0 = some (0, heap') ∧
      Sound base (calls + 1) heap' (live.filter fun l => l.ptr ≠ oldptr) := by
  obtain ⟨heap₁, blocks, hinit, hlaid, hnone, hbacked⟩ := h.init
  rw [freelistRealloc, hinit, bind_eq_bind, bind_some, if_pos rfl]
  by_cases hnull : oldptr = 0
  · refine ⟨heap₁, ?_, Or.inr ⟨Nat.succ_pos calls, blocks, hlaid, hnone, ?_⟩⟩
    · rw [Heap.free, if_pos hnull]
      rfl
    · exact fun l hl => hbacked l (mem_of_mem_filter hl)
  · obtain ⟨l, hl, rfl⟩ := hptr.resolve_left hnull
    obtain ⟨b, hb, hused, hbptr, -⟩ := hbacked l hl
    obtain ⟨heap₂, blocks', hfree, hlaid', hnone', hkeep⟩ := hlaid.free_mem hnone hb hused
    refine ⟨heap₂, ?_, Or.inr ⟨Nat.succ_pos calls, blocks', hlaid', hnone', ?_⟩⟩
    · rw [hbptr, hfree]
      rfl
    · intro m hm
      obtain ⟨hm, hne⟩ := mem_filter.mp hm
      obtain ⟨c, hc, hcused, hcptr, hcsize⟩ := hbacked m hm
      refine ⟨c, hkeep c hc hcused ?_, hcused, hcptr, hcsize⟩
      rintro rfl
      simp [hbptr, hcptr] at hne

theorem Sound.write {a : Nat} (value : UInt8) (h : Sound base calls heap live)
    (hplace : a < base.addr ∨ ∃ l ∈ live, l.ptr ≤ a ∧ a < l.ptr + l.size) :
    Sound base calls { heap with bytes := ByteMemory.setByte heap.bytes a value } live := by
  rcases h with ⟨hcalls, huntouched, rfl⟩ | ⟨hcalls, blocks, hlaid, hnone, hbacked⟩
  · refine Or.inl ⟨hcalls, ⟨huntouched.offset_eq, huntouched.pages_eq, fun x hx => ?_⟩, rfl⟩
    have hlow : a < base.addr := by simpa using hplace
    show ByteMemory.setByte heap.bytes a value x = 0
    rw [ByteMemory.setByte, if_neg (by omega)]
    exact huntouched.zero x hx
  · refine Or.inr ⟨hcalls, blocks, hlaid.setByte value ?_, hnone, hbacked⟩
    rcases hplace with hlow | ⟨l, hl, hlo, hhi⟩
    · exact Or.inl hlow
    · obtain ⟨b, hb, hused, hptr, hsize⟩ := hbacked l hl
      exact Or.inr ⟨b, hb, hused, by omega, by omega⟩

theorem Reachable.sound (h : Reachable base calls heap live) :
    Sound base calls heap live := by
  induction h with
  | start hzero => exact Sound.start hzero
  | alloc _ hpos hlt hrun ih => exact ih.alloc hpos hlt hrun
  | free _ hptr hrun ih =>
    rename_i host _ _ _
    obtain ⟨heap₁, hrun', hsound⟩ := ih.free_run host hptr
    rw [hrun'] at hrun
    cases hrun
    exact hsound
  | write value _ hplace ih => exact ih.write value hplace

/-- The free-list heap's invariant: from offset 152 to the frontier the blocks
stand one after another, each with its size and used bit in both tags, no two
neighbours free, and the 33 bins hold the free blocks, linked both ways. -/
theorem freelist_run_laid {calls : Nat} {live : List Live} (h : Reachable base calls heap live)
    (hcalls : 0 < calls) :
    ∃ blocks, Laid base heap blocks ∧ NoHole blocks ∧ Backed blocks live := by
  rcases h.sound with ⟨hzero, -⟩ | ⟨-, hlaid⟩
  · omega
  · exact hlaid

/-- The heap after the first call, for 100 bytes. -/
theorem freelist_run_laid_first : ∃ heap blocks, Laid ⟨2, by decide⟩ heap blocks ∧ NoHole blocks ∧
      Backed blocks [⟨131232, 100⟩] := by
  have hptr : ((start ⟨2, by decide⟩ fun _ => 0).freelistRealloc ⟨2, by decide⟩
      (fun _ _ => false) 0 100).map Prod.fst = some 131232 := by decide
  obtain ⟨⟨ptr, heap⟩, hrun, rfl⟩ := Option.map_eq_some_iff.mp hptr
  exact ⟨heap, freelist_run_laid
    (.alloc (.start fun _ _ => rfl) (by decide) (by decide) hrun) (by decide)⟩

end Wado.Heap
