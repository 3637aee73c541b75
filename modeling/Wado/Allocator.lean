/-
The allocators of linear memory.  Addresses and sizes are `u32`; a word
access past the end of memory traps, and so does `builtin::unreachable()`; a
trap is `none`.
-/
import Mathlib.Data.Nat.Size
import Wado.ByteMemory

namespace Wado

/-- `u32` addition and subtraction, which wrap. -/
def u32Add (a b : Nat) : Nat := (a + b) % 2 ^ 32

def u32Sub (a b : Nat) : Nat := (a + 2 ^ 32 - b) % 2 ^ 32

/-- The Wasm linear memory page size. -/
def pageSize : Nat := 65536

/-- The last address a 32-bit memory holds. -/
def maxAddress : Nat := 0xFFFFFFFF

/-- What `builtin::heap_base()` answers: past the pages the embedded wasm assets
reserve, which the loader bounds below 2 GiB. -/
structure HeapBase where
  reservedPages : Nat
  lt : reservedPages * pageSize < 2 ^ 31

def HeapBase.addr (base : HeapBase) : Nat :=
  base.reservedPages * pageSize

/-- Linear memory, its size in pages, and the heap frontier as an offset from
the heap base. -/
structure Heap where
  bytes : Nat → UInt8
  pages : Nat
  heapOffset : Nat

namespace Heap

/-- The memory a program starts with: one page past the reserved ones. -/
def start (base : HeapBase) (bytes : Nat → UInt8) : Heap :=
  ⟨bytes, base.reservedPages + 1, 8⟩

/-- The address of the heap frontier. -/
def frontier (base : HeapBase) (heap : Heap) : Nat :=
  u32Add base.addr heap.heapOffset

/-- Moves the heap frontier to address `addr`. -/
def setFrontier (base : HeapBase) (heap : Heap) (addr : Nat) : Heap :=
  { heap with heapOffset := u32Sub addr base.addr }

/-- The size of linear memory, in bytes. -/
def memoryBytes (heap : Heap) : Nat :=
  heap.pages * pageSize

/-- The word at `addr`. -/
def load (heap : Heap) (addr : Nat) : Option Nat :=
  if addr + 4 ≤ heap.memoryBytes then some (ByteMemory.word heap.bytes addr) else none

/-- Stores `value` as the word at `addr`. -/
def store (heap : Heap) (addr value : Nat) : Option Heap :=
  if addr + 4 ≤ heap.memoryBytes then
    some { heap with bytes := ByteMemory.setWord heap.bytes addr value }
  else none

/-- The pages that hold `bytes`. -/
def pagesFor (bytes : Nat) : Nat :=
  (bytes + pageSize - 1) / pageSize

/-- `memory.grow`, `none` where it answers -1.  The host may refuse, and must
once memory would pass 65536 pages. -/
def memoryGrow (host : Nat → Nat → Bool) (heap : Heap) (delta : Nat) : Option Heap :=
  if host heap.pages delta = true ∧ heap.pages + delta ≤ 65536 then
    some { heap with pages := heap.pages + delta }
  else none

/-- `i64.clz`. -/
def clz (n : Nat) : Nat :=
  64 - Nat.size n

/-- Grows linear memory to hold `end_` bytes, doubling up to 16 MB.  Traps when
the host refuses to grow. -/
def growMemory (host : Nat → Nat → Bool) (heap : Heap) (end_ : Nat) : Option Heap :=
  let currentBytes := heap.memoryBytes
  let deficit := end_ - currentBytes
  let sixteenMb := 16 * 1024 * 1024
  let normalGrow := if currentBytes < sixteenMb then currentBytes else sixteenMb
  let growBytes := if deficit > normalGrow then 1 <<< (64 - clz (deficit - 1)) else normalGrow
  match memoryGrow host heap (pagesFor growBytes) with
  | some heap => some heap
  | none => memoryGrow host heap (pagesFor deficit)

/-- Takes `size` bytes at the heap frontier, aligned to `align`. -/
def bump (base : HeapBase) (host : Nat → Nat → Bool) (heap : Heap) (align size : Nat) :
    Option (Nat × Heap) := do
  let mask := (align + 2 ^ 64 - 1) % 2 ^ 64
  let start := (heap.frontier base + mask) &&& (2 ^ 64 - 1 - mask)
  let end_ := start + size
  if end_ > maxAddress then
    none
  else
    let heap ← (if end_ > heap.memoryBytes then growMemory host heap end_ else some heap)
    return (start % 2 ^ 32, heap.setFrontier base (end_ % 2 ^ 32))

/-- Block size encoded in a boundary tag, which clears the low 3 bits. -/
def flSize (tag : Nat) : Nat :=
  tag &&& (2 ^ 32 - 2 ^ 3)

/-- Used-bit of a boundary tag. -/
def flUsed (tag : Nat) : Nat :=
  tag &&& 1

/-- Size-class bin index for a block of `size` bytes. -/
def flBin (size : Nat) : Nat :=
  let k := u32Sub size 32 >>> 4
  if k < 32 then k else 32

/-- The address of the head of size-class bin `k`. -/
def flBinSlot (base : HeapBase) (k : Nat) : Nat :=
  u32Add (u32Add base.addr 8) (k * 4 % 2 ^ 32)

def flBinHead (base : HeapBase) (heap : Heap) (k : Nat) : Option Nat :=
  heap.load (flBinSlot base k)

def flSetBinHead (base : HeapBase) (heap : Heap) (k head : Nat) : Option Heap :=
  heap.store (flBinSlot base k) head

/-- Writes the header and footer boundary tags of the block at `block`. -/
def flSetTags (heap : Heap) (block size used : Nat) : Option Heap := do
  let tag := u32Add size used
  let heap ← heap.store block tag
  heap.store (u32Sub (u32Add block size) 8) tag

/-- Inserts `block` at the head of its size-class bin. -/
def flPush (base : HeapBase) (heap : Heap) (block size : Nat) : Option Heap := do
  let k := flBin size
  let head ← heap.flBinHead base k
  let heap ← heap.store (u32Add block 8) head
  let heap ← heap.store (u32Add block 12) 0
  let heap ← (if head ≠ 0 then heap.store (u32Add head 12) block else some heap)
  heap.flSetBinHead base k block

/-- Removes `block` from its size-class bin. -/
def flUnlink (base : HeapBase) (heap : Heap) (block : Nat) : Option Heap := do
  let next ← heap.load (u32Add block 8)
  let prev ← heap.load (u32Add block 12)
  let heap ← (if prev = 0 then do
      let k := flBin (flSize (← heap.load block))
      heap.flSetBinHead base k next
    else
      heap.store (u32Add prev 8) next)
  if next ≠ 0 then heap.store (u32Add next 12) prev else return heap

/-- Marks the block at `block` used for an allocation of `size` bytes, splitting
off the remainder as a free block when it is large enough. -/
def flCarve (base : HeapBase) (heap : Heap) (block blockSize size : Nat) : Option Heap := do
  let remainder := u32Sub blockSize size
  if remainder ≥ 32 then
    let heap ← heap.flSetTags block size 1
    let rest := u32Add block size
    let heap ← heap.flSetTags rest remainder 0
    heap.flPush base rest remainder
  else
    heap.flSetTags block blockSize 1

/-- The first of the small bins from `j` on that is not empty, `fuel` being how
many are left. -/
def firstSmall (base : HeapBase) (heap : Heap) : Nat → Nat → Option (Option Nat)
  | 0, _ => some none
  | fuel + 1, j => do
    let b ← heap.flBinHead base j
    if b ≠ 0 then return some b else firstSmall base heap fuel (j + 1)

/-- The first block of at least `size` bytes in the list from `curr` on.  A list
longer than `fuel` is `none`. -/
def firstFit (heap : Heap) (size : Nat) : Nat → Nat → Option (Option Nat)
  | 0, _ => none
  | fuel + 1, curr => do
    if curr = 0 then
      return none
    let blockSize := flSize (← heap.load curr)
    if blockSize ≥ size then
      return some curr
    else
      firstFit heap size fuel (← heap.load (u32Add curr 8))

/-- Takes the free block `b` for an allocation of `size` bytes. -/
def take (base : HeapBase) (heap : Heap) (b size : Nat) : Option (Nat × Heap) := do
  let blockSize := flSize (← heap.load b)
  let heap ← heap.flUnlink base b
  let heap ← heap.flCarve base b blockSize size
  return (u32Add b 8, heap)

/-- Merges the block at `block` with the one that follows it, when that is free:
the heap and the block's size. -/
def absorbNext (base : HeapBase) (heap : Heap) (block size : Nat) : Option (Heap × Nat) := do
  let next := u32Add block size
  if next < heap.frontier base then
    let nextHeader ← heap.load next
    if flUsed nextHeader = 0 then
      let heap ← heap.flUnlink base next
      return (heap, u32Add size (flSize nextHeader))
    else
      return (heap, size)
  else
    return (heap, size)

/-- Merges the block at `block` with the one before it, when that is free: the
heap, the block and its size. -/
def absorbPrev (base : HeapBase) (heap : Heap) (block size : Nat) : Option (Heap × Nat × Nat) := do
  if block > u32Add base.addr 152 then
    let prevFooter ← heap.load (u32Sub block 8)
    if flUsed prevFooter = 0 then
      let prevSize := flSize prevFooter
      let prev := u32Sub block prevSize
      let heap ← heap.flUnlink base prev
      return (heap, prev, u32Add size prevSize)
    else
      return (heap, block, size)
  else
    return (heap, block, size)

/-- `freelist_realloc` with a `newsize` of 0, once the heap is set up. -/
def free (base : HeapBase) (heap : Heap) (oldptr : Nat) : Option Heap := do
  if oldptr = 0 then
    return heap
  let block := u32Sub oldptr 8
  let header ← heap.load block
  -- Double-free guard: the block is already marked free.
  if flUsed header = 0 then
    none
  else
    let (heap, size) ← heap.absorbNext base block (flSize header)
    let (heap, block, size) ← heap.absorbPrev base block size
    let heap ← heap.flSetTags block size 0
    heap.flPush base block size

/-- `freelist_realloc` with another `newsize`, once the heap is set up. -/
def alloc (base : HeapBase) (host : Nat → Nat → Bool) (heap : Heap) (newsize : Nat) :
    Option (Nat × Heap) := do
  let wideSize := ((newsize + 15) &&& (2 ^ 64 - 2 ^ 4)) + 16
  if wideSize > maxAddress then
    none
  else
    let size := wideSize % 2 ^ 32
    match ← heap.firstSmall base (32 - flBin size) (flBin size) with
    | some b => heap.take base b size
    | none =>
      match ← heap.firstFit size (heap.heapOffset + 1) (← heap.flBinHead base 32) with
      | some curr => heap.take base curr size
      | none =>
        let (block, heap) ← heap.bump base host 1 wideSize
        let heap ← heap.flSetTags block size 1
        return (u32Add block 8, heap)

/-- Reserves the bin-head table on first use, which needs the heap base aligned. -/
def init (base : HeapBase) (heap : Heap) : Option Heap :=
  if heap.heapOffset < 152 then
    if base.addr &&& 15 ≠ 0 then none else some { heap with heapOffset := 152 }
  else some heap

def freelistRealloc (base : HeapBase) (host : Nat → Nat → Bool) (heap : Heap)
    (oldptr newsize : Nat) : Option (Nat × Heap) := do
  let heap ← heap.init base
  if newsize = 0 then
    return (0, ← heap.free base oldptr)
  heap.alloc base host newsize

/-- The word in front of a block the debug allocator handed out, while it is live. -/
def debugLive : Nat := 0xA11CED00

/-- `builtin::memory_fill`, which traps past the end of memory. -/
def memoryFill (heap : Heap) (addr : Nat) (value : UInt8) (size : Nat) : Option Heap :=
  if addr + size ≤ heap.memoryBytes then
    some { heap with
      bytes := fun i => if addr ≤ i ∧ i < addr + size then value else heap.bytes i }
  else none

def debugRealloc (base : HeapBase) (host : Nat → Nat → Bool) (heap : Heap)
    (oldptr oldsize align newsize : Nat) : Option (Nat × Heap) := do
  if newsize = 0 then
    if oldptr = 0 then
      return (0, heap)
    let tag := u32Sub oldptr 4
    if (← heap.load tag) ≠ debugLive then
      none
    else
      let heap ← heap.store tag 0xFFFFFFFF
      let heap ← (if oldsize ≠ 0 then heap.memoryFill oldptr 0xFF oldsize else some heap)
      return (0, heap)
  else
    let gap := if align < 4 then 4 else align
    let (start, heap) ← heap.bump base host align (gap + newsize)
    let block := u32Add start gap
    return (block, ← heap.store (u32Sub block 4) debugLive)

end Heap

end Wado
