/-
Where the free-list heap takes what it hands out: an allocation traps only where there is no
room, moves the frontier only where no free block is large enough, and its bytes are its own.
-/
import Wado.HeapRuns

namespace Wado.Heap

open Option

variable {base : HeapBase} {heap heap' : Heap} {blocks left right : List Block}

theorem Laid.bump_start (h : Laid base heap blocks) :
    (heap.frontier base + (1 + 2 ^ 64 - 1) % 2 ^ 64) &&&
      (2 ^ 64 - 1 - (1 + 2 ^ 64 - 1) % 2 ^ 64) = base.addr + heap.heapOffset := by
  have htop := h.top_lt
  have hfrontier : heap.frontier base = base.addr + heap.heapOffset := u32Add_of_lt htop
  rw [Nat.add_sub_cancel_left, Nat.mod_self, Nat.add_zero, Nat.sub_zero,
    Nat.and_two_pow_sub_one_eq_mod, hfrontier, Nat.mod_eq_of_lt (by omega)]

theorem store_offset {addr value : Nat} (h : heap.store addr value = some heap') :
    heap'.heapOffset = heap.heapOffset := by
  unfold store at h
  split at h
  · cases h
    rfl
  · cases h

theorem flSetTags_offset {block size used : Nat} (h : heap.flSetTags block size used = some heap') :
    heap'.heapOffset = heap.heapOffset := by
  obtain ⟨heap₁, hfirst, hsecond⟩ := bind_eq_some_iff.mp h
  exact (store_offset hsecond).trans (store_offset hfirst)

theorem flPush_offset {block size : Nat} (h : heap.flPush base block size = some heap') :
    heap'.heapOffset = heap.heapOffset := by
  obtain ⟨head, -, h⟩ := bind_eq_some_iff.mp h
  obtain ⟨heap₁, h₁, h⟩ := bind_eq_some_iff.mp h
  obtain ⟨heap₂, h₂, h⟩ := bind_eq_some_iff.mp h
  obtain ⟨heap₃, h₃, h⟩ := bind_eq_some_iff.mp h
  have hthird : heap₃.heapOffset = heap₂.heapOffset := by
    split at h₃
    · exact store_offset h₃
    · cases h₃
      rfl
  exact (store_offset h).trans (hthird.trans ((store_offset h₂).trans (store_offset h₁)))

theorem flUnlink_offset {block : Nat} (h : heap.flUnlink base block = some heap') :
    heap'.heapOffset = heap.heapOffset := by
  obtain ⟨next, -, h⟩ := bind_eq_some_iff.mp h
  obtain ⟨prev, -, h⟩ := bind_eq_some_iff.mp h
  obtain ⟨heap₁, h₁, h⟩ := bind_eq_some_iff.mp h
  have hfirst : heap₁.heapOffset = heap.heapOffset := by
    split at h₁
    · obtain ⟨header, -, h₁⟩ := bind_eq_some_iff.mp h₁
      exact store_offset h₁
    · exact store_offset h₁
  split at h
  · exact (store_offset h).trans hfirst
  · cases h
    exact hfirst

/-- Taking a free block leaves the frontier where it is. -/
theorem take_offset {b size ptr : Nat} (h : heap.take base b size = some (ptr, heap')) :
    heap'.heapOffset = heap.heapOffset := by
  obtain ⟨tag, -, h⟩ := bind_eq_some_iff.mp h
  obtain ⟨heap₁, hunlink, h⟩ := bind_eq_some_iff.mp h
  obtain ⟨heap₂, hcarve, h⟩ := bind_eq_some_iff.mp h
  have hsecond : heap₂.heapOffset = heap₁.heapOffset := by
    unfold flCarve at hcarve
    simp only at hcarve
    split at hcarve
    · obtain ⟨heap₃, h₃, hcarve⟩ := bind_eq_some_iff.mp hcarve
      obtain ⟨heap₄, h₄, hcarve⟩ := bind_eq_some_iff.mp hcarve
      exact (flPush_offset hcarve).trans ((flSetTags_offset h₄).trans (flSetTags_offset h₃))
    · exact flSetTags_offset hcarve
  cases h
  exact hsecond.trans (flUnlink_offset hunlink)

/-- No room at the frontier for `size` more bytes: they end past the 32-bit
address space, or past a memory that the host refuses to grow. -/
def NoRoom (base : HeapBase) (host : Nat → Nat → Bool) (heap : Heap) (size : Nat) : Prop :=
  maxAddress < base.addr + heap.heapOffset + size ∨
    heap.memoryBytes < base.addr + heap.heapOffset + size ∧
      host heap.pages (pagesFor (base.addr + heap.heapOffset + size - heap.memoryBytes)) = false

variable {host : Nat → Nat → Bool}

/-- A memory that ends within the address space is refused by the host alone. -/
theorem memoryGrow_none {end_ : Nat} (hend : heap.memoryBytes < end_) (hmax : end_ ≤ maxAddress)
    (hrun : heap.memoryGrow host (pagesFor (end_ - heap.memoryBytes)) = none) :
    host heap.pages (pagesFor (end_ - heap.memoryBytes)) = false := by
  unfold memoryGrow at hrun
  split at hrun
  · cases hrun
  · rename_i hrefused
    have hpages : heap.pages + pagesFor (end_ - heap.memoryBytes) ≤ 65536 := by
      simp only [pagesFor, memoryBytes, pageSize, maxAddress] at *
      omega
    simpa [hpages] using hrefused

/-- Where `bump` traps, there is no room. -/
theorem Laid.bump_none {size : Nat} (h : Laid base heap blocks)
    (hrun : heap.bump base host 1 size = none) : NoRoom base host heap size := by
  have hstart := h.bump_start
  simp only [bump, hstart] at hrun
  split at hrun
  · exact Or.inl ‹_›
  · rename_i hmax
    split at hrun
    · rename_i hpast
      refine Or.inr ⟨hpast, memoryGrow_none hpast (by omega) ?_⟩
      cases hgrow : heap.growMemory host (base.addr + heap.heapOffset + size) with
      | some grown =>
        rw [hgrow] at hrun
        cases hrun
      | none =>
        simp only [growMemory] at hgrow
        split at hgrow
        · cases hgrow
        · exact hgrow
    · cases hrun

/-- Where an allocation at the frontier traps, there is no room. -/
theorem Laid.allocAtFrontier_none {size : Nat}
    (h : Laid base heap blocks) (hmod : size % 16 = 0) (hmin : 32 ≤ size)
    (hrun : allocAtFrontier base host heap size = none) : NoRoom base host heap size := by
  apply h.bump_none
  cases hbump : heap.bump base host 1 size with
  | none => rfl
  | some pair =>
    obtain ⟨a, heap₁⟩ := pair
    obtain ⟨heap₂, htags, -⟩ := (h.bump_spec hmod hmin hbump).settle_used
    rw [allocAtFrontier, hbump, bind_eq_bind, bind_some] at hrun
    simp only [htags] at hrun
    cases hrun

/-- The bytes from `a` up to `end_` and those from `a'` up to `end_'` are others. -/
def Apart (a end_ a' end_' : Nat) : Prop :=
  end_ ≤ a' ∨ end_' ≤ a

/-- What an allocation hands out: 16-byte aligned, in memory, and within the payload of the used
block `b`, which no other live pointer, no bin head and no tag shares. -/
structure HandsOut (base : HeapBase) (heap : Heap) (blocks : List Block) (live : List Live)
    (newsize ptr : Nat) (b : Block) : Prop where
  mem : b ∈ blocks
  used : b.kind = .used
  aligned : ptr % 16 = 0
  in_memory : ptr + newsize ≤ heap.memoryBytes
  within : b.addr ≤ ptr ∧ ptr + newsize ≤ b.addr + b.size
  live_apart : ∀ l ∈ live, ∃ c ∈ blocks, c.kind = .used ∧ l.ptr = c.addr + 8 ∧
    l.size + 16 ≤ c.size ∧ Apart b.addr (b.addr + b.size) c.addr (c.addr + c.size)
  bins_apart : ∀ k < 33, Apart ptr (ptr + newsize) (flBinSlot base k) (flBinSlot base k + 4)
  tags_apart : ∀ c ∈ blocks, Apart ptr (ptr + newsize) c.addr (c.addr + 4) ∧
    Apart ptr (ptr + newsize) (c.addr + c.size - 8) (c.addr + c.size - 4)

variable {live : List Live} {newsize : Nat}

/-- The payload of a used block that no live pointer had. -/
theorem Laid.handsOut {b : Block} (h : Laid base heap blocks)
    (hb : b ∈ blocks) (hused : b.kind = .used) (hroom : newsize + 16 ≤ b.size)
    (hlive : ∀ l ∈ live, ∃ c ∈ blocks, c.kind = .used ∧ l.ptr = c.addr + 8 ∧
      l.size + 16 ≤ c.size ∧ c.addr ≠ b.addr) :
    HandsOut base heap blocks live newsize (b.addr + 8) b where
  mem := hb
  used := hused
  aligned := by
    have := h.mem hb
    omega
  in_memory := by
    have := h.mem hb
    omega
  within := by
    omega
  live_apart := by
    intro l hl
    obtain ⟨c, hc, hcused, hptr, hsize, hne⟩ := hlive l hl
    refine ⟨c, hc, hcused, hptr, hsize, ?_⟩
    rcases h.tiles.eq_or_apart hb hc with rfl | hapart
    · exact absurd rfl hne
    · exact hapart
  bins_apart := by
    intro k hk
    have hslot := flBinSlot_place base hk
    have := h.mem hb
    exact Or.inr (by omega)
  tags_apart := by
    intro c hc
    have hbm := h.mem hb
    have hcm := h.mem hc
    rcases h.tiles.eq_or_apart hb hc with rfl | hapart | hapart
    · exact ⟨Or.inr (by omega), Or.inl (by omega)⟩
    · exact ⟨Or.inl (by omega), Or.inl (by omega)⟩
    · exact ⟨Or.inr (by omega), Or.inr (by omega)⟩

/-- What an allocation does on a heap laid out as `blocks`. -/
def AllocSafe (base : HeapBase) (host : Nat → Nat → Bool) (heap : Heap) (blocks : List Block)
    (live : List Live) (newsize : Nat) : Option (Nat × Heap) → Prop
  | none => (∀ b ∈ blocks, b.kind = .free → b.size < roundedSize newsize) ∧
      NoRoom base host heap (roundedSize newsize)
  | some (ptr, heap') =>
    (∃ blocks' b, Laid base heap' blocks' ∧ NoHole blocks' ∧
      HandsOut base heap' blocks' live newsize ptr b) ∧
    (heap'.heapOffset ≠ heap.heapOffset →
      ∀ b ∈ blocks, b.kind = .free → b.size < roundedSize newsize)

theorem Laid.alloc_safe (host : Nat → Nat → Bool)
    (h : Laid base heap blocks) (hnone : NoHole blocks) (hbacked : Backed blocks live)
    (hpos : newsize ≠ 0) (hlt : newsize < 2 ^ 32) :
    AllocSafe base host heap blocks live newsize (heap.alloc base host newsize) := by
  obtain ⟨hmod, hmin, hroom⟩ := roundedSize_place hpos
  rcases h.alloc_cases host hpos hlt with ⟨b, hb, hfree, hle, halloc⟩ | ⟨hsmall, halloc⟩
  · obtain ⟨heap₁, blocks', usedSize, htaken, h', hnone', hused, hmem, hkeep⟩ :=
      h.take_mem hnone hb hfree hmod hmin hle
    rw [halloc, htaken]
    refine ⟨⟨blocks', ⟨b.addr, usedSize, .used⟩, h', hnone', ?_⟩, fun hmoved => ?_⟩
    · refine h'.handsOut hmem rfl (by simp only; omega) fun l hl => ?_
      obtain ⟨c, hc, hcused, hptr, hsize⟩ := hbacked l hl
      refine ⟨c, hkeep c hc hcused, hcused, hptr, hsize, fun haddr => ?_⟩
      rw [h.eq_of_addr hc hb haddr, hfree] at hcused
      cases hcused
    · exact absurd (take_offset htaken) hmoved
  · rw [halloc]
    split
    · rename_i hmax
      exact ⟨hsmall, Or.inl (by omega)⟩
    · cases hrun : allocAtFrontier base host heap (roundedSize newsize) with
      | none => exact ⟨hsmall, h.allocAtFrontier_none hmod hmin hrun⟩
      | some pair =>
        obtain ⟨ptr, heap'⟩ := pair
        obtain ⟨a, rfl, h'⟩ := h.allocAtFrontier_spec hmod hmin hrun
        refine ⟨⟨_, ⟨a, roundedSize newsize, .used⟩, h', ?_, ?_⟩, fun _ => hsmall⟩
        · intro c hc
          rcases List.mem_append.mp hc with hc | hc
          · exact hnone c hc
          · rw [List.mem_singleton.mp hc]
            simp
        · refine h'.handsOut (b := ⟨a, roundedSize newsize, .used⟩) (by simp) rfl hroom
            fun l hl => ?_
          obtain ⟨c, hc, hcused, hptr, hsize⟩ := hbacked l hl
          refine ⟨c, List.mem_append_left _ hc, hcused, hptr, hsize, fun haddr => ?_⟩
          obtain ⟨middle, hold, hmiddle, -⟩ := (tiles_append _ _ _ _).mp h'.tiles
          have := hold.mem hc
          simp only at haddr hmiddle
          omega

/-- Allocation safety: in every reachable state an allocation traps only when no free block is
large enough and there is no room at the frontier, and else hands out bytes that are its own; it
moves the frontier only when no free block is large enough. -/
theorem freelist_alloc_safe (host : Nat → Nat → Bool) {calls : Nat} {live : List Live}
    (h : Reachable base calls heap live) (oldptr : Nat) {newsize : Nat} (hpos : newsize ≠ 0)
    (hlt : newsize < 2 ^ 32) :
    ∃ heap₁ blocks, heap.init base = some heap₁ ∧ Laid base heap₁ blocks ∧ NoHole blocks ∧
      Backed blocks live ∧
      AllocSafe base host heap₁ blocks live newsize
        (heap.freelistRealloc base host oldptr newsize) := by
  obtain ⟨heap₁, blocks, hinit, hlaid, hnone, hbacked⟩ := h.sound.init
  refine ⟨heap₁, blocks, hinit, hlaid, hnone, hbacked, ?_⟩
  rw [freelistRealloc, hinit, Option.bind_eq_bind, Option.bind_some, if_neg hpos]
  exact hlaid.alloc_safe host hnone hbacked hpos hlt

/-- The first allocation, of 100 bytes. -/
theorem freelist_alloc_safe_first :
    ∃ heap₁ blocks, (start ⟨2, by decide⟩ fun _ => 0).init ⟨2, by decide⟩ = some heap₁ ∧
      Laid ⟨2, by decide⟩ heap₁ blocks ∧ NoHole blocks ∧ Backed blocks [] ∧
      AllocSafe ⟨2, by decide⟩ (fun _ _ => false) heap₁ blocks [] 100
        ((start ⟨2, by decide⟩ fun _ => 0).freelistRealloc ⟨2, by decide⟩
          (fun _ _ => false) 0 100) :=
  freelist_alloc_safe _ (.start fun _ _ => rfl) 0 (by decide) (by decide)

end Wado.Heap
