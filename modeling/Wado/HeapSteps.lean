/-
The allocator's steps on a row of blocks.  A block an operation works on is made
a hole, grown over the holes beside it, and settled as a used or a free block.
-/
import Wado.HeapLinks

namespace Wado.Heap

open ByteMemory LinkedSegment List Option

variable {base : HeapBase} {heap heap' : Heap} {blocks left right middle middle' : List Block}

/-- Blocks that are not free may become any holes over the same range. -/
theorem Laid.clear (h : Laid base heap (left ++ (middle ++ right)))
    (hmiddle : ∀ b ∈ middle, b.kind ≠ .free) (hholes : ∀ b ∈ middle', b.kind = .hole)
    (htiles : ∀ first end_, Tiles first middle end_ → Tiles first middle' end_) :
    Laid base heap (left ++ (middle' ++ right)) where
  top_lt := h.top_lt
  top_le := h.top_le
  tiles := by
    obtain ⟨start, hleft, hrest⟩ := (tiles_append _ _ _ _).mp h.tiles
    obtain ⟨stop, hmid, hright⟩ := (tiles_append _ _ _ _).mp hrest
    exact (tiles_append _ _ _ _).mpr
      ⟨start, hleft, (tiles_append _ _ _ _).mpr ⟨stop, htiles _ _ hmid, hright⟩⟩
  tags b hb hne := by
    simp only [mem_append] at hb
    rcases hb with hb | hb | hb
    · exact h.tags b (by simp [hb]) hne
    · exact absurd (hholes b hb) hne
    · exact h.tags b (by simp [hb]) hne
  apart b hb c hc hnext hfree := by
    have hold : ∀ d ∈ left ++ (middle' ++ right), d.kind = .free →
        d ∈ left ++ (middle ++ right) := by
      intro d hd hdfree
      simp only [mem_append] at hd ⊢
      rcases hd with hd | hd | hd
      · exact Or.inl hd
      · rw [hholes d hd] at hdfree
        cases hdfree
      · exact Or.inr (Or.inr hd)
    exact h.apart b (hold b hb hfree.1) c (hold c hc hfree.2) hnext hfree
  binned := by
    obtain ⟨bins, hbins⟩ := h.binned
    refine ⟨bins, fun k hk a => ?_, hbins.nodup, hbins.head_eq, hbins.linked⟩
    rw [hbins.mem_iff k hk a]
    constructor
    · rintro ⟨b, hb, hba, hfree, hbin⟩
      refine ⟨b, ?_, hba, hfree, hbin⟩
      simp only [mem_append] at hb ⊢
      rcases hb with hb | hb | hb
      · exact Or.inl hb
      · exact absurd hfree (hmiddle b hb)
      · exact Or.inr (Or.inr hb)
    · rintro ⟨b, hb, hba, hfree, hbin⟩
      refine ⟨b, ?_, hba, hfree, hbin⟩
      simp only [mem_append] at hb ⊢
      rcases hb with hb | hb | hb
      · exact Or.inl hb
      · rw [hholes b hb] at hfree
        cases hfree
      · exact Or.inr (Or.inr hb)

variable {a size : Nat}

/-- A used block an operation takes over. -/
theorem Laid.forget (h : Laid base heap (left ++ ⟨a, size, .used⟩ :: right)) :
    Laid base heap (left ++ ⟨a, size, .hole⟩ :: right) :=
  (@Laid.clear _ _ _ _ ([⟨a, size, .used⟩]) ([⟨a, size, .hole⟩]) h (by simp) (by simp)
      (fun _ _ htiles => htiles))

/-- Two holes side by side are one. -/
theorem Laid.merge {a size b size' : Nat}
    (h : Laid base heap (left ++ ⟨a, size, .hole⟩ :: ⟨b, size', .hole⟩ :: right)) :
    b = a + size ∧ Laid base heap (left ++ ⟨a, size + size', .hole⟩ :: right) := by
  refine ⟨?_, (@Laid.clear _ _ _ _ ([⟨a, size, .hole⟩, ⟨b, size', .hole⟩])
      ([⟨a, size + size', .hole⟩]) h (by simp) (by simp) ?_)⟩
  · obtain ⟨_, -, ha, -, -, hb, -⟩ := (tiles_append _ _ _ _).mp h.tiles
    simp only at ha hb
    omega
  · rintro first end_ ⟨ha, hmod, hmin, hb, hmod', hmin', hend⟩
    simp only [Tiles] at *
    omega

/-- A hole is two holes side by side. -/
theorem Laid.split {a size size' : Nat} (hmod : size % 16 = 0) (hmin : 32 ≤ size)
    (hmod' : size' % 16 = 0) (hmin' : 32 ≤ size')
    (h : Laid base heap (left ++ ⟨a, size + size', .hole⟩ :: right)) :
    Laid base heap (left ++ ⟨a, size, .hole⟩ :: ⟨a + size, size', .hole⟩ :: right) := by
  refine (@Laid.clear _ _ _ _ ([⟨a, size + size', .hole⟩])
      ([⟨a, size, .hole⟩, ⟨a + size, size', .hole⟩]) h (by simp) (by simp) ?_)
  rintro first end_ ⟨ha, -, -, hend⟩
  simp only [Tiles] at *
  omega

/-- A change of words that are neither tags nor link words. -/
theorem Laid.congr {changes : Nat → Prop} (h : Laid base heap blocks)
    (hrw : Rewrites heap heap' changes)
    (htags : ∀ b ∈ blocks, b.kind ≠ .hole → ¬ changes b.addr ∧ ¬ changes (b.addr + b.size - 8))
    (hlinks : ∀ b ∈ blocks, b.kind = .free → ¬ changes (b.addr + 8) ∧ ¬ changes (b.addr + 12))
    (hslots : ∀ k < 33, ¬ changes (flBinSlot base k)) : Laid base heap' blocks where
  top_lt := by
    rw [hrw.offset_eq]
    exact h.top_lt
  top_le := by
    rw [hrw.offset_eq, hrw.memoryBytes_eq]
    exact h.top_le
  tiles := by
    rw [hrw.offset_eq]
    exact h.tiles
  tags b hb hne := by
    have := h.mem hb
    obtain ⟨hhead, hfoot⟩ := htags b hb hne
    rw [hrw.word_eq _ (by omega) hhead, hrw.word_eq _ (by omega) hfoot]
    exact h.tags b hb hne
  apart := h.apart
  binned := by
    obtain ⟨bins, hbins⟩ := h.binned
    have hkept := fun {k : Nat} (hk : k < 33) => h.bin_kept hbins hrw hk fun x hx => by
      rcases hx with rfl | ⟨n, hn, hx⟩
      · exact hslots k hk
      · obtain ⟨b, hb, rfl, hfree, -⟩ := (hbins.mem_iff k hk n).mp hn
        obtain ⟨hnext, hprev⟩ := hlinks b hb hfree
        rcases hx with rfl | rfl
        · exact hnext
        · exact hprev
    exact ⟨bins, hbins.mem_iff, hbins.nodup, fun k hk => (hkept hk).1, fun k hk => (hkept hk).2⟩

/-- Writing the tags of a hole. -/
theorem Laid.flSetTags_spec (kind : Kind) (h : Laid base heap (left ++ ⟨a, size, .hole⟩ :: right)) :
    ∃ heap', heap.flSetTags a size kind.bit = some heap' ∧
      Laid base heap' (left ++ ⟨a, size, .hole⟩ :: right) ∧
      word heap'.bytes a = size + kind.bit ∧ word heap'.bytes (a + size - 8) = size + kind.bit := by
  have hblock := h.mem (b := ⟨a, size, .hole⟩) (mem_middle.mpr (Or.inl rfl))
  simp only at hblock
  have hbit : kind.bit ≤ 1 := by cases kind <;> decide
  have htag : u32Add size kind.bit = size + kind.bit := u32Add_of_lt (by omega)
  have hfoot : u32Sub (u32Add a size) 8 = a + size - 8 := by
    rw [u32Add_of_lt (by omega), u32Sub_of_le (by omega) (by omega)]
  obtain ⟨heap₁, hstore₁, hrw₁, hword₁⟩ := (@store_rewrites heap a (by omega) (by omega)
      (size + kind.bit) (by omega))
  have hbytes₁ := hrw₁.memoryBytes_eq
  obtain ⟨heap₂, hstore₂, hrw₂, hword₂⟩ := (@store_rewrites heap₁ (a + size - 8) (by omega)
      (by omega) (size + kind.bit) (by omega))
  refine ⟨heap₂, ?_, h.congr (hrw₁.trans hrw₂) ?_ ?_ ?_, ?_, hword₂⟩
  · unfold flSetTags
    simp only []
    rw [htag, hfoot, hstore₁, bind_eq_bind, bind_some, hstore₂]
  · intro b hb hne
    have hbm := h.mem hb
    rcases mem_middle.mp hb with rfl | hb
    · exact absurd rfl hne
    · have := h.tiles.around hb
      simp only at this
      omega
  · intro b hb hfree
    have hbm := h.mem hb
    rcases mem_middle.mp hb with rfl | hb
    · cases hfree
    · have := h.tiles.around hb
      simp only at this
      omega
  · intro k hk
    have := flBinSlot_place base hk
    omega
  · rw [hrw₂.word_eq _ (by omega) (by omega), hword₁]

section

variable (h : Laid base heap (left ++ ⟨a, size, .hole⟩ :: right))
include h

/-- A hole with its tags written is a used block. -/
theorem Laid.settle_used :
    ∃ heap', heap.flSetTags a size 1 = some heap' ∧
      Laid base heap' (left ++ ⟨a, size, .used⟩ :: right) := by
  obtain ⟨heap', hrun, h', htags⟩ := h.flSetTags_spec .used
  refine ⟨heap', hrun, h'.rekind ⟨rfl, rfl, fun _ _ _ => rfl⟩ (fun _ => htags) (by simp) ?_⟩
  obtain ⟨bins, hbins⟩ := h'.binned
  refine ⟨bins, fun k hk x => ?_, hbins.nodup, hbins.head_eq, hbins.linked⟩
  rw [hbins.mem_iff k hk x]
  simp only [mem_middle, or_and_right, exists_or, exists_eq_left, reduceCtorEq, false_and,
    and_false, false_or]

/-- A hole with its tags written and pushed is a free block. -/
theorem Laid.settle_free (hleft : ∀ c ∈ left, c.addr + c.size = a → c.kind ≠ .free)
    (hright : ∀ c ∈ right, a + size = c.addr → c.kind ≠ .free) :
    ∃ heap', (do
      let heap ← heap.flSetTags a size 0
      heap.flPush base a size) = some heap' ∧
      Laid base heap' (left ++ ⟨a, size, .free⟩ :: right) := by
  have hblock := h.mem (b := ⟨a, size, .hole⟩) (mem_middle.mpr (Or.inl rfl))
  simp only at hblock
  obtain ⟨_, htilesLeft, rfl, -, -, htilesRight⟩ := (tiles_append _ _ _ _).mp h.tiles
  simp only at htilesLeft htilesRight
  have hapart : ∀ c, c ∈ left ∨ c ∈ right → c.addr + c.size = a ∨ a + size = c.addr →
      c.kind ≠ .free := by
    rintro c (hc | hc) hbeside
    · have := htilesLeft.mem hc
      exact hleft c hc (by omega)
    · have := htilesRight.mem hc
      exact hright c hc (by omega)
  obtain ⟨heap₁, hrun₁, h₁, htags⟩ := h.flSetTags_spec .hole
  obtain ⟨heap₂, hrun₂, -, h₂⟩ := h₁.flPush_spec htags hapart
  refine ⟨heap₂, ?_, h₂⟩
  rw [show heap.flSetTags a size 0 = some heap₁ from hrun₁, bind_eq_bind, bind_some,
    hrun₂]

end

/-- Blocks with no hole among them. -/
def NoHole (blocks : List Block) : Prop :=
  ∀ b ∈ blocks, b.kind ≠ .hole

/-- What a block's header says of it. -/
theorem Laid.header {b : Block} (h : Laid base heap blocks) (hb : b ∈ blocks)
    (hne : b.kind ≠ .hole) :
    heap.load b.addr = some (b.size + b.kind.bit) ∧ flSize (b.size + b.kind.bit) = b.size ∧
      (flUsed (b.size + b.kind.bit) = 0 ↔ b.kind = .free) := by
  have hbm := h.mem hb
  refine ⟨by rw [load_of_le (by omega), (h.tags b hb hne).1], flSize_tag hbm.2.2.2.1 (by omega) _,
    ?_⟩
  rw [flUsed_tag hbm.2.2.2.1]
  cases hkind : b.kind with
  | used => simp [Kind.bit]
  | free => simp [Kind.bit]
  | hole => exact absurd hkind hne

section

variable (h : Laid base heap (left ++ ⟨a, size, .hole⟩ :: right))
include h

/-- The hole grows over the block after it, when that is free. -/
theorem Laid.absorbNext_spec (hright : NoHole right) :
    ∃ heap' size' right', heap.absorbNext base a size = some (heap', size') ∧
      Laid base heap' (left ++ ⟨a, size', .hole⟩ :: right') ∧
      (right' = right ∨ ∃ c, c.kind = .free ∧ right = c :: right') ∧
      ∀ c ∈ right', a + size' = c.addr → c.kind ≠ .free := by
  have hblock := h.mem (b := ⟨a, size, .hole⟩) (mem_middle.mpr (Or.inl rfl))
  simp only at hblock
  have hnext : u32Add a size = a + size := u32Add_of_lt (by omega)
  have hfrontier : heap.frontier base = base.addr + heap.heapOffset := u32Add_of_lt h.top_lt
  obtain ⟨start, -, ha, -, -, htiles⟩ := (tiles_append _ _ _ _).mp h.tiles
  unfold absorbNext
  simp only [hnext, hfrontier]
  cases right with
  | nil =>
    have hend : ¬ a + size < base.addr + heap.heapOffset := by
      simp only [Tiles] at htiles ha
      omega
    rw [if_neg hend]
    exact ⟨heap, size, [], rfl, h, Or.inl rfl, by simp⟩
  | cons c right =>
    have hc : c ∈ left ++ ⟨a, size, .hole⟩ :: c :: right := by simp
    have hcm := h.mem hc
    have haddr : a + size = c.addr := by
      have := htiles.1
      simp only at this ha
      omega
    obtain ⟨hload, hsize, hused⟩ := h.header hc (hright c mem_cons_self)
    rw [if_pos (by omega), haddr, hload, bind_eq_bind, bind_some]
    by_cases hfree : c.kind = .free
    · rw [if_pos (hused.mpr hfree), hsize]
      obtain ⟨addr', size', kind'⟩ := c
      simp only at hfree haddr hcm ⊢
      subst hfree haddr
      have h' : Laid base heap ((left ++ [⟨a, size, .hole⟩]) ++
          ⟨a + size, size', .free⟩ :: right) := by simpa using h
      obtain ⟨heap₁, hunlink, -, h₁⟩ := h'.flUnlink_spec
      have hmerge : Laid base heap₁ (left ++ ⟨a, size + size', .hole⟩ :: right) :=
        (Laid.merge (by simpa using h₁)).2
      rw [hunlink, bind_eq_bind, bind_some, u32Add_of_lt (by omega)]
      refine ⟨heap₁, size + size', right, rfl, hmerge, Or.inr ⟨_, rfl, rfl⟩, ?_⟩
      intro d hd hda hdfree
      exact h.apart ⟨a + size, size', .free⟩ hc d (by simp [hd]) (by simp only; omega)
        ⟨rfl, hdfree⟩
    · rw [if_neg fun hu => hfree (hused.mp hu)]
      refine ⟨heap, size, c :: right, rfl, h, Or.inl rfl, ?_⟩
      intro d hd hda
      have hdc := h.eq_of_addr (mem_middle.mpr (Or.inr (Or.inr hd))) hc (by omega)
      rw [hdc]
      exact hfree

/-- The hole grows over the block before it, when that is free. -/
theorem Laid.absorbPrev_spec (hleft : NoHole left) :
    ∃ heap' a' size' left', heap.absorbPrev base a size = some (heap', a', size') ∧
      Laid base heap' (left' ++ ⟨a', size', .hole⟩ :: right) ∧ a' + size' = a + size ∧
      (left' = left ∨ ∃ c, c.kind = .free ∧ left = left' ++ [c]) ∧
      ∀ c ∈ left', c.addr + c.size = a' → c.kind ≠ .free := by
  have hblock := h.mem (b := ⟨a, size, .hole⟩) (mem_middle.mpr (Or.inl rfl))
  have hbase := HeapBase.addr_lt base
  simp only at hblock
  have hfirst : u32Add base.addr 152 = base.addr + 152 := u32Add_of_lt (by omega)
  obtain ⟨start, htiles, ha, -⟩ := (tiles_append _ _ _ _).mp h.tiles
  simp only at ha
  unfold absorbPrev
  rw [hfirst]
  rcases eq_nil_or_concat left with rfl | ⟨left, c, rfl⟩
  · have hstart : ¬ a > base.addr + 152 := by
      simp only [Tiles] at htiles
      omega
    rw [if_neg hstart]
    exact ⟨heap, a, size, [], rfl, h, rfl, Or.inl rfl, by simp⟩
  · rw [concat_eq_append] at h hleft htiles ⊢
    have hc : c ∈ (left ++ [c]) ++ ⟨a, size, .hole⟩ :: right := by simp
    have hcm := h.mem hc
    have haddr : c.addr + c.size = a := by
      obtain ⟨_, -, hca, -, -, hend⟩ := (tiles_append _ _ _ _).mp htiles
      simp only [Tiles] at hend
      omega
    have hne := hleft c (by simp)
    obtain ⟨-, hsize, hused⟩ := h.header hc hne
    have hload : heap.load (u32Sub a 8) = some (c.size + c.kind.bit) := by
      have hfoot := (h.tags c hc hne).2
      rw [u32Sub_of_le (by omega) (by omega), load_of_le (by omega), ← hfoot, haddr]
    rw [if_pos (by omega), hload, bind_eq_bind, bind_some]
    by_cases hfree : c.kind = .free
    · rw [if_pos (hused.mpr hfree), hsize]
      obtain ⟨addr', size', kind'⟩ := c
      simp only at hfree haddr hcm ⊢
      subst hfree haddr
      have h' : Laid base heap (left ++ ⟨addr', size', .free⟩ ::
          (⟨addr' + size', size, .hole⟩ :: right)) := by simpa using h
      obtain ⟨heap₁, hunlink, -, h₁⟩ := h'.flUnlink_spec
      have hprev : u32Sub (addr' + size') size' = addr' := by
        rw [u32Sub_of_le (by omega) (by omega), Nat.add_sub_cancel]
      rw [hprev, hunlink, bind_eq_bind, bind_some, u32Add_of_lt (by omega)]
      refine ⟨heap₁, addr', size + size', left, rfl, ?_, by omega, Or.inr ⟨_, rfl, rfl⟩, ?_⟩
      · rw [Nat.add_comm size size']
        exact h₁.merge.2
      · intro d hd hda hdfree
        exact h.apart d (by simp [hd]) ⟨addr', size', .free⟩ hc hda ⟨hdfree, rfl⟩
    · rw [if_neg fun hu => hfree (hused.mp hu)]
      refine ⟨heap, a, size, left ++ [c], rfl, h, rfl, Or.inl rfl, ?_⟩
      intro d hd hda
      have hdmem : d ∈ left ++ [c] ++ ⟨a, size, .hole⟩ :: right := mem_append_left _ hd
      have hdm := h.mem hdmem
      have hdc : d = c := (h.tiles.eq_or_apart hdmem hc).resolve_right (by omega)
      rw [hdc]
      exact hfree

end

/-- Freeing a used block: it and the free blocks beside it become one. -/
theorem Laid.free_spec
    (h : Laid base heap (left ++ ⟨a, size, .used⟩ :: right)) (hleft : NoHole left)
    (hright : NoHole right) :
    ∃ heap' blocks', heap.free base (a + 8) = some heap' ∧ Laid base heap' blocks' ∧
      NoHole blocks' ∧ ∀ b, b.kind = .used → (b ∈ left ∨ b ∈ right) → b ∈ blocks' := by
  have hb : (⟨a, size, .used⟩ : Block) ∈ left ++ ⟨a, size, .used⟩ :: right :=
    mem_middle.mpr (Or.inl rfl)
  have hblock := h.mem hb
  simp only at hblock
  obtain ⟨hload, hsize, hused⟩ := h.header hb (by simp)
  obtain ⟨heap₁, size₁, right', hnext, h₁, hright', hnextApart⟩ := h.forget.absorbNext_spec hright
  obtain ⟨heap₂, a₂, size₂, left', hprev, h₂, hend, hleft', hprevApart⟩ :=
    h₁.absorbPrev_spec hleft
  have hkeepRight : ∀ c, c.kind = .used → c ∈ right → c ∈ right' := by
    rcases hright' with rfl | ⟨d, hd, rfl⟩
    · exact fun _ _ hc => hc
    · rintro c hc hmem
      rcases mem_cons.mp hmem with rfl | hmem
      · rw [hd] at hc
        cases hc
      · exact hmem
  have hkeepLeft : ∀ c, c.kind = .used → c ∈ left → c ∈ left' := by
    rcases hleft' with rfl | ⟨d, hd, rfl⟩
    · exact fun _ _ hc => hc
    · rintro c hc hmem
      rcases mem_append.mp hmem with hmem | hmem
      · exact hmem
      · rw [mem_singleton.mp hmem, hd] at hc
        cases hc
  have hsubRight : ∀ c ∈ right', c ∈ right := by
    rcases hright' with rfl | ⟨d, -, rfl⟩
    · exact fun _ hc => hc
    · exact fun _ hc => mem_cons_of_mem d hc
  have hsubLeft : ∀ c ∈ left', c ∈ left := by
    rcases hleft' with rfl | ⟨d, -, rfl⟩
    · exact fun _ hc => hc
    · exact fun _ hc => mem_append_left [d] hc
  obtain ⟨heap₃, hpush, h₃⟩ := h₂.settle_free hprevApart (hend ▸ hnextApart)
  refine ⟨heap₃, _, ?_, h₃, ?_, ?_⟩
  · have hold : u32Sub (a + 8) 8 = a := by
      rw [u32Sub_of_le (by omega) (by omega), Nat.add_sub_cancel]
    unfold free
    rw [if_neg (by omega)]
    simp only [hold]
    rw [hload, bind_eq_bind, bind_some, if_neg fun hu => by simpa using hused.mp hu,
      hsize, hnext, bind_eq_bind, bind_some, hprev, bind_eq_bind,
      bind_some]
    exact hpush
  · intro c hc
    rcases mem_middle.mp hc with rfl | hc | hc
    · simp
    · exact hleft c (hsubLeft c hc)
    · exact hright c (hsubRight c hc)
  · rintro c hc (hmem | hmem)
    · exact mem_middle.mpr (Or.inr (Or.inl (hkeepLeft c hc hmem)))
    · exact mem_middle.mpr (Or.inr (Or.inr (hkeepRight c hc hmem)))

/-- Allocating out of a free block: its front becomes used, and its rest stays
free when that is a block. -/
theorem Laid.take_spec {a blockSize size : Nat}
    (h : Laid base heap (left ++ ⟨a, blockSize, .free⟩ :: right)) (hleft : NoHole left)
    (hright : NoHole right) (hmod : size % 16 = 0) (hmin : 32 ≤ size) (hle : size ≤ blockSize) :
    ∃ heap' blocks' usedSize, heap.take base a size = some (a + 8, heap') ∧
      Laid base heap' blocks' ∧ NoHole blocks' ∧ size ≤ usedSize ∧
      (⟨a, usedSize, .used⟩ : Block) ∈ blocks' ∧ ∀ b, b ∈ left ∨ b ∈ right → b ∈ blocks' := by
  have hb : (⟨a, blockSize, .free⟩ : Block) ∈ left ++ ⟨a, blockSize, .free⟩ :: right :=
    mem_middle.mpr (Or.inl rfl)
  have hblock := h.mem hb
  simp only at hblock
  obtain ⟨hload, hsize, -⟩ := h.header hb (by simp)
  simp only at hload hsize
  obtain ⟨heap₁, hunlink, -, h₁⟩ := h.flUnlink_spec
  have hrest : u32Sub blockSize size = blockSize - size := u32Sub_of_le hle (by omega)
  have haddr : u32Add a 8 = a + 8 := u32Add_of_lt (by omega)
  have hrun : heap.take base a size = do
      let heap ← heap₁.flCarve base a blockSize size
      return (a + 8, heap) := by
    unfold take
    rw [hload, bind_eq_bind, bind_some]
    simp only [hsize]
    rw [hunlink, bind_eq_bind, bind_some, haddr]
  rw [hrun]
  unfold flCarve
  simp only [hrest]
  by_cases hsplit : blockSize - size ≥ 32
  · rw [if_pos hsplit]
    have h₂ : Laid base heap₁ (left ++ ⟨a, size, .hole⟩ :: ⟨a + size, blockSize - size, .hole⟩ ::
        right) := by
      refine Laid.split hmod hmin (by omega) hsplit ?_
      rwa [Nat.add_sub_cancel' hle]
    obtain ⟨heap₂, htags, h₃⟩ := h₂.settle_used
    have h₄ : Laid base heap₂ ((left ++ [⟨a, size, .used⟩]) ++
        ⟨a + size, blockSize - size, .hole⟩ :: right) := by
      rwa [append_assoc]
    have hfront : ∀ c ∈ left ++ [⟨a, size, .used⟩], c.addr + c.size = a + size →
        c.kind ≠ .free := by
      intro c hc hca
      rcases mem_append.mp hc with hc | hc
      · have hcm := h.mem (mem_middle.mpr (Or.inr (Or.inl hc)))
        have := h.tiles.around (Or.inl hc)
        simp only at this
        omega
      · rw [mem_singleton.mp hc]
        simp
    have hback : ∀ c ∈ right, a + size + (blockSize - size) = c.addr → c.kind ≠ .free := by
      intro c hc hca hfree
      exact h.apart _ hb c (mem_middle.mpr (Or.inr (Or.inr hc))) (by simp only; omega)
        ⟨rfl, hfree⟩
    obtain ⟨heap₃, hpush, h₅⟩ := h₄.settle_free hfront hback
    refine ⟨heap₃, _, size, ?_, h₅, ?_, Nat.le_refl size, by simp, ?_⟩
    · have hnext : u32Add a size = a + size := u32Add_of_lt (by omega)
      rw [hnext]
      exact bind_eq_some_iff.mpr
        ⟨heap₃, bind_eq_some_iff.mpr ⟨heap₂, htags, hpush⟩, rfl⟩
    · intro c hc
      simp only [mem_append, mem_cons, not_mem_nil, or_false] at hc
      rcases hc with (hc | rfl) | rfl | hc
      · exact hleft c hc
      · simp
      · simp
      · exact hright c hc
    · intro c hc
      simp only [mem_append, mem_cons]
      rcases hc with hc | hc
      · exact Or.inl (Or.inl hc)
      · exact Or.inr (Or.inr hc)
  · rw [if_neg hsplit]
    obtain ⟨heap₂, htags, h₃⟩ := h₁.settle_used
    refine ⟨heap₂, _, blockSize, ?_, h₃, ?_, hle, mem_middle.mpr (Or.inl rfl),
      fun c hc => mem_middle.mpr (Or.inr hc)⟩
    · exact bind_eq_some_iff.mpr ⟨heap₂, htags, rfl⟩
    · intro c hc
      rcases mem_middle.mp hc with rfl | hc | hc
      · simp
      · exact hleft c hc
      · exact hright c hc

variable {host : Nat → Nat → Bool}

/-- A grow of enough pages holds the bytes asked for. -/
theorem memoryGrow_some {bytes end_ : Nat}
    (hrun : heap.memoryGrow host (pagesFor bytes) = some heap')
    (hbytes : end_ ≤ heap.memoryBytes + bytes) :
    heap'.bytes = heap.bytes ∧ heap'.heapOffset = heap.heapOffset ∧
      heap.memoryBytes ≤ heap'.memoryBytes ∧ end_ ≤ heap'.memoryBytes := by
  unfold memoryGrow at hrun
  split at hrun
  · cases hrun
    refine ⟨rfl, rfl, ?_, ?_⟩
    · exact Nat.mul_le_mul_right pageSize (Nat.le_add_right heap.pages _)
    · have hcover : bytes ≤ pagesFor bytes * pageSize := by
        simp only [pagesFor, pageSize]
        omega
      simp only [memoryBytes, Nat.add_mul] at hbytes ⊢
      omega
  · cases hrun

/-- The rounded step is at least the deficit. -/
theorem le_roundUp {deficit : Nat} (h : 0 < deficit) (hlt : deficit ≤ 2 ^ 64) :
    deficit ≤ 1 <<< (64 - clz (deficit - 1)) := by
  have hsize : Nat.size (deficit - 1) ≤ 64 := Nat.size_le.mpr (by omega)
  have := Nat.lt_size_self (deficit - 1)
  rw [clz, Nat.sub_sub_self hsize, Nat.shiftLeft_eq, one_mul]
  omega

/-- What growing memory gives holds the bytes asked for. -/
theorem growMemory_some {end_ : Nat}
    (hrun : heap.growMemory host end_ = some heap') (hend : heap.memoryBytes < end_)
    (hmax : end_ ≤ maxAddress) :
    heap'.bytes = heap.bytes ∧ heap'.heapOffset = heap.heapOffset ∧
      heap.memoryBytes ≤ heap'.memoryBytes ∧ end_ ≤ heap'.memoryBytes := by
  have hround := (@le_roundUp (end_ - heap.memoryBytes) (by omega)
      (by rw [maxAddress] at hmax; omega))
  simp only [growMemory] at hrun
  split at hrun
  · rename_i heap₁ hgrow
    cases hrun
    exact memoryGrow_some hgrow (by
      split
      · split
        · omega
        · omega
      · split
        · omega
        · omega)
  · exact memoryGrow_some hrun (by omega)

section

variable (h : Laid base heap blocks)
include h

/-- The layout does not depend on what lies past the frontier. -/
theorem Laid.grow (hbytes : heap'.bytes = heap.bytes) (hoffset : heap'.heapOffset = heap.heapOffset)
    (hmemory : heap.memoryBytes ≤ heap'.memoryBytes) : Laid base heap' blocks where
  top_lt := hoffset ▸ h.top_lt
  top_le := Nat.le_trans (hoffset ▸ h.top_le) hmemory
  tiles := hoffset ▸ h.tiles
  tags := hbytes ▸ h.tags
  apart := h.apart
  binned := hbytes ▸ h.binned

/-- Moving the frontier makes what it passes a hole. -/
theorem Laid.extend {size : Nat} (hmod : size % 16 = 0)
    (hmin : 32 ≤ size) (htop : base.addr + heap.heapOffset + size < 2 ^ 32)
    (hmemory : base.addr + heap.heapOffset + size ≤ heap.memoryBytes) :
    Laid base { heap with heapOffset := heap.heapOffset + size }
      (blocks ++ [⟨base.addr + heap.heapOffset, size, .hole⟩]) where
  top_lt := by
    show base.addr + (heap.heapOffset + size) < 2 ^ 32
    omega
  top_le := by
    show base.addr + (heap.heapOffset + size) ≤ heap.memoryBytes
    omega
  tiles := (tiles_append _ _ _ _).mpr
    ⟨_, h.tiles, rfl, hmod, hmin, Nat.add_assoc _ _ _⟩
  tags b hb hne := by
    rcases mem_append.mp hb with hb | hb
    · exact h.tags b hb hne
    · rw [mem_singleton.mp hb] at hne
      exact absurd rfl hne
  apart b hb c hc hnext hfree := by
    have hold : ∀ d ∈ blocks ++ [⟨base.addr + heap.heapOffset, size, .hole⟩], d.kind = .free →
        d ∈ blocks := by
      intro d hd hdfree
      rcases mem_append.mp hd with hd | hd
      · exact hd
      · rw [mem_singleton.mp hd] at hdfree
        cases hdfree
    exact h.apart b (hold b hb hfree.1) c (hold c hc hfree.2) hnext hfree
  binned := by
    obtain ⟨bins, hbins⟩ := h.binned
    refine ⟨bins, fun k hk a => ?_, hbins.nodup, hbins.head_eq, hbins.linked⟩
    rw [hbins.mem_iff k hk a]
    simp only [mem_append, mem_singleton, or_and_right, exists_or, exists_eq_left,
      reduceCtorEq, false_and, and_false, or_false]

/-- What `bump` takes becomes a hole. -/
theorem Laid.bump_spec {size a : Nat}
    (hmod : size % 16 = 0) (hmin : 32 ≤ size) (hrun : heap.bump base host 1 size =
      some (a, heap')) :
    Laid base heap' (blocks ++ [⟨a, size, .hole⟩]) := by
  have hbase := HeapBase.addr_lt base
  have htop := h.top_lt
  have hfrontier : heap.frontier base = base.addr + heap.heapOffset := u32Add_of_lt htop
  have hstart : (heap.frontier base + (1 + 2 ^ 64 - 1) % 2 ^ 64) &&&
      (2 ^ 64 - 1 - (1 + 2 ^ 64 - 1) % 2 ^ 64) = base.addr + heap.heapOffset := by
    rw [Nat.add_sub_cancel_left, Nat.mod_self, Nat.add_zero, Nat.sub_zero,
      Nat.and_two_pow_sub_one_eq_mod, hfrontier, Nat.mod_eq_of_lt (by omega)]
  simp only [bump, hstart] at hrun
  split at hrun
  · cases hrun
  · rename_i hmax
    simp only [maxAddress] at hmax
    obtain ⟨grown, hgrow, hret⟩ := bind_eq_some_iff.mp hrun
    have hgrown : grown.bytes = heap.bytes ∧ grown.heapOffset = heap.heapOffset ∧
        heap.memoryBytes ≤ grown.memoryBytes ∧
          base.addr + heap.heapOffset + size ≤ grown.memoryBytes := by
      split at hgrow
      · exact growMemory_some hgrow (by omega) (by rw [maxAddress]; omega)
      · cases hgrow
        exact ⟨rfl, rfl, Nat.le_refl _, by omega⟩
    obtain ⟨hbytes, hoffset, hmemory, hroom⟩ := hgrown
    have hext := (h.grow hbytes hoffset hmemory).extend hmod hmin
      (by rw [hoffset]; omega) (by rw [hoffset]; exact hroom)
    have hmove : u32Sub ((base.addr + heap.heapOffset + size) % 2 ^ 32) base.addr =
        grown.heapOffset + size := by
      rw [Nat.mod_eq_of_lt (by omega), u32Sub_of_le (by omega) (by omega), hoffset]
      omega
    have hpair : ((base.addr + heap.heapOffset) % 2 ^ 32, grown.setFrontier base
        ((base.addr + heap.heapOffset + size) % 2 ^ 32)) = (a, heap') := by
      simpa using hret
    rw [Nat.mod_eq_of_lt htop, setFrontier, hmove, ← hoffset] at hpair
    cases hpair
    exact hext

end

end Wado.Heap
