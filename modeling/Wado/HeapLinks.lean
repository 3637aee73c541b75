/-
Linking and unlinking blocks.  Unlinking makes a free block a hole and pushing
makes a hole free; the only words that change are link words and one bin head.
-/
import Wado.HeapBlocks

namespace Wado.Heap

open ByteMemory LinkedSegment List Option

variable {base : HeapBase} {heap heap' : Heap} {blocks left right : List Block}
  {bins : Nat → List Nat}

/-- Memory where only the words of `changes` are another. -/
structure Rewrites (heap heap' : Heap) (changes : Nat → Prop) : Prop where
  pages_eq : heap'.pages = heap.pages
  offset_eq : heap'.heapOffset = heap.heapOffset
  word_eq : ∀ a, a % 4 = 0 → ¬ changes a → word heap'.bytes a = word heap.bytes a

/-- The words the bins are linked by: two of each free block, and the bin heads. -/
def LinkWord (base : HeapBase) (blocks : List Block) (a : Nat) : Prop :=
  (∃ b ∈ blocks, b.kind ≠ .used ∧ (a = b.addr + 8 ∨ a = b.addr + 12)) ∨
    ∃ k < 33, a = flBinSlot base k

/-- Tags are no link words. -/
theorem Laid.tags_ne_link (h : Laid base heap blocks) {b : Block} (hb : b ∈ blocks) :
    ¬ LinkWord base blocks b.addr ∧ ¬ LinkWord base blocks (b.addr + b.size - 8) := by
  have hbm := h.mem hb
  constructor
  · rintro (⟨c, hc, -, heq⟩ | ⟨k, hk, heq⟩)
    · have := h.mem hc
      omega
    · have := flBinSlot_place base hk
      omega
  · rintro (⟨c, hc, -, heq⟩ | ⟨k, hk, heq⟩)
    · have := h.mem hc
      rcases h.tiles.eq_or_apart hb hc with rfl | hapart
      · omega
      · omega
    · have := flBinSlot_place base hk
      omega

/-- A store of a word at a place of memory. -/
theorem store_rewrites {addr : Nat} (h : addr + 4 ≤ heap.memoryBytes) (hmod : addr % 4 = 0)
    {value : Nat} (hvalue : value < 2 ^ 32) :
    ∃ heap', heap.store addr value = some heap' ∧ Rewrites heap heap' (· = addr) ∧
      word heap'.bytes addr = value :=
  ⟨_, store_of_le h value,
    ⟨rfl, rfl, fun _ ha hne => word_setWord_of_ne heap.bytes hmod ha hne value⟩,
    word_setWord_self heap.bytes addr hvalue⟩

variable {changes : Nat → Prop}

theorem Rewrites.memoryBytes_eq (h : Rewrites heap heap' changes) :
    heap'.memoryBytes = heap.memoryBytes := by
  rw [memoryBytes, memoryBytes, h.pages_eq]

theorem Rewrites.trans {heap'' : Heap} {p q : Nat → Prop} (h : Rewrites heap heap' p)
    (h' : Rewrites heap' heap'' q) : Rewrites heap heap'' (fun a => p a ∨ q a) where
  pages_eq := h'.pages_eq.trans h.pages_eq
  offset_eq := h'.offset_eq.trans h.offset_eq
  word_eq a ha hnot := (h'.word_eq a ha fun hq => hnot (Or.inr hq)).trans
    (h.word_eq a ha fun hp => hnot (Or.inl hp))

theorem Rewrites.mono {p q : Nat → Prop} (h : Rewrites heap heap' p) (hpq : ∀ a, p a → q a) :
    Rewrites heap heap' q :=
  ⟨h.pages_eq, h.offset_eq, fun a ha hnot => h.word_eq a ha fun hp => hnot (hpq a hp)⟩

/-- The word that leads to what follows the segment `nodes` of bin `k`. -/
def leadWord (base : HeapBase) (k : Nat) (nodes : List Nat) : Nat :=
  match nodes.getLast? with
  | none => flBinSlot base k
  | some n => n + 8

theorem leadWord_nil (base : HeapBase) (k : Nat) : leadWord base k [] = flBinSlot base k := rfl

theorem leadWord_concat (base : HeapBase) (k : Nat) (nodes : List Nat) (n : Nat) :
    leadWord base k (nodes ++ [n]) = n + 8 := by
  simp [leadWord]

variable {a size : Nat} {before after : List Nat}

/-- Two stores: the word leading to the block, and the next block's `prev`. -/
theorem Laid.flUnlink_eq (h : Laid base heap (left ++ ⟨a, size, .free⟩ :: right))
    (hbins : Binned base heap.bytes (left ++ ⟨a, size, .free⟩ :: right) bins)
    (hsplit : bins (flBin size) = before ++ a :: after) :
    ∃ heap', heap.flUnlink base a = some heap' ∧
      Rewrites heap heap' (fun x => x = leadWord base (flBin size) before ∨
        ∃ n, after.head? = some n ∧ x = n + 12) ∧
      word heap'.bytes (leadWord base (flBin size) before) = first after 0 ∧
      ∀ n, after.head? = some n → word heap'.bytes (n + 12) = last before 0 := by
  have hk : flBin size < 33 := flBin_lt
  have hblock := h.mem (b := ⟨a, size, .free⟩) (by simp)
  simp only at hblock
  have hplace : ∀ n ∈ before ++ a :: after, base.addr + 152 ≤ n ∧ n % 16 = 8 ∧
      n + 32 ≤ heap.memoryBytes ∧ n + 32 < 2 ^ 32 :=
    fun n hn => h.bin_mem hbins hk (hsplit ▸ hn)
  have hlinked := hbins.linked _ hk
  rw [hsplit, linked_append] at hlinked
  obtain ⟨-, hprev, hnext, -⟩ := hlinked
  have htag := (h.tags ⟨a, size, .free⟩ (by simp) (by simp)).1
  have hslot := flBinSlot_place base hk
  -- the word leading to the block
  obtain ⟨heap₁, hstore₁, hrw₁, hword₁⟩ : ∃ heap₁, (if last before 0 = 0 then do
        let k := flBin (flSize (← heap.load a))
        heap.flSetBinHead base k (first after 0)
      else heap.store (u32Add (last before 0) 8) (first after 0)) = some heap₁ ∧
        Rewrites heap heap₁ (· = leadWord base (flBin size) before) ∧
        word heap₁.bytes (leadWord base (flBin size) before) = first after 0 := by
    have hfirst : first after 0 < 2 ^ 32 := hnext ▸ word_lt heap.bytes (a + 8)
    rcases eq_nil_or_concat before with rfl | ⟨init, m, rfl⟩
    · rw [last_nil, if_pos rfl, load_of_le (by omega), htag, bind_eq_bind,
        bind_some, flSize_tag hblock.2.2.2.1 (by omega)]
      exact store_rewrites (by omega) hslot.2 hfirst
    · rw [concat_eq_append] at hplace ⊢
      have := hplace m (by simp)
      rw [last_concat, if_neg (by omega), u32Add_of_lt (by omega), leadWord_concat]
      exact store_rewrites (by omega) (by omega) hfirst
  have hload : heap.flUnlink base a = do
      let heap ← some heap₁
      if first after 0 ≠ 0 then heap.store (u32Add (first after 0) 12) (last before 0)
      else return heap := by
    have h8 : u32Add a 8 = a + 8 := u32Add_of_lt (by omega)
    have h12 : u32Add a 12 = a + 12 := u32Add_of_lt (by omega)
    rw [flUnlink, h8, h12, load_of_le (by omega), load_of_le (by omega), hprev, hnext, ← hstore₁]
    rfl
  rw [hload]
  cases after with
  | nil =>
    exact ⟨heap₁, by simp, hrw₁.mono fun x hx => Or.inl hx, hword₁, by simp⟩
  | cons n after =>
    have hn := hplace n (by simp)
    have hpn := hrw₁.memoryBytes_eq
    obtain ⟨heap₂, hstore₂, hrw₂, hword₂⟩ := (@store_rewrites heap₁ (n + 12) (by omega)
        (by omega) _ (hprev ▸ word_lt heap.bytes (a + 12)))
    refine ⟨heap₂, ?_, (hrw₁.trans hrw₂).mono ?_, ?_, ?_⟩
    · rw [first_cons, u32Add_of_lt (by omega), bind_eq_bind, bind_some,
        if_pos (by omega), hstore₂]
    · rintro x (rfl | rfl)
      · exact Or.inl rfl
      · exact Or.inr ⟨n, rfl, rfl⟩
    · have hlead : leadWord base (flBin size) before % 4 = 0 ∧
          leadWord base (flBin size) before ≠ n + 12 := by
        rcases eq_nil_or_concat before with rfl | ⟨init, m, rfl⟩
        · rw [leadWord_nil]
          omega
        · rw [concat_eq_append] at hplace ⊢
          have := hplace m (by simp)
          rw [leadWord_concat]
          omega
      rw [hrw₂.word_eq _ hlead.1 hlead.2, hword₁]
    · rintro m hm
      obtain rfl : n = m := by simpa using hm
      exact hword₂

theorem tiles_kind {first end_ a size : Nat} (kind kind' : Kind) :
    Tiles first (left ++ ⟨a, size, kind⟩ :: right) end_ ↔
      Tiles first (left ++ ⟨a, size, kind'⟩ :: right) end_ := by
  simp only [tiles_append, Tiles]

/-- The other blocks are at other addresses than the block in the middle. -/
theorem Laid.addr_ne_middle {b c : Block} (h : Laid base heap (left ++ b :: right))
    (hc : c ∈ left ∨ c ∈ right) : c.addr ≠ b.addr := by
  intro heq
  have := h.mem (b := b) (by simp)
  have := h.mem (b := c) (by simp; tauto)
  have := h.tiles.around hc
  omega

/-- A block beside the middle one is there whatever the middle one is. -/
theorem mem_middle {α : Type} {left right : List α} {b c : α} :
    c ∈ left ++ b :: right ↔ c = b ∨ c ∈ left ∨ c ∈ right := by
  simp only [mem_append, mem_cons]
  tauto

/-- What stays of the layout when the block in the middle becomes another kind:
the bins are another matter. -/
theorem Laid.rekind {kind kind' : Kind} (h : Laid base heap (left ++ ⟨a, size, kind⟩ :: right))
    (hrw : Rewrites heap heap' (LinkWord base (left ++ ⟨a, size, kind⟩ :: right)))
    (htags : kind' ≠ .hole → word heap'.bytes a = size + kind'.bit ∧
      word heap'.bytes (a + size - 8) = size + kind'.bit)
    (hapart : kind' = .free → ∀ c, c ∈ left ∨ c ∈ right →
      c.addr + c.size = a ∨ a + size = c.addr → c.kind ≠ .free)
    (hbinned : ∃ bins, Binned base heap'.bytes (left ++ ⟨a, size, kind'⟩ :: right) bins) :
    Laid base heap' (left ++ ⟨a, size, kind'⟩ :: right) where
  top_lt := by
    rw [hrw.offset_eq]
    exact h.top_lt
  top_le := by
    rw [hrw.offset_eq, hrw.memoryBytes_eq]
    exact h.top_le
  tiles := by
    rw [hrw.offset_eq]
    exact (tiles_kind kind kind').mp h.tiles
  tags b hb hhole := by
    rcases mem_middle.mp hb with rfl | hb
    · exact htags hhole
    · have hold : b ∈ left ++ ⟨a, size, kind⟩ :: right := mem_middle.mpr (Or.inr hb)
      have hplace := h.mem hold
      have hlink := h.tags_ne_link hold
      rw [hrw.word_eq _ (by omega) hlink.1, hrw.word_eq _ (by omega) hlink.2]
      exact h.tags b hold hhole
  apart b hb c hc hnext hfree := by
    have hsize := (h.mem (b := ⟨a, size, kind⟩) (by simp)).2.2.2.2.1
    rcases mem_middle.mp hb with rfl | hb
    · rcases mem_middle.mp hc with rfl | hc
      · simp only at hnext hsize
        omega
      · exact hapart hfree.1 c hc (Or.inr hnext) hfree.2
    · rcases mem_middle.mp hc with rfl | hc
      · exact hapart hfree.2 b hb (Or.inl hnext) hfree.1
      · exact h.apart b (mem_middle.mpr (Or.inr hb)) c (mem_middle.mpr (Or.inr hc)) hnext hfree
  binned := hbinned

/-- The addresses of the free blocks, once the middle one is a hole. -/
theorem Laid.mem_bin_hole {a size k x : Nat}
    (h : Laid base heap (left ++ ⟨a, size, .free⟩ :: right))
    (hbins : Binned base heap.bytes (left ++ ⟨a, size, .free⟩ :: right) bins) (hk : k < 33) :
    (∃ b ∈ left ++ ⟨a, size, .hole⟩ :: right, b.addr = x ∧ b.kind = .free ∧ flBin b.size = k) ↔
      x ∈ bins k ∧ x ≠ a := by
  rw [hbins.mem_iff k hk x]
  constructor
  · rintro ⟨b, hb, rfl, hfree, hbin⟩
    rcases mem_middle.mp hb with rfl | hb
    · cases hfree
    · exact ⟨⟨b, mem_middle.mpr (Or.inr hb), rfl, hfree, hbin⟩, h.addr_ne_middle hb⟩
  · rintro ⟨⟨b, hb, rfl, hfree, hbin⟩, hne⟩
    rcases mem_middle.mp hb with rfl | hb
    · exact absurd rfl hne
    · exact ⟨b, mem_middle.mpr (Or.inr hb), rfl, hfree, hbin⟩

/-- A word of bin `k`: its head, or a link word of one of its nodes. -/
def BinWord (base : HeapBase) (bins : Nat → List Nat) (k x : Nat) : Prop :=
  x = flBinSlot base k ∨ ∃ n ∈ bins k, x = n + 8 ∨ x = n + 12

/-- The words of a bin are link words. -/
theorem Binned.linkWord (hbins : Binned base heap.bytes blocks bins) {k x : Nat} (hk : k < 33)
    (hx : BinWord base bins k x) : LinkWord base blocks x := by
  rcases hx with rfl | ⟨n, hn, hx⟩
  · exact Or.inr ⟨k, hk, rfl⟩
  · obtain ⟨b, hb, rfl, hfree, -⟩ := (hbins.mem_iff k hk n).mp hn
    exact Or.inl ⟨b, hb, by rw [hfree]; decide, hx⟩

/-- Two bins have no word in common. -/
theorem Laid.binWord_apart (h : Laid base heap blocks)
    (hbins : Binned base heap.bytes blocks bins) {j k x : Nat} (hj : j < 33) (hk : k < 33)
    (hne : j ≠ k) (hxj : BinWord base bins j x) : ¬ BinWord base bins k x := by
  have hslotj := flBinSlot_place base hj
  have hslotk := flBinSlot_place base hk
  rintro (hxk | ⟨n, hn, hxn⟩)
  · rcases hxj with hxj | ⟨m, hm, hxm⟩
    · exact flBinSlot_ne base hj hk hne (hxj.symm.trans hxk)
    · have := h.bin_mem hbins hj hm
      omega
  · have hnplace := h.bin_mem hbins hk hn
    rcases hxj with hxj | ⟨m, hm, hxm⟩
    · omega
    · have hmplace := h.bin_mem hbins hj hm
      have hmn : m = n := by omega
      exact hne (h.bin_unique hbins hj hk hm (hmn ▸ hn))

/-- A bin that the changes are no words of stays as it is. -/
theorem Laid.bin_kept (h : Laid base heap blocks) (hbins : Binned base heap.bytes blocks bins)
    (hrw : Rewrites heap heap' changes) {j : Nat} (hj : j < 33)
    (hkeep : ∀ x, BinWord base bins j x → ¬ changes x) :
    word heap'.bytes (flBinSlot base j) = first (bins j) 0 ∧
      Linked (· + 8) (· + 12) (word heap'.bytes) 0 (bins j) 0 := by
  have hslot := flBinSlot_place base hj
  refine ⟨?_, (hbins.linked j hj).congr fun n hn => ⟨?_, ?_⟩⟩
  · rw [hrw.word_eq _ hslot.2 (hkeep _ (Or.inl rfl))]
    exact hbins.head_eq j hj
  · have := h.bin_mem hbins hj hn
    exact hrw.word_eq _ (by omega) (hkeep _ (Or.inr ⟨n, hn, Or.inl rfl⟩))
  · have := h.bin_mem hbins hj hn
    exact hrw.word_eq _ (by omega) (hkeep _ (Or.inr ⟨n, hn, Or.inr rfl⟩))

/-- The words unlinking changes are words of the block's bin. -/
theorem leadWord_binWord {k : Nat} {a : Nat} (hsplit : bins k = before ++ a :: after) :
    BinWord base bins k (leadWord base k before) := by
  rcases eq_nil_or_concat before with rfl | ⟨init, m, rfl⟩
  · exact Or.inl rfl
  · rw [concat_eq_append] at hsplit ⊢
    exact Or.inr ⟨m, by rw [hsplit]; simp, Or.inl (leadWord_concat base k init m)⟩

/-- The bin a node was taken out of. -/
theorem Laid.bin_unlinked (h : Laid base heap blocks) (hbins : Binned base heap.bytes blocks bins)
    {k a : Nat} (hk : k < 33) (hsplit : bins k = before ++ a :: after)
    (hrw : Rewrites heap heap' (fun x => x = leadWord base k before ∨
      ∃ n, after.head? = some n ∧ x = n + 12))
    (hlead : word heap'.bytes (leadWord base k before) = first after 0)
    (hprev : ∀ n, after.head? = some n → word heap'.bytes (n + 12) = last before 0) :
    word heap'.bytes (flBinSlot base k) = first (before ++ after) 0 ∧
      Linked (· + 8) (· + 12) (word heap'.bytes) 0 (before ++ after) 0 := by
  have hplace : ∀ n ∈ before ++ a :: after, base.addr + 152 ≤ n ∧ n % 16 = 8 ∧
      n + 32 ≤ heap.memoryBytes ∧ n + 32 < 2 ^ 32 :=
    fun n hn => h.bin_mem hbins hk (hsplit ▸ hn)
  have hnodup : (before ++ a :: after).Nodup := hsplit ▸ hbins.nodup k hk
  have hapart : ∀ n ∈ before, ∀ m ∈ after, n ≠ m := fun n hn m hm =>
    (nodup_append.mp hnodup).2.2 n hn m (mem_cons_of_mem a hm)
  have hslot := flBinSlot_place base hk
  have hlinked := hbins.linked k hk
  have hhead := hbins.head_eq k hk
  rw [hsplit] at hlinked hhead
  have hnext : ∀ x, x % 16 ≠ 4 → ¬ ∃ n, after.head? = some n ∧ x = n + 12 := by
    rintro x hx ⟨n, hn, rfl⟩
    have := hplace n (by simp [mem_of_mem_head? hn])
    omega
  have hlow : ∀ x, x < base.addr + 152 → ¬ ∃ n, after.head? = some n ∧ x = n + 12 := by
    rintro x hx ⟨n, hn, rfl⟩
    have := hplace n (by simp [mem_of_mem_head? hn])
    omega
  -- the word that led to the node is the head of the bin or of the last node before it
  have hleadCases : before = [] ∧ leadWord base k before = flBinSlot base k ∨
      last before 0 ∈ before ∧ leadWord base k before = last before 0 + 8 := by
    rcases eq_nil_or_concat before with rfl | ⟨init, m, rfl⟩
    · exact Or.inl ⟨rfl, rfl⟩
    · rw [concat_eq_append, last_concat]
      exact Or.inr ⟨by simp, leadWord_concat base k init m⟩
  refine ⟨?_, hlinked.remove hnodup ?_ ?_ ?_ ?_⟩
  · rcases hleadCases with ⟨rfl, hl⟩ | ⟨hmem, hl⟩
    · rwa [← hl]
    · have hm := hplace (last before 0) (by simp [hmem])
      rw [hrw.word_eq _ hslot.2 (by
        rintro (heq | heq)
        · omega
        · exact hlow _ (by omega) heq), hhead]
      cases before with
      | nil => cases hmem
      | cons n before => rfl
  · intro n hn
    have hnp := hplace n (by simp [hn])
    rcases hleadCases with ⟨rfl, -⟩ | ⟨hmem, hl⟩
    · cases hn
    · by_cases hlast : n = last before 0
      · rw [if_pos hlast, hlast, ← hl, hlead]
      · rw [if_neg hlast]
        refine hrw.word_eq _ (by omega) ?_
        rintro (heq | heq)
        · omega
        · exact hnext _ (by omega) heq
  · intro n hn
    have hnp := hplace n (by simp [hn])
    refine hrw.word_eq _ (by omega) ?_
    rintro (heq | ⟨m, hm, heq⟩)
    · rcases hleadCases with ⟨-, hl⟩ | ⟨hmem, hl⟩
      · omega
      · have := hplace (last before 0) (by simp [hmem])
        omega
    · exact hapart n hn m (mem_of_mem_head? hm) (by omega)
  · intro n hn
    have hnp := hplace n (by simp [hn])
    refine hrw.word_eq _ (by omega) ?_
    rintro (heq | heq)
    · rcases hleadCases with ⟨-, hl⟩ | ⟨hmem, hl⟩
      · omega
      · exact hapart _ hmem n hn (by omega)
    · exact hnext _ (by omega) heq
  · intro n hn
    have hnp := hplace n (by simp [hn])
    obtain ⟨m, hm⟩ : ∃ m, after.head? = some m := by
      cases after with
      | nil => cases hn
      | cons m after => exact ⟨m, rfl⟩
    rw [first_of_head hm]
    by_cases hfirst : n = m
    · rw [if_pos hfirst, hfirst, hprev m hm]
    · rw [if_neg hfirst]
      refine hrw.word_eq _ (by omega) ?_
      rintro (heq | ⟨m', hm', heq⟩)
      · rcases hleadCases with ⟨-, hl⟩ | ⟨hmem, hl⟩
        · omega
        · have := hplace (last before 0) (by simp [hmem])
          omega
      · rw [hm] at hm'
        cases hm'
        omega

/-- Unlinking makes a free block a hole. -/
theorem Laid.flUnlink_spec (h : Laid base heap (left ++ ⟨a, size, .free⟩ :: right)) :
    ∃ heap', heap.flUnlink base a = some heap' ∧
      Rewrites heap heap' (LinkWord base (left ++ ⟨a, size, .free⟩ :: right)) ∧
      Laid base heap' (left ++ ⟨a, size, .hole⟩ :: right) := by
  obtain ⟨bins, hbins⟩ := h.binned
  have hk : flBin size < 33 := flBin_lt
  have ha : a ∈ bins (flBin size) :=
    (hbins.mem_iff _ hk a).mpr ⟨_, mem_middle.mpr (Or.inl rfl), rfl, rfl, rfl⟩
  obtain ⟨before, after, hsplit⟩ := append_of_mem ha
  obtain ⟨heap', hrun, hrw, hlead, hprev⟩ := h.flUnlink_eq hbins hsplit
  have hnodup : (before ++ a :: after).Nodup := hsplit ▸ hbins.nodup _ hk
  have hbinRw : Rewrites heap heap' (BinWord base bins (flBin size)) := by
    refine hrw.mono fun x hx => ?_
    rcases hx with rfl | ⟨n, hn, rfl⟩
    · exact leadWord_binWord hsplit
    · exact Or.inr ⟨n, by rw [hsplit]; simp [mem_of_mem_head? hn], Or.inr rfl⟩
  have hlinkRw := hbinRw.mono fun x hx => hbins.linkWord hk hx
  refine ⟨heap', hrun, hlinkRw, h.rekind hlinkRw (by simp) (by simp)
    ⟨fun j => if j = flBin size then before ++ after else bins j, ?_, ?_, ?_, ?_⟩⟩
  · intro j hj x
    rw [h.mem_bin_hole hbins hj]
    by_cases hjk : j = flBin size
    · have hnot : a ∉ before ++ after := (nodup_middle.mp hnodup).notMem
      rw [if_pos hjk, hjk, hsplit, mem_middle, ← mem_append]
      constructor
      · intro hx
        exact ⟨Or.inr hx, fun heq => hnot (heq ▸ hx)⟩
      · rintro ⟨rfl | hx, hne⟩
        · exact absurd rfl hne
        · exact hx
    · rw [if_neg hjk]
      refine ⟨fun hx => ⟨hx, ?_⟩, fun hx => hx.1⟩
      rintro rfl
      exact hjk (h.bin_unique hbins hj hk hx ha)
  · intro j hj
    by_cases hjk : j = flBin size
    · rw [if_pos hjk]
      exact (nodup_middle.mp hnodup).of_cons
    · rw [if_neg hjk]
      exact hbins.nodup j hj
  · intro j hj
    by_cases hjk : j = flBin size
    · rw [if_pos hjk, hjk]
      exact (h.bin_unlinked hbins hk hsplit hrw hlead hprev).1
    · rw [if_neg hjk]
      exact (h.bin_kept hbins hbinRw hj fun x => h.binWord_apart hbins hj hk hjk).1
  · intro j hj
    by_cases hjk : j = flBin size
    · rw [if_pos hjk]
      exact (h.bin_unlinked hbins hk hsplit hrw hlead hprev).2
    · rw [if_neg hjk]
      exact (h.bin_kept hbins hbinRw hj fun x => h.binWord_apart hbins hj hk hjk).2

section

variable (h : Laid base heap (left ++ ⟨a, size, .hole⟩ :: right))
include h

/-- Four stores: the block's two link words, the `prev` of the node it comes
before, and the head of the bin. -/
theorem Laid.flPush_eq (hbins : Binned base heap.bytes (left ++ ⟨a, size, .hole⟩ :: right) bins) :
    ∃ heap', heap.flPush base a size = some heap' ∧
      Rewrites heap heap' (fun x => x = a + 8 ∨ x = a + 12 ∨ x = flBinSlot base (flBin size) ∨
        ∃ n, (bins (flBin size)).head? = some n ∧ x = n + 12) ∧
      word heap'.bytes (a + 8) = first (bins (flBin size)) 0 ∧ word heap'.bytes (a + 12) = 0 ∧
      word heap'.bytes (flBinSlot base (flBin size)) = a ∧
      ∀ n, (bins (flBin size)).head? = some n → word heap'.bytes (n + 12) = a := by
  have hk : flBin size < 33 := flBin_lt
  have hblock := h.mem (b := ⟨a, size, .hole⟩) (mem_middle.mpr (Or.inl rfl))
  simp only at hblock
  have hslot := flBinSlot_place base hk
  have hfirst : first (bins (flBin size)) 0 < 2 ^ 32 := by
    rw [← hbins.head_eq _ hk]
    exact word_lt heap.bytes _
  have h8 : u32Add a 8 = a + 8 := u32Add_of_lt (by omega)
  have h12 : u32Add a 12 = a + 12 := u32Add_of_lt (by omega)
  have hhead : heap.flBinHead base (flBin size) = some (first (bins (flBin size)) 0) := by
    rw [flBinHead, load_of_le (by omega), hbins.head_eq _ hk]
  obtain ⟨heap₁, hstore₁, hrw₁, hword₁⟩ := (@store_rewrites heap (a + 8) (by omega) (by omega) _
      hfirst)
  have hbytes₁ := hrw₁.memoryBytes_eq
  obtain ⟨heap₂, hstore₂, hrw₂, hword₂⟩ := (@store_rewrites heap₁ (a + 12) (by omega) (by omega) 0
      (by omega))
  have hbytes₂ := hrw₂.memoryBytes_eq
  obtain ⟨heap₃, hstore₃, hrw₃, hword₃⟩ : ∃ heap₃, (if first (bins (flBin size)) 0 ≠ 0 then
        heap₂.store (u32Add (first (bins (flBin size)) 0) 12) a else some heap₂) = some heap₃ ∧
        Rewrites heap₂ heap₃ (fun x => ∃ n, (bins (flBin size)).head? = some n ∧ x = n + 12) ∧
        ∀ n, (bins (flBin size)).head? = some n → word heap₃.bytes (n + 12) = a := by
    cases hnodes : (bins (flBin size)).head? with
    | none =>
      rw [List.head?_eq_none_iff] at hnodes
      exact ⟨heap₂, by simp [hnodes], ⟨rfl, rfl, fun _ _ _ => rfl⟩, by simp⟩
    | some n =>
      have hn := h.bin_mem hbins hk (mem_of_mem_head? hnodes)
      obtain ⟨heap₃, hstore₃, hrw₃, hword₃⟩ := (@store_rewrites heap₂ (n + 12) (by omega)
          (by omega) a (by omega))
      rw [first_of_head hnodes, if_pos (by omega), u32Add_of_lt (by omega)]
      refine ⟨heap₃, hstore₃, hrw₃.mono fun x hx => ⟨n, rfl, hx⟩, ?_⟩
      rintro m hm
      cases hm
      exact hword₃
  have hbytes₃ := hrw₃.memoryBytes_eq
  obtain ⟨heap₄, hstore₄, hrw₄, hword₄⟩ := (@store_rewrites heap₃ (flBinSlot base (flBin size))
      (by omega) hslot.2 a (by omega))
  -- the four words are different ones
  have hnode : ∀ n, (bins (flBin size)).head? = some n →
      n % 16 = 8 ∧ base.addr + 152 ≤ n ∧ n ≠ a := by
    intro n hn
    have hmem := mem_of_mem_head? hn
    have hplace := h.bin_mem hbins hk hmem
    refine ⟨hplace.2.1, hplace.1, ?_⟩
    rintro rfl
    obtain ⟨b, hb, hba, hfree, -⟩ := (hbins.mem_iff _ hk n).mp hmem
    have := h.eq_of_addr hb (mem_middle.mpr (Or.inl rfl)) hba
    rw [this] at hfree
    cases hfree
  refine ⟨heap₄, ?_, ?_, ?_, ?_, hword₄, ?_⟩
  · unfold flPush
    simp only []
    rw [hhead, bind_eq_bind, bind_some, h8, hstore₁, bind_eq_bind,
      bind_some, h12, hstore₂, bind_some, hstore₃, bind_some]
    exact hstore₄
  · refine (((hrw₁.trans hrw₂).trans hrw₃).trans hrw₄).mono fun x hx => ?_
    rcases hx with ((hx | hx) | hx) | hx
    · exact Or.inl hx
    · exact Or.inr (Or.inl hx)
    · exact Or.inr (Or.inr (Or.inr hx))
    · exact Or.inr (Or.inr (Or.inl hx))
  · rw [hrw₄.word_eq _ (by omega) (by omega), hrw₃.word_eq _ (by omega) ?_,
      hrw₂.word_eq _ (by omega) (by omega), hword₁]
    rintro ⟨n, hn, heq⟩
    have := hnode n hn
    omega
  · rw [hrw₄.word_eq _ (by omega) (by omega), hrw₃.word_eq _ (by omega) ?_, hword₂]
    rintro ⟨n, hn, heq⟩
    have := hnode n hn
    omega
  · intro n hn
    have := hnode n hn
    rw [hrw₄.word_eq _ (by omega) (by omega), hword₃ n hn]

/-- Pushing makes a hole a free block, beside no free block. -/
theorem Laid.flPush_spec (htags : word heap.bytes a = size ∧ word heap.bytes (a + size - 8) = size)
    (hapart : ∀ c, c ∈ left ∨ c ∈ right → c.addr + c.size = a ∨ a + size = c.addr →
      c.kind ≠ .free) :
    ∃ heap', heap.flPush base a size = some heap' ∧
      Rewrites heap heap' (LinkWord base (left ++ ⟨a, size, .hole⟩ :: right)) ∧
      Laid base heap' (left ++ ⟨a, size, .free⟩ :: right) := by
  obtain ⟨bins, hbins⟩ := h.binned
  have hk : flBin size < 33 := flBin_lt
  have hhole : (⟨a, size, .hole⟩ : Block) ∈ left ++ ⟨a, size, .hole⟩ :: right :=
    mem_middle.mpr (Or.inl rfl)
  have hblock := h.mem hhole
  simp only at hblock
  have hlinkTags := h.tags_ne_link hhole
  simp only at hlinkTags
  obtain ⟨heap', hrun, hrw, hnext, hprev, hhead, hnode⟩ := h.flPush_eq hbins
  have hlinkRw : Rewrites heap heap' (LinkWord base (left ++ ⟨a, size, .hole⟩ :: right)) := by
    refine hrw.mono fun x hx => ?_
    rcases hx with rfl | rfl | rfl | ⟨n, hn, rfl⟩
    · exact Or.inl ⟨_, hhole, by simp, Or.inl rfl⟩
    · exact Or.inl ⟨_, hhole, by simp, Or.inr rfl⟩
    · exact Or.inr ⟨_, hk, rfl⟩
    · exact hbins.linkWord hk (Or.inr ⟨n, mem_of_mem_head? hn, Or.inr rfl⟩)
  have hout : ∀ j < 33, a ∉ bins j := by
    intro j hj hmem
    obtain ⟨b, hb, hba, hfree, -⟩ := (hbins.mem_iff j hj a).mp hmem
    rw [h.eq_of_addr hb hhole hba] at hfree
    cases hfree
  have hslot := flBinSlot_place base hk
  -- no other bin has one of the words
  have hother : ∀ j < 33, j ≠ flBin size → ∀ x, BinWord base bins j x →
      ¬ (x = a + 8 ∨ x = a + 12 ∨ x = flBinSlot base (flBin size) ∨
        ∃ n, (bins (flBin size)).head? = some n ∧ x = n + 12) := by
    intro j hj hjk x hx hchange
    have hapartWord := h.binWord_apart hbins hj hk hjk hx
    have hxa : x ≠ a + 8 ∧ x ≠ a + 12 := by
      rcases hx with rfl | ⟨n, hn, hx⟩
      · have := flBinSlot_place base hj
        omega
      · have := h.bin_mem hbins hj hn
        have hne : n ≠ a := fun heq => hout j hj (heq ▸ hn)
        omega
    rcases hchange with heq | heq | rfl | ⟨n, hn, rfl⟩
    · exact hxa.1 heq
    · exact hxa.2 heq
    · exact hapartWord (Or.inl rfl)
    · exact hapartWord (Or.inr ⟨n, mem_of_mem_head? hn, Or.inr rfl⟩)
  refine ⟨heap', hrun, hlinkRw, h.rekind hlinkRw (fun _ => ?_) (fun _ => hapart)
    ⟨fun j => if j = flBin size then a :: bins j else bins j, ?_, ?_, ?_, ?_⟩⟩
  · rw [hlinkRw.word_eq _ (by omega) hlinkTags.1, hlinkRw.word_eq _ (by omega) hlinkTags.2]
    exact htags
  · intro j hj x
    have hold : x ∈ bins j ↔ ∃ b ∈ left ++ ⟨a, size, .hole⟩ :: right,
        b.addr = x ∧ b.kind = .free ∧ flBin b.size = j := hbins.mem_iff j hj x
    have hnew : (∃ b ∈ left ++ ⟨a, size, .free⟩ :: right,
        b.addr = x ∧ b.kind = .free ∧ flBin b.size = j) ↔
          (a = x ∧ flBin size = j) ∨ x ∈ bins j := by
      rw [hold]
      simp only [mem_middle, or_and_right, exists_or, exists_eq_left, true_and, reduceCtorEq,
        false_and, and_false, false_or]
    rw [hnew]
    by_cases hjk : j = flBin size
    · rw [if_pos hjk, mem_cons]
      exact or_congr_left ⟨fun hx => ⟨hx.symm, hjk.symm⟩, fun hx => hx.1.symm⟩
    · rw [if_neg hjk]
      exact ⟨Or.inr, fun hx => hx.resolve_left fun hx => hjk hx.2.symm⟩
  · intro j hj
    by_cases hjk : j = flBin size
    · rw [if_pos hjk]
      exact nodup_cons.mpr ⟨hout j hj, hbins.nodup j hj⟩
    · rw [if_neg hjk]
      exact hbins.nodup j hj
  · intro j hj
    by_cases hjk : j = flBin size
    · rw [if_pos hjk, hjk]
      exact hhead
    · rw [if_neg hjk]
      exact (h.bin_kept hbins hrw hj fun x => hother j hj hjk x).1
  · intro j hj
    by_cases hjk : j = flBin size
    · rw [if_pos hjk, hjk]
      have hplace := fun {n : Nat} (hn : n ∈ bins (flBin size)) => h.bin_mem hbins hk hn
      have hne : ∀ n ∈ bins (flBin size), n ≠ a := fun n hn heq => hout _ hk (heq ▸ hn)
      refine (hbins.linked _ hk).push (hbins.nodup _ hk) hprev hnext ?_ ?_
      · intro n hn
        have := hplace hn
        have := hne n hn
        refine hrw.word_eq _ (by omega) ?_
        rintro (heq | heq | heq | ⟨m, hm, heq⟩)
        · omega
        · omega
        · omega
        · have := hplace (mem_of_mem_head? hm)
          omega
      · intro n hn
        have := hplace hn
        have := hne n hn
        obtain ⟨m, hm⟩ : ∃ m, (bins (flBin size)).head? = some m := by
          cases hnodes : bins (flBin size) with
          | nil =>
            rw [hnodes] at hn
            cases hn
          | cons m nodes => exact ⟨m, rfl⟩
        rw [first_of_head hm]
        by_cases hfirst : n = m
        · rw [if_pos hfirst, hfirst, hnode m hm]
        · rw [if_neg hfirst]
          refine hrw.word_eq _ (by omega) ?_
          rintro (heq | heq | heq | ⟨m', hm', heq⟩)
          · omega
          · omega
          · omega
          · rw [hm] at hm'
            cases hm'
            omega
    · rw [if_neg hjk]
      exact (h.bin_kept hbins hrw hj fun x => hother j hj hjk x).2

end

end Wado.Heap
