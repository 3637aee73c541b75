/-
Merging two nodes: the rows of both in the order of their keys, with the merged parents below a
key of both, are the rows of the node of both sets of stacks.
-/
import Wado.Gale.CtxNodes

namespace Wado.Gale

open ExceptSteps List

namespace CtxArena

variable {arena arena' arena'' : CtxArena} {top n : Nat}

/-- The key that stands below every stack. -/
def boundaryKey : CtxKey := toLex (boundary, 0)

/-- The stacks of return states and precedences that a node's edges spell, the boundary below
them. -/
def Stack (arena : CtxArena) (n : Nat) (s : Nat → CtxKey) : Prop :=
  StackSets.Spells arena.nodeEdges boundaryKey n s

/-- Node `m` is the union of nodes `p` and `q`. -/
def IsUnion (arena : CtxArena) (p q m : Nat) : Prop :=
  p < arena.nodeCount ∧ q < arena.nodeCount ∧ m < arena.nodeCount ∧
    ∀ s, arena.Stack m s ↔ arena.Stack p s ∨ arena.Stack q s

/-- The nodes below `top` make a graph of stacks, and the caches answer for them. -/
structure ValidBelow (arena : CtxArena) (top : Nat) : Prop where
  interned : Interned arena top
  graph : StackSets.Graph arena.nodeEdges boundaryKey arena.nodeCount
  count_le : arena.nodeCount ≤ nodePairStride
  merges_valid : arena.mergeCache.Valid
  merges : ∀ {k : Nat} {v : Int}, arena.mergeCache.Holds k v → ∃ a b m, a < b ∧
    k = nodePairKey a b ∧ v = ((m : Nat) : Int) ∧ arena.IsUnion a b m
  covers_valid : arena.coverCache.Valid
  covers : ∀ {k : Nat} {v : Int}, arena.coverCache.Holds k v → ∃ a b, a < arena.nodeCount ∧
    b < arena.nodeCount ∧ k = nodePairKey a b ∧ (v = 1 ∧ (∀ s, arena.Stack b s → arena.Stack a s) ∨
        v = 0 ∧ ¬ ∀ s, arena.Stack b s → arena.Stack a s)

def Valid (arena : CtxArena) : Prop :=
  ValidBelow arena arena.edges.length

theorem nodePairKey_inj {a b a' b' : Nat} (hb : b < nodePairStride) (hb' : b' < nodePairStride)
    (h : nodePairKey a b = nodePairKey a' b') : a = a' ∧ b = b' := by
  simp only [nodePairKey, nodePairStride] at *
  omega

/-- A node's stacks do not change when nodes are added. -/
theorem Extends.stack_iff (h : Extends arena arena')
    (hgraph : StackSets.Graph arena.nodeEdges boundaryKey arena.nodeCount)
    (hn : n < arena.nodeCount) (s : Nat → CtxKey) : arena'.Stack n s ↔ arena.Stack n s :=
  hgraph.spells_congr (fun _ hm => h.edges_eq hm) hn s

theorem Extends.isUnion (h : Extends arena arena')
    (hgraph : StackSets.Graph arena.nodeEdges boundaryKey arena.nodeCount) {p q m : Nat}
    (hunion : arena.IsUnion p q m) : arena'.IsUnion p q m := by
  obtain ⟨hp, hq, hm, hstack⟩ := hunion
  have hle := h.count_le
  refine ⟨by omega, by omega, by omega, fun s => ?_⟩
  rw [h.stack_iff hgraph hm, h.stack_iff hgraph hp, h.stack_iff hgraph hq]
  exact hstack s

namespace ValidBelow

section

variable (h : ValidBelow arena top)
include h

/-- Columns and pending results past the nodes' rows are no part of what holds. -/
theorem with_edges {edges : List CtxEdge} {pending : List Nat}
    (hedges : edges.take top = arena.edges.take top) (htop : top ≤ edges.length) :
    ValidBelow { arena with edges := edges, pending := pending } top ∧
      Extends arena { arena with edges := edges, pending := pending } := by
  obtain ⟨hint, hext⟩ : Interned { arena with edges := edges, pending := pending } top ∧
      Extends arena { arena with edges := edges, pending := pending } :=
    h.interned.with_edges hedges htop
  refine ⟨⟨hint, ?_, h.count_le, h.merges_valid, ?_, h.covers_valid, ?_⟩, hext⟩
  · refine ⟨?_, ?_, ?_, ?_, ?_⟩
    · have hzero := h.graph.zero
      by_cases hpos : 0 < arena.nodeCount
      · rw [hext.edges_eq hpos]
        exact hzero
      · have hcount : arena.nodeStart = [] :=
          length_eq_zero_iff.mp (Nat.eq_zero_of_not_pos hpos)
        have hlens : arena.nodeLen = [] := by
          have := h.interned.len_length
          rw [nodeCount, hcount] at this
          exact length_eq_zero_iff.mp this
        simp [nodeEdges, nodeRows, hlens] at hzero
    · intro n hn
      rw [hext.edges_eq hn]
      exact h.graph.nonempty n hn
    · intro n hn
      rw [hext.edges_eq hn]
      exact h.graph.below n hn
    · intro n hn
      rw [hext.edges_eq hn]
      exact h.graph.ascending n hn
    · intro m hm n hn
      rw [hext.edges_eq hm, hext.edges_eq hn]
      exact h.graph.unique m hm n hn
  · intro k v hv
    obtain ⟨a, b, m, hlt, hk, hvm, hunion⟩ := h.merges hv
    exact ⟨a, b, m, hlt, hk, hvm, hext.isUnion h.graph hunion⟩
  · intro k v hv
    obtain ⟨a, b, ha, hb, hk, hcases⟩ := h.covers hv
    refine ⟨a, b, ha, hb, hk, ?_⟩
    simp only [hext.stack_iff h.graph ha, hext.stack_iff h.graph hb]
    exact hcases

theorem count_pos : 0 < arena.nodeCount := by
  by_contra hpos
  have hcount : arena.nodeLen = [] := by
    have := h.interned.len_length
    exact length_eq_zero_iff.mp (by omega)
  have hzero := h.graph.zero
  simp [nodeEdges, nodeRows, hcount] at hzero

/-- The rows of a node ascend by key, and their parents are nodes. -/
theorem rows_ascending (hn : n < arena.nodeCount) :
    (arena.nodeRows n).Pairwise fun e e' => e.key < e'.key := by
  have hasc : ((arena.nodeRows n).map CtxEdge.entry).Pairwise fun e e' => e.1 < e'.1 :=
    h.graph.ascending n hn
  rw [pairwise_map] at hasc
  exact hasc

theorem parent_lt (hn : n < arena.nodeCount) {e : CtxEdge}
    (he : e ∈ arena.nodeRows n) : e.parent < arena.nodeCount :=
  h.graph.edge_lt hn (mem_map_of_mem he)

theorem parents_sum {a b : Nat} (ha : a < arena.nodeCount)
    (hb : b < arena.nodeCount) (hne : a ≠ b) {x y : CtxEdge} (hx : x ∈ arena.nodeRows a)
    (hy : y ∈ arena.nodeRows b) : x.parent + y.parent < a + b := by
  have hparent : ∀ {n : Nat} {e : CtxEdge}, n < arena.nodeCount → e ∈ arena.nodeRows n →
      e.parent < n ∨ n = 0 ∧ e.parent = 0 := by
    intro n e hn he
    have hin : e.entry ∈ arena.nodeEdges n := mem_map_of_mem he
    rcases h.graph.below n hn _ hin with hlt | rfl
    · exact Or.inl hlt
    · rw [h.graph.zero, mem_singleton] at hin
      exact Or.inr ⟨rfl, congrArg Prod.snd hin⟩
  have hxp := hparent ha hx
  have hyp := hparent hb hy
  omega

/-- What interning rows that ascend by key, with nodes for parents, gives. -/
theorem internedAs {id : Nat} (has : InternedAs arena top id arena')
    (hne : arena.edges.drop top ≠ [])
    (hasc : (arena.edges.drop top).Pairwise fun e e' => e.key < e'.key)
    (hparents : ∀ e ∈ arena.edges.drop top, e.parent < arena.nodeCount) : Valid arena' := by
  have hext := has.extends_
  have hcases : ∀ n < arena'.nodeCount, n < arena.nodeCount ∨
      n = arena.nodeCount ∧ arena'.nodeRows n = arena.edges.drop top ∧
        ∀ m < arena.nodeCount, arena.nodeRows m ≠ arena.edges.drop top := by
    intro n hn
    rcases has.old_or_new with heq | ⟨heq, hid, -, hnone⟩
    · exact Or.inl (by omega)
    · rcases Nat.lt_or_eq_of_le (Nat.le_of_lt_succ (heq ▸ hn)) with hlt | rfl
      · exact Or.inl hlt
      · exact Or.inr ⟨rfl, hid ▸ has.rows_id, hnone⟩
  have hrowsEq : ∀ {m n : Nat}, arena'.nodeEdges m = arena'.nodeEdges n →
      arena'.nodeRows m = arena'.nodeRows n :=
    fun heq => map_injective_iff.mpr CtxEdge.entry_injective heq
  refine ⟨has.interned, ⟨?_, ?_, ?_, ?_, ?_⟩, ?_, ?_, ?_, ?_, ?_⟩
  · rw [hext.edges_eq h.count_pos]
    exact h.graph.zero
  · intro n hn
    rcases hcases n hn with hlt | ⟨-, hrows, -⟩
    · rw [hext.edges_eq hlt]
      exact h.graph.nonempty n hlt
    · rw [nodeEdges, hrows]
      simpa using hne
  · intro n hn e he
    rcases hcases n hn with hlt | ⟨rfl, hrows, -⟩
    · rw [hext.edges_eq hlt] at he
      exact h.graph.below n hlt e he
    · rw [nodeEdges, hrows] at he
      obtain ⟨row, hrow, rfl⟩ := mem_map.mp he
      exact Or.inl (hparents row hrow)
  · intro n hn
    rcases hcases n hn with hlt | ⟨-, hrows, -⟩
    · rw [hext.edges_eq hlt]
      exact h.graph.ascending n hlt
    · rw [nodeEdges, hrows]
      exact pairwise_map.mpr hasc
  · intro m hm n hn heq
    rcases hcases m hm with hmlt | ⟨rfl, hmrows, hmnone⟩
    · rcases hcases n hn with hnlt | ⟨rfl, hnrows, hnnone⟩
      · rw [hext.edges_eq hmlt, hext.edges_eq hnlt] at heq
        exact h.graph.unique m hmlt n hnlt heq
      · have hrows := hrowsEq heq
        rw [hext.rows_eq m hmlt, hnrows] at hrows
        exact absurd hrows (hnnone m hmlt)
    · rcases hcases n hn with hnlt | ⟨rfl, -, -⟩
      · have hrows := hrowsEq heq
        rw [hext.rows_eq n hnlt, hmrows] at hrows
        exact absurd hrows.symm (hmnone n hnlt)
      · rfl
  · rcases has.old_or_new with heq | ⟨heq, -, hlt, -⟩
    · rw [heq]
      exact h.count_le
    · omega
  · rw [has.merges_eq]
    exact h.merges_valid
  · intro k v hv
    rw [has.merges_eq] at hv
    obtain ⟨a, b, m, hlt, hk, hvm, hunion⟩ := h.merges hv
    exact ⟨a, b, m, hlt, hk, hvm, hext.isUnion h.graph hunion⟩
  · rw [has.covers_eq]
    exact h.covers_valid
  · intro k v hv
    rw [has.covers_eq] at hv
    obtain ⟨a, b, ha, hb, hk, hcov⟩ := h.covers hv
    have hle := hext.count_le
    refine ⟨a, b, by omega, by omega, hk, ?_⟩
    simp only [hext.stack_iff h.graph ha, hext.stack_iff h.graph hb]
    exact hcov

end

end ValidBelow

/-! ## The two passes of a merge -/

/-- How `keyCmp` compares two rows. -/
theorem keyCmp_spec {x y : Nat} {ex ey : CtxEdge} (hx : arena.edges[x]? = some ex)
    (hy : arena.edges[y]? = some ey) :
    ∃ c, arena.keyCmp x y = .ok c ∧
      (c < 0 ∧ ex.key < ey.key ∨ c > 0 ∧ ey.key < ex.key ∨ c = 0 ∧ ex.key = ey.key) := by
  simp only [keyCmp, nth_of_getElem? hx, nth_of_getElem? hy, CtxEdge.key, Prod.Lex.toLex_lt_toLex,
    EmbeddingLike.apply_eq_iff_eq, Prod.mk.injEq]
  by_cases hret : ex.ret = ey.ret
  · by_cases hrpr : ex.rpr = ey.rpr
    · refine ⟨0, ?_, Or.inr (Or.inr ⟨rfl, hret, hrpr⟩)⟩
      simp [hret, hrpr, bind, pure, Except.bind, Except.pure]
    · rcases Int.lt_or_gt_of_ne hrpr with hlt | hgt
      · refine ⟨-1, ?_, Or.inl ⟨by omega, Or.inr ⟨hret, hlt⟩⟩⟩
        simp [hret, hrpr, hlt, bind, pure, Except.bind, Except.pure]
      · refine ⟨1, ?_, Or.inr (Or.inl ⟨by omega, Or.inr ⟨hret.symm, hgt⟩⟩)⟩
        simp [hret, hrpr, Int.not_lt.mpr (Int.le_of_lt hgt), bind, pure, Except.bind, Except.pure]
  · rcases Int.lt_or_gt_of_ne hret with hlt | hgt
    · refine ⟨-1, ?_, Or.inl ⟨by omega, Or.inl hlt⟩⟩
      simp [hret, hlt, bind, pure, Except.bind, Except.pure]
    · refine ⟨1, ?_, Or.inr (Or.inl ⟨by omega, Or.inl hgt⟩)⟩
      simp [hret, Int.not_lt.mpr (Int.le_of_lt hgt), bind, pure, Except.bind, Except.pure]

/-- The rows `zs` of rows `xs` and `ys` in the order of their keys, with `ms` for the parents below
the keys of both. -/
inductive Joined (P : Nat → Nat → Nat → Prop) :
    List CtxEdge → List CtxEdge → List Nat → List CtxEdge → Prop
  | nil : Joined P [] [] [] []
  | left {x : CtxEdge} {xs ys zs : List CtxEdge} {ms : List Nat}
      (hless : ∀ y ∈ ys.head?, x.key < y.key) (h : Joined P xs ys ms zs) :
      Joined P (x :: xs) ys ms (x :: zs)
  | right {y : CtxEdge} {xs ys zs : List CtxEdge} {ms : List Nat}
      (hless : ∀ x ∈ xs.head?, y.key < x.key) (h : Joined P xs ys ms zs) :
      Joined P xs (y :: ys) ms (y :: zs)
  | both {x y : CtxEdge} {m : Nat} {xs ys zs : List CtxEdge} {ms : List Nat}
      (heq : x.key = y.key) (hm : P x.parent y.parent m) (h : Joined P xs ys ms zs) :
      Joined P (x :: xs) (y :: ys) (m :: ms) (⟨x.ret, x.rpr, m⟩ :: zs)

namespace Joined

variable {P P' : Nat → Nat → Nat → Prop} {xs ys zs : List CtxEdge} {ms : List Nat}

theorem nil_left (ys : List CtxEdge) : Joined P [] ys [] ys := by
  induction ys with
  | nil => exact .nil
  | cons y ys ih => exact .right (by simp) ih

theorem nil_right (xs : List CtxEdge) : Joined P xs [] [] xs := by
  induction xs with
  | nil => exact .nil
  | cons x xs ih => exact .left (by simp) ih

theorem mono (h : Joined P xs ys ms zs) (hP : ∀ p q m, P p q m → P' p q m) :
    Joined P' xs ys ms zs := by
  induction h with
  | nil => exact .nil
  | left hless _ ih => exact .left hless ih
  | right hless _ ih => exact .right hless ih
  | both heq hm _ ih => exact .both heq (hP _ _ _ hm) ih

theorem key_mem (h : Joined P xs ys ms zs) {z : CtxEdge} (hz : z ∈ zs) :
    (∃ x ∈ xs, x.key = z.key) ∨ ∃ y ∈ ys, y.key = z.key := by
  induction h with
  | nil => cases hz
  | left _ _ ih =>
    rcases mem_cons.mp hz with rfl | hz
    · exact Or.inl ⟨z, mem_cons_self, rfl⟩
    · rcases ih hz with ⟨x, hx, hkey⟩ | hy
      · exact Or.inl ⟨x, mem_cons_of_mem _ hx, hkey⟩
      · exact Or.inr hy
  | right _ _ ih =>
    rcases mem_cons.mp hz with rfl | hz
    · exact Or.inr ⟨z, mem_cons_self, rfl⟩
    · rcases ih hz with hx | ⟨y, hy, hkey⟩
      · exact Or.inl hx
      · exact Or.inr ⟨y, mem_cons_of_mem _ hy, hkey⟩
  | both _ _ _ ih =>
    rcases mem_cons.mp hz with rfl | hz
    · exact Or.inl ⟨_, mem_cons_self, rfl⟩
    · rcases ih hz with ⟨x, hx, hkey⟩ | ⟨y, hy, hkey⟩
      · exact Or.inl ⟨x, mem_cons_of_mem _ hx, hkey⟩
      · exact Or.inr ⟨y, mem_cons_of_mem _ hy, hkey⟩

/-- A row below the first one is below them all. -/
theorem lt_of_head {x : CtxEdge} {ys : List CtxEdge}
    (hys : ys.Pairwise fun e e' => e.key < e'.key) (hless : ∀ y ∈ ys.head?, x.key < y.key)
    {y : CtxEdge} (hy : y ∈ ys) : x.key < y.key := by
  cases ys with
  | nil => cases hy
  | cons first ys =>
    have hfirst := hless first rfl
    rcases mem_cons.mp hy with rfl | hy
    · exact hfirst
    · exact hfirst.trans ((pairwise_cons.mp hys).1 y hy)

theorem ascending (h : Joined P xs ys ms zs) (hxs : xs.Pairwise fun e e' => e.key < e'.key)
    (hys : ys.Pairwise fun e e' => e.key < e'.key) :
    zs.Pairwise fun e e' => e.key < e'.key := by
  induction h with
  | nil => exact List.Pairwise.nil
  | left hless h ih =>
    obtain ⟨hx, hxs⟩ := pairwise_cons.mp hxs
    refine pairwise_cons.mpr ⟨fun z hz => ?_, ih hxs hys⟩
    rcases h.key_mem hz with ⟨x', hx', hkey⟩ | ⟨y, hy, hkey⟩
    · rw [← hkey]
      exact hx x' hx'
    · rw [← hkey]
      exact lt_of_head hys hless hy
  | right hless h ih =>
    obtain ⟨hy, hys⟩ := pairwise_cons.mp hys
    refine pairwise_cons.mpr ⟨fun z hz => ?_, ih hxs hys⟩
    rcases h.key_mem hz with ⟨x, hx, hkey⟩ | ⟨y', hy', hkey⟩
    · rw [← hkey]
      exact lt_of_head hxs hless hx
    · rw [← hkey]
      exact hy y' hy'
  | both heq _ h ih =>
    obtain ⟨hx, hxs⟩ := pairwise_cons.mp hxs
    obtain ⟨hy, hys⟩ := pairwise_cons.mp hys
    refine pairwise_cons.mpr ⟨fun z hz => ?_, ih hxs hys⟩
    show _ < z.key
    rcases h.key_mem hz with ⟨x', hx', hkey⟩ | ⟨y', hy', hkey⟩
    · rw [← hkey]
      exact hx x' hx'
    · rw [← hkey]
      exact heq ▸ hy y' hy'

/-- The rows of a join keep the stacks of both sides. -/
structure Keeps (S : Nat → (Nat → CtxKey) → Prop) (xs ys zs : List CtxEdge) : Prop where
  left : ∀ x ∈ xs, ∃ z ∈ zs, z.key = x.key ∧ ∀ s, S x.parent s → S z.parent s
  right : ∀ y ∈ ys, ∃ z ∈ zs, z.key = y.key ∧ ∀ s, S y.parent s → S z.parent s
  back : ∀ z ∈ zs, ∀ s, S z.parent s →
    (∃ x ∈ xs, x.key = z.key ∧ S x.parent s) ∨ ∃ y ∈ ys, y.key = z.key ∧ S y.parent s

theorem keeps {S : Nat → (Nat → CtxKey) → Prop} (h : Joined P xs ys ms zs)
    (hP : ∀ p q m, P p q m → ∀ s, S m s ↔ S p s ∨ S q s) : Keeps S xs ys zs := by
  induction h with
  | nil => exact ⟨by simp, by simp, by simp⟩
  | @left first _ _ _ _ _ _ ih =>
    refine ⟨?_, ?_, ?_⟩
    · intro x hx
      rcases mem_cons.mp hx with rfl | hx
      · exact ⟨x, mem_cons_self, rfl, fun _ hs => hs⟩
      · obtain ⟨z, hz, hkey, hsub⟩ := ih.left x hx
        exact ⟨z, mem_cons_of_mem _ hz, hkey, hsub⟩
    · intro y hy
      obtain ⟨z, hz, hkey, hsub⟩ := ih.right y hy
      exact ⟨z, mem_cons_of_mem _ hz, hkey, hsub⟩
    · intro z hz s hs
      rcases mem_cons.mp hz with rfl | hz
      · exact Or.inl ⟨z, mem_cons_self, rfl, hs⟩
      · rcases ih.back z hz s hs with ⟨x, hx, hkey⟩ | hy
        · exact Or.inl ⟨x, mem_cons_of_mem _ hx, hkey⟩
        · exact Or.inr hy
  | right _ _ ih =>
    refine ⟨?_, ?_, ?_⟩
    · intro x hx
      obtain ⟨z, hz, hkey, hsub⟩ := ih.left x hx
      exact ⟨z, mem_cons_of_mem _ hz, hkey, hsub⟩
    · intro y hy
      rcases mem_cons.mp hy with rfl | hy
      · exact ⟨y, mem_cons_self, rfl, fun _ hs => hs⟩
      · obtain ⟨z, hz, hkey, hsub⟩ := ih.right y hy
        exact ⟨z, mem_cons_of_mem _ hz, hkey, hsub⟩
    · intro z hz s hs
      rcases mem_cons.mp hz with rfl | hz
      · exact Or.inr ⟨z, mem_cons_self, rfl, hs⟩
      · rcases ih.back z hz s hs with hx | ⟨y, hy, hkey⟩
        · exact Or.inl hx
        · exact Or.inr ⟨y, mem_cons_of_mem _ hy, hkey⟩
  | both heq hm _ ih =>
    have hm := hP _ _ _ hm
    refine ⟨?_, ?_, ?_⟩
    · intro x hx
      rcases mem_cons.mp hx with rfl | hx
      · exact ⟨_, mem_cons_self, rfl, fun s hs => (hm s).mpr (Or.inl hs)⟩
      · obtain ⟨z, hz, hkey, hsub⟩ := ih.left x hx
        exact ⟨z, mem_cons_of_mem _ hz, hkey, hsub⟩
    · intro y hy
      rcases mem_cons.mp hy with rfl | hy
      · exact ⟨_, mem_cons_self, heq, fun s hs => (hm s).mpr (Or.inr hs)⟩
      · obtain ⟨z, hz, hkey, hsub⟩ := ih.right y hy
        exact ⟨z, mem_cons_of_mem _ hz, hkey, hsub⟩
    · intro z hz s hs
      rcases mem_cons.mp hz with rfl | hz
      · rcases (hm s).mp hs with hs | hs
        · exact Or.inl ⟨_, mem_cons_self, rfl, hs⟩
        · exact Or.inr ⟨_, mem_cons_self, heq.symm, hs⟩
      · rcases ih.back z hz s hs with ⟨x, hx, hkey⟩ | ⟨y, hy, hkey⟩
        · exact Or.inl ⟨x, mem_cons_of_mem _ hx, hkey⟩
        · exact Or.inr ⟨y, mem_cons_of_mem _ hy, hkey⟩

theorem parent_lt (h : Joined P xs ys ms zs) {bound : Nat}
    (hP : ∀ p q m, P p q m → m < bound) (hxs : ∀ x ∈ xs, x.parent < bound)
    (hys : ∀ y ∈ ys, y.parent < bound) : ∀ z ∈ zs, z.parent < bound := by
  induction h with
  | nil => simp
  | left _ _ ih =>
    intro z hz
    rcases mem_cons.mp hz with rfl | hz
    · exact hxs z mem_cons_self
    · exact ih (fun x hx => hxs x (mem_cons_of_mem _ hx)) hys z hz
  | right _ _ ih =>
    intro z hz
    rcases mem_cons.mp hz with rfl | hz
    · exact hys z mem_cons_self
    · exact ih hxs (fun y hy => hys y (mem_cons_of_mem _ hy)) z hz
  | both _ hm _ ih =>
    intro z hz
    rcases mem_cons.mp hz with rfl | hz
    · exact hP _ _ _ hm
    · exact ih (fun x hx => hxs x (mem_cons_of_mem _ hx))
        (fun y hy => hys y (mem_cons_of_mem _ hy)) z hz

end Joined

end CtxArena

end Wado.Gale
