/-
The nodes of the arena: each is found by the hash of its edges, so that rows are interned as the
node that has them, or as a new one.
-/
import Wado.ExceptSteps
import Wado.StackSets
import Wado.Gale.CtxArena

namespace Wado.Gale

open ExceptSteps

/-- The order that `keyCmp` compares by. -/
abbrev CtxKey := Int ×ₗ Int

def CtxEdge.key (edge : CtxEdge) : CtxKey :=
  toLex (edge.ret, edge.rpr)

def CtxEdge.entry (edge : CtxEdge) : CtxKey × Nat :=
  (edge.key, edge.parent)

theorem CtxEdge.entry_injective : Function.Injective CtxEdge.entry := by
  rintro ⟨r, p, n⟩ ⟨r', p', n'⟩ h
  simp only [CtxEdge.entry, CtxEdge.key, Prod.mk.injEq] at h
  obtain ⟨hkey, rfl⟩ := h
  obtain ⟨rfl, rfl⟩ := Prod.mk.inj (toLex.injective hkey)
  rfl

theorem nth_of_lt {α : Type} {xs : List α} {i : Nat} (h : i < xs.length) (d : α) :
    nth xs i = .ok (xs.getD i d) := by
  rw [nth, List.getElem?_eq_getElem h, List.getD_eq_getElem _ _ h]

theorem nth_of_getElem? {α : Type} {xs : List α} {i : Nat} {x : α} (h : xs[i]? = some x) :
    nth xs i = .ok x := by
  rw [nth, h]

namespace CtxArena

variable {arena arena' arena'' : CtxArena} {top n s : Nat}

/-- The rows of a node. -/
def nodeRows (arena : CtxArena) (n : Nat) : List CtxEdge :=
  (arena.edges.drop (arena.nodeStart.getD n 0)).take (arena.nodeLen.getD n 0)

def nodeEdges (arena : CtxArena) (n : Nat) : List (CtxKey × Nat) :=
  (arena.nodeRows n).map CtxEdge.entry

/-- `n` is in the chain from `v` on. -/
inductive OnChain (next : List Int) : Int → Nat → Prop
  | here (n : Nat) : OnChain next n n
  | there {c n : Nat} {v : Int} (h : next[c]? = some v) (hn : OnChain next v n) : OnChain next c n

/-- Every node's rows are below `top`, and the node is in the chain of their hash. -/
structure Interned (arena : CtxArena) (top : Nat) : Prop where
  top_le : top ≤ arena.edges.length
  len_length : arena.nodeLen.length = arena.nodeCount
  next_length : arena.internNext.length = arena.nodeCount
  within : ∀ n < arena.nodeCount, arena.nodeStart.getD n 0 + arena.nodeLen.getD n 0 ≤ top
  head_valid : arena.internHead.Valid
  head_lt : ∀ {h : Nat} {v : Int}, arena.internHead.Holds h v → ∃ n < arena.nodeCount, v = (n : Int)
  next_lt : ∀ {n : Nat} {v : Int}, arena.internNext[n]? = some v → v = -1 ∨ ∃ m < n, v = (m : Int)
  chained : ∀ n < arena.nodeCount, ∃ v, arena.internHead.Holds (hashEdges (arena.nodeRows n)) v ∧
    OnChain arena.internNext v n

/-- The nodes of `arena` are those of `arena'`, which may have more. -/
structure Extends (arena arena' : CtxArena) : Prop where
  count_le : arena.nodeCount ≤ arena'.nodeCount
  start_eq : ∀ n < arena.nodeCount, arena'.nodeStart.getD n 0 = arena.nodeStart.getD n 0
  len_eq : ∀ n < arena.nodeCount, arena'.nodeLen.getD n 0 = arena.nodeLen.getD n 0
  rows_eq : ∀ n < arena.nodeCount, arena'.nodeRows n = arena.nodeRows n

theorem Extends.refl (arena : CtxArena) : Extends arena arena :=
  ⟨Nat.le_refl _, fun _ _ => rfl, fun _ _ => rfl, fun _ _ => rfl⟩

theorem Extends.trans (h : Extends arena arena') (h' : Extends arena' arena'') :
    Extends arena arena'' where
  count_le := Nat.le_trans h.count_le h'.count_le
  start_eq n hn := (h'.start_eq n (Nat.lt_of_lt_of_le hn h.count_le)).trans (h.start_eq n hn)
  len_eq n hn := (h'.len_eq n (Nat.lt_of_lt_of_le hn h.count_le)).trans (h.len_eq n hn)
  rows_eq n hn := (h'.rows_eq n (Nat.lt_of_lt_of_le hn h.count_le)).trans (h.rows_eq n hn)

theorem Extends.edges_eq (h : Extends arena arena') (hn : n < arena.nodeCount) :
    arena'.nodeEdges n = arena.nodeEdges n := by
  rw [nodeEdges, h.rows_eq n hn, nodeEdges]

/-- What interning the rows from `top` on gives: the node that has them, or a new one. -/
structure InternedAs (arena : CtxArena) (top id : Nat) (arena' : CtxArena) : Prop where
  interned : Interned arena' arena'.edges.length
  extends_ : Extends arena arena'
  id_lt : id < arena'.nodeCount
  rows_id : arena'.nodeRows id = arena.edges.drop top
  old_or_new : arena'.nodeCount = arena.nodeCount ∨
    arena'.nodeCount = arena.nodeCount + 1 ∧ id = arena.nodeCount ∧
      arena.nodeCount < nodePairStride ∧
      ∀ n < arena.nodeCount, arena.nodeRows n ≠ arena.edges.drop top
  pending_eq : arena'.pending = arena.pending
  merges_eq : arena'.mergeCache = arena.mergeCache
  covers_eq : arena'.coverCache = arena.coverCache

namespace Interned

theorem start_read (hn : n < arena.nodeCount) :
    nth arena.nodeStart n = .ok (arena.nodeStart.getD n 0) :=
  nth_of_lt hn 0

section

variable (h : Interned arena top)
include h

section

variable (hn : n < arena.nodeCount)
include hn

theorem len_read :
    nth arena.nodeLen n = .ok (arena.nodeLen.getD n 0) :=
  nth_of_lt (by rw [h.len_length]; exact hn) 0

theorem rows_length :
    (arena.nodeRows n).length = arena.nodeLen.getD n 0 := by
  have hwithin := h.within n hn
  have htop := h.top_le
  rw [nodeRows, List.length_take, List.length_drop]
  omega

/-- The rows of a node, one by one. -/
theorem row_read {i : Nat} (hi : i < (arena.nodeRows n).length) :
    arena.edges[arena.nodeStart.getD n 0 + i]? = some (arena.nodeRows n)[i] := by
  rw [← List.getElem?_eq_getElem hi, nodeRows, List.getElem?_take_of_lt, List.getElem?_drop]
  rw [h.rows_length hn] at hi
  exact hi

/-- What is appended past the nodes' rows changes none. -/
theorem rows_of_prefix (hstart : arena'.nodeStart.getD n 0 = arena.nodeStart.getD n 0)
    (hlen : arena'.nodeLen.getD n 0 = arena.nodeLen.getD n 0)
    (hedges : arena'.edges.take top = arena.edges.take top) :
    arena'.nodeRows n = arena.nodeRows n := by
  have hwithin := h.within n hn
  have hcut : ∀ edges : List CtxEdge,
      (edges.drop (arena.nodeStart.getD n 0)).take (arena.nodeLen.getD n 0) =
        ((edges.take top).drop (arena.nodeStart.getD n 0)).take (arena.nodeLen.getD n 0) := by
    intro edges
    rw [List.drop_take, List.take_take, Nat.min_eq_left (by omega)]
  rw [nodeRows, hstart, hlen, hcut, hedges, ← hcut, nodeRows]

end

/-- Other columns above `top` are no node's. -/
theorem with_edges {edges : List CtxEdge} {pending : List Nat}
    {mergeCache coverCache : AtnKeyMap} (hedges : edges.take top = arena.edges.take top)
    (htop : top ≤ edges.length) :
    Interned { arena with
      edges := edges, pending := pending, mergeCache := mergeCache, coverCache := coverCache }
      top ∧
    Extends arena { arena with
      edges := edges, pending := pending, mergeCache := mergeCache, coverCache := coverCache } := by
  have hrows : ∀ n < arena.nodeCount, ({ arena with
        edges := edges, pending := pending, mergeCache := mergeCache,
        coverCache := coverCache } : CtxArena).nodeRows n = arena.nodeRows n :=
    fun n hn => h.rows_of_prefix hn rfl rfl hedges
  refine ⟨⟨htop, h.len_length, h.next_length, h.within, h.head_valid, h.head_lt, h.next_lt, ?_⟩,
    ⟨Nat.le_refl _, fun _ _ => rfl, fun _ _ => rfl, hrows⟩⟩
  intro n hn
  rw [hrows n hn]
  exact h.chained n hn

theorem edgesEq_eq (hn : n < arena.nodeCount) {len : Nat} (hs : s + len ≤ arena.edges.length) :
    arena.edgesEq n s len = .ok (decide (arena.nodeRows n = (arena.edges.drop s).take len)) := by
  have hwithin := h.within n hn
  have htop := h.top_le
  rw [edgesEq, bind_of_eq_ok (h.len_read hn)]
  by_cases hlen : arena.nodeLen.getD n 0 = len
  · rw [if_neg (by simpa using hlen)]
    have hrows : arena.rows (arena.nodeStart.getD n 0) len = .ok (arena.nodeRows n) := by
      rw [rows, if_pos (by omega), nodeRows, hlen]
    have hrows' : arena.rows s len = .ok ((arena.edges.drop s).take len) := by
      rw [rows, if_pos hs]
    rw [bind_of_eq_ok (start_read hn), bind_of_eq_ok hrows, bind_of_eq_ok hrows', beq_eq_decide]
    rfl
  · rw [if_pos (by simpa using hlen)]
    have hne : arena.nodeRows n ≠ (arena.edges.drop s).take len := by
      intro heq
      have hlength := congrArg List.length heq
      rw [h.rows_length hn, List.length_take, List.length_drop] at hlength
      omega
    rw [decide_eq_false hne]
    rfl

end

theorem onChain_neg {next : List Int} : ¬ OnChain next (-1) n := by
  intro h
  generalize hv : (-1 : Int) = v at h
  cases h with
  | here => omega
  | there => omega

theorem onChain_cases {next : List Int} {c : Nat} {v : Int} (hv : next[c]? = some v)
    (h : OnChain next c n) : n = c ∨ OnChain next v n := by
  generalize hc : (c : Int) = w at h
  cases h with
  | here => exact Or.inl (by omega)
  | there hv' hn =>
    obtain rfl := Int.ofNat_inj.mp hc
    rw [hv] at hv'
    cases hv'
    exact Or.inr hn

/-- What the walk of a chain finds: a node of the rows, or that none of the chain has them. -/
theorem findInterned_spec (h : Interned arena top) {len fuel : Nat} {cand : Int}
    (hs : s + len ≤ arena.edges.length)
    (hcand : cand = -1 ∨ ∃ c < arena.nodeCount, cand = (c : Int)) (hfuel : cand + 1 < fuel) :
    (∃ m < arena.nodeCount, arena.findInterned s len fuel cand = .ok (some m) ∧
      arena.nodeRows m = (arena.edges.drop s).take len) ∨
    arena.findInterned s len fuel cand = .ok none ∧ ∀ m, OnChain arena.internNext cand m →
        arena.nodeRows m ≠ (arena.edges.drop s).take len := by
  induction fuel generalizing cand with
  | zero => omega
  | succ fuel ih =>
    rcases hcand with rfl | ⟨c, hc, rfl⟩
    · refine Or.inr ⟨?_, fun m hm => absurd hm onChain_neg⟩
      rw [findInterned, if_neg (by omega)]
    · have hnext : c < arena.internNext.length := by
        rw [h.next_length]
        exact hc
      have hget : arena.internNext[c]? = some arena.internNext[c] :=
        List.getElem?_eq_getElem hnext
      have hread : nthAt arena.internNext (c : Int) = .ok arena.internNext[c] := by
        rw [nthAt, if_neg (by omega), Int.toNat_natCast]
        exact nth_of_getElem? hget
      rw [findInterned, if_pos (by omega), Int.toNat_natCast, bind_of_eq_ok (h.edgesEq_eq hc hs)]
      by_cases heq : arena.nodeRows c = (arena.edges.drop s).take len
      · rw [if_pos (by simpa using heq)]
        exact Or.inl ⟨c, hc, rfl, heq⟩
      · rw [if_neg (by simpa using heq), bind_of_eq_ok hread]
        have hv : arena.internNext[c] = -1 ∨
            ∃ m < arena.nodeCount, arena.internNext[c] = (m : Int) := by
          rcases h.next_lt hget with hend | ⟨m, hm, hv⟩
          · exact Or.inl hend
          · exact Or.inr ⟨m, by omega, hv⟩
        have hless : arena.internNext[c] + 1 < fuel := by
          rcases h.next_lt hget with hend | ⟨m, hm, hv⟩
          · omega
          · omega
        rcases ih hv hless with hfound | ⟨hrun, hnone⟩
        · exact Or.inl hfound
        · refine Or.inr ⟨hrun, fun m hm => ?_⟩
          rcases onChain_cases hget hm with rfl | hm
          · exact heq
          · exact hnone m hm

/-- A longer list of links keeps the chains. -/
theorem onChain_append {next more : List Int} {v : Int} (h : OnChain next v n) :
    OnChain (next ++ more) v n := by
  induction h with
  | here n => exact .here n
  | there hv _ ih =>
    have hlt := (List.getElem?_eq_some_iff.mp hv).1
    exact .there (by rw [List.getElem?_append_left hlt, hv]) ih

section

variable (h : Interned arena top)
include h

/-- The head of the chain of a hash: -1 when no node has it. -/
theorem head_read (hash : Nat) :
    ∃ head, searched (arena.internHead.get hash) = .ok head ∧
      (head = -1 ∨ ∃ c < arena.nodeCount, head = (c : Int)) ∧
      ∀ n < arena.nodeCount, hashEdges (arena.nodeRows n) = hash →
        OnChain arena.internNext head n := by
  obtain ⟨head, hget, hhead | ⟨rfl, hnone⟩⟩ := h.head_valid.get_spec hash
  · refine ⟨head, by rw [hget]; rfl, Or.inr (h.head_lt hhead), fun n hn hhash => ?_⟩
    obtain ⟨v, hv, hchain⟩ := h.chained n hn
    rw [hhash] at hv
    rw [h.head_valid.holds_unique hhead hv]
    exact hchain
  · refine ⟨-1, by rw [hget]; rfl, Or.inl rfl, fun n hn hhash => ?_⟩
    obtain ⟨v, hv, -⟩ := h.chained n hn
    rw [hhash] at hv
    exact absurd hv (hnone v)

/-- A new node for the rows from `top` on, at the head of the chain of their hash. -/
theorem internedAs_new (htop : top < arena.edges.length)
    {heads : AtnKeyMap} {head : Int} (hvalid : heads.Valid) (hholds : ∀ k v, heads.Holds k v ↔
      k = hashEdges (arena.edges.drop top) ∧ v = (arena.nodeCount : Int) ∨
        k ≠ hashEdges (arena.edges.drop top) ∧ arena.internHead.Holds k v)
    (hhead : head = -1 ∨ ∃ c < arena.nodeCount, head = (c : Int))
    (hchain : ∀ n < arena.nodeCount, hashEdges (arena.nodeRows n) =
      hashEdges (arena.edges.drop top) → OnChain arena.internNext head n)
    (hfull : arena.nodeCount < nodePairStride)
    (hnone : ∀ m, OnChain arena.internNext head m → arena.nodeRows m ≠ arena.edges.drop top) :
    InternedAs arena top arena.nodeCount { arena with
      nodeStart := arena.nodeStart ++ [top]
      nodeLen := arena.nodeLen ++ [arena.edges.length - top]
      internNext := arena.internNext ++ [head]
      internHead := heads } := by
  have hlen := h.len_length
  have hnext := h.next_length
  have hcount : arena.nodeStart.length = arena.nodeCount := rfl
  have hstart : ∀ n < arena.nodeCount, (arena.nodeStart ++ [top]).getD n 0 =
      arena.nodeStart.getD n 0 := by
    intro n hn
    rw [List.getD_append _ _ _ _ hn]
  have hlens : ∀ n < arena.nodeCount, (arena.nodeLen ++ [arena.edges.length - top]).getD n 0 =
      arena.nodeLen.getD n 0 := by
    intro n hn
    rw [List.getD_append _ _ _ _ (by omega)]
  have hnewStart : (arena.nodeStart ++ [top]).getD arena.nodeCount 0 = top := by
    rw [List.getD_append_right _ _ _ _ (by omega), hcount, Nat.sub_self]
    rfl
  have hnewLen : (arena.nodeLen ++ [arena.edges.length - top]).getD arena.nodeCount 0 =
      arena.edges.length - top := by
    rw [List.getD_append_right _ _ _ _ (by omega), hlen, Nat.sub_self]
    rfl
  generalize harena' : ({ arena with
      nodeStart := arena.nodeStart ++ [top]
      nodeLen := arena.nodeLen ++ [arena.edges.length - top]
      internNext := arena.internNext ++ [head]
      internHead := heads } : CtxArena) = arena'
  have hrows : ∀ n < arena.nodeCount, arena'.nodeRows n = arena.nodeRows n := by
    intro n hn
    subst harena'
    exact h.rows_of_prefix hn (hstart n hn) (hlens n hn) rfl
  have hnewRows : arena'.nodeRows arena.nodeCount = arena.edges.drop top := by
    subst harena'
    rw [nodeRows]
    simp only [hnewStart, hnewLen]
    exact List.take_of_length_le (by simp)
  have hcount' : arena'.nodeCount = arena.nodeCount + 1 := by
    subst harena'
    show (arena.nodeStart ++ [top]).length = arena.nodeStart.length + 1
    simp
  refine ⟨⟨Nat.le_refl _, ?_, ?_, ?_, ?_, ?_, ?_, ?_⟩, ⟨?_, ?_, ?_, hrows⟩, ?_, hnewRows,
    Or.inr ⟨hcount', rfl, hfull, ?_⟩, ?_, ?_, ?_⟩
  · rw [hcount', ← harena']
    show (arena.nodeLen ++ [arena.edges.length - top]).length = arena.nodeCount + 1
    simp [hlen]
  · rw [hcount', ← harena']
    show (arena.internNext ++ [head]).length = arena.nodeCount + 1
    simp [hnext]
  · intro n hn
    rw [hcount'] at hn
    subst harena'
    show (arena.nodeStart ++ [top]).getD n 0 +
      (arena.nodeLen ++ [arena.edges.length - top]).getD n 0 ≤ arena.edges.length
    rcases Nat.lt_or_eq_of_le (Nat.le_of_lt_succ hn) with hn | rfl
    · rw [hstart n hn, hlens n hn]
      have := h.within n hn
      omega
    · rw [hnewStart, hnewLen]
      omega
  · subst harena'
    exact hvalid
  · intro k v hv
    rw [hcount']
    have hv' : heads.Holds k v := by
      subst harena'
      exact hv
    rcases (hholds k v).mp hv' with ⟨-, rfl⟩ | ⟨-, hold⟩
    · exact ⟨arena.nodeCount, by omega, rfl⟩
    · obtain ⟨n, hn, rfl⟩ := h.head_lt hold
      exact ⟨n, by omega, rfl⟩
  · intro n v hv
    have hv' : (arena.internNext ++ [head])[n]? = some v := by
      subst harena'
      exact hv
    by_cases hn : n < arena.internNext.length
    · rw [List.getElem?_append_left hn] at hv'
      exact h.next_lt hv'
    · have hlt := (List.getElem?_eq_some_iff.mp hv').1
      rw [List.length_append, List.length_singleton] at hlt
      obtain rfl : n = arena.internNext.length := by omega
      rw [List.getElem?_append_right (Nat.le_refl _), Nat.sub_self] at hv'
      cases hv'
      rw [hnext]
      exact hhead
  · intro n hn
    have hholds' : ∀ k v, arena'.internHead.Holds k v ↔
        k = hashEdges (arena.edges.drop top) ∧ v = (arena.nodeCount : Int) ∨
          k ≠ hashEdges (arena.edges.drop top) ∧ arena.internHead.Holds k v := by
      subst harena'
      exact hholds
    have hlinks : arena'.internNext = arena.internNext ++ [head] := by
      subst harena'
      rfl
    have hlink : (arena.internNext ++ [head])[arena.nodeCount]? = some head := by
      rw [List.getElem?_append_right (by omega), hnext, Nat.sub_self]
      rfl
    rw [hcount'] at hn
    rw [hlinks]
    rcases Nat.lt_or_eq_of_le (Nat.le_of_lt_succ hn) with hn | rfl
    · rw [hrows n hn]
      by_cases hhash : hashEdges (arena.nodeRows n) = hashEdges (arena.edges.drop top)
      · exact ⟨_, (hholds' _ _).mpr (Or.inl ⟨hhash, rfl⟩),
          .there hlink (onChain_append (hchain n hn hhash))⟩
      · obtain ⟨v, hv, hon⟩ := h.chained n hn
        exact ⟨v, (hholds' _ _).mpr (Or.inr ⟨hhash, hv⟩), onChain_append hon⟩
    · rw [hnewRows]
      exact ⟨_, (hholds' _ _).mpr (Or.inl ⟨rfl, rfl⟩), .here _⟩
  · omega
  · intro n hn
    subst harena'
    exact hstart n hn
  · intro n hn
    subst harena'
    exact hlens n hn
  · omega
  · intro n hn heq
    exact hnone n (hchain n hn (by rw [heq])) heq
  · subst harena'
    rfl
  · subst harena'
    rfl
  · subst harena'
    rfl

theorem internFrom_spec (htop : top < arena.edges.length) :
    arena.internFrom top = .error .full ∧ nodePairStride ≤ arena.nodeCount ∨
      ∃ id arena', arena.internFrom top = .ok (id, arena') ∧ InternedAs arena top id arena' := by
  have hrows : arena.rows top (arena.edges.length - top) = .ok (arena.edges.drop top) := by
    rw [rows, if_pos (by omega), List.take_of_length_le (by simp)]
  obtain ⟨head, hread, hhead, hchain⟩ := h.head_read (hashEdges (arena.edges.drop top))
  have hall : (arena.edges.drop top).take (arena.edges.length - top) = arena.edges.drop top :=
    List.take_of_length_le (by simp)
  have hfuel : head + 1 < ((arena.nodeCount + 1 : Nat) : Int) := by
    rcases hhead with rfl | ⟨c, hc, rfl⟩
    · omega
    · omega
  simp only [internFrom]
  rw [if_neg (by omega), bind_of_eq_ok hrows, bind_of_eq_ok hread]
  rcases h.findInterned_spec
      (show top + (arena.edges.length - top) ≤ arena.edges.length by omega) hhead hfuel with
    ⟨m, hm, hfind, hmrows⟩ | ⟨hfind, hnone⟩
  · rw [bind_of_eq_ok hfind]
    obtain ⟨hint, hext⟩ : Interned { arena with edges := arena.edges.take top } top ∧
        Extends arena { arena with edges := arena.edges.take top } :=
      h.with_edges (by rw [List.take_take, Nat.min_self]) (by rw [List.length_take]; omega)
    refine Or.inr ⟨m, _, rfl, ⟨?_, hext, hm, ?_, Or.inl rfl, rfl, rfl, rfl⟩⟩
    · have hlength : (arena.edges.take top).length = top := by
        rw [List.length_take]
        omega
      exact hlength.symm ▸ hint
    · rw [hext.rows_eq m hm, hmrows, hall]
  · rw [bind_of_eq_ok hfind]
    rw [hall] at hnone
    by_cases hfull : arena.nodeCount < nodePairStride
    · obtain ⟨heads, hset, hvalid, hholds⟩ :=
        h.head_valid.set_spec (hashEdges (arena.edges.drop top)) (arena.nodeCount : Int)
      have hset' : searched (arena.internHead.set (hashEdges (arena.edges.drop top))
          (arena.nodeCount : Int)) = .ok heads := by
        rw [hset]
        rfl
      rw [if_pos hfull, bind_of_eq_ok hset']
      refine Or.inr ⟨arena.nodeCount, _, rfl, ?_⟩
      exact h.internedAs_new htop hvalid hholds hhead hchain hfull hnone
    · rw [if_neg hfull]
      exact Or.inl ⟨rfl, by omega⟩

end

end Interned

end CtxArena

end Wado.Gale
