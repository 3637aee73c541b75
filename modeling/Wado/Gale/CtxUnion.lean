/-
What a merge answers: the node of both nodes' stacks, in an arena that keeps the nodes it had.
-/
import Wado.Gale.CtxMerge

namespace Wado.Gale

open ExceptSteps List

namespace CtxArena

variable {arena arena' arena'' : CtxArena} {top n : Nat}

/-- A step that stops only where the arena is full, and else answers as `Q` says. -/
def Answers {α : Type} (x : Except Stop α) (Q : α → Prop) : Prop :=
  x = .error .full ∨ ∃ a, x = .ok a ∧ Q a

theorem Answers.bind {α β : Type} {x : Except Stop α} {f : α → Except Stop β} {Q : α → Prop}
    {R : β → Prop} (h : Answers x Q) (hf : ∀ a, Q a → Answers (f a) R) : Answers (x >>= f) R := by
  rcases h with hfull | ⟨a, ha, hQ⟩
  · exact Or.inl (bind_of_eq_error hfull)
  · rw [bind_of_eq_ok ha]
    exact hf a hQ

theorem Answers.imp {α : Type} {x : Except Stop α} {Q R : α → Prop} (h : Answers x Q)
    (hQ : ∀ a, Q a → R a) : Answers x R := by
  rcases h with hfull | ⟨a, ha, hQa⟩
  · exact Or.inl hfull
  · exact Or.inr ⟨a, ha, hQ a hQa⟩

/-- What merging `a` and `b` answers. -/
def MergedAs (arena : CtxArena) (a b : Nat) (result : Nat × CtxArena) : Prop :=
  Valid result.2 ∧ Extends arena result.2 ∧ result.2.pending = arena.pending ∧
    result.2.IsUnion a b result.1

/-- Rows read while rows are appended past them. -/
theorem appended_read {rows more : List CtxEdge} {start i : Nat} {x : CtxEdge}
    {edges : List CtxEdge}
    (hrows : ∀ i x, rows[i]? = some x → edges[start + i]? = some x) (hx : rows[i]? = some x) :
    (edges ++ more)[start + i]? = some x := by
  have hread := hrows i x hx
  rw [List.getElem?_append_left (List.getElem?_eq_some_iff.mp hread).1]
  exact hread

theorem drop_eq_cons {α : Type} {xs : List α} {i : Nat} {x : α} {rest : List α}
    (h : xs.drop i = x :: rest) : xs[i]? = some x ∧ xs.drop (i + 1) = rest := by
  constructor
  · rw [← List.head?_drop, h]
    rfl
  · rw [← tail_drop, h]
    rfl

theorem lt_of_drop_eq_cons {α : Type} {xs : List α} {i : Nat} {x : α} {rest : List α}
    (h : xs.drop i = x :: rest) : i < xs.length :=
  (List.getElem?_eq_some_iff.mp (drop_eq_cons h).1).1

/-- The second pass appends the joined rows. -/
theorem appendMerged_spec {P : Nat → Nat → Nat → Prop} {as bs xs ys zs : List CtxEdge}
    {ms : List Nat} {sa sb : Nat} (h : Joined P xs ys ms zs) {arena : CtxArena} {fuel i j k : Nat}
    (ha : ∀ i x, as[i]? = some x → arena.edges[sa + i]? = some x)
    (hb : ∀ j y, bs[j]? = some y → arena.edges[sb + j]? = some y)
    (hxs : as.drop i = xs) (hys : bs.drop j = ys) (hms : arena.pending.drop k = ms)
    (hfuel : xs.length + ys.length < fuel) :
    appendMerged sa as.length sb bs.length fuel arena i j k =
      .ok { arena with edges := arena.edges ++ zs } := by
  induction h generalizing arena fuel i j k with
  | nil =>
    obtain ⟨fuel, rfl⟩ := Nat.exists_eq_succ_of_ne_zero (Nat.ne_of_gt (Nat.zero_lt_of_lt hfuel))
    have hi := drop_eq_nil_iff.mp hxs
    have hj := drop_eq_nil_iff.mp hys
    rw [appendMerged, if_neg (by omega), append_nil]
  | @left x xs ys zs ms hless h ih =>
    obtain ⟨fuel, rfl⟩ := Nat.exists_eq_succ_of_ne_zero (Nat.ne_of_gt (Nat.zero_lt_of_lt hfuel))
    obtain ⟨hx, hxs'⟩ := drop_eq_cons hxs
    have hi := lt_of_drop_eq_cons hxs
    have hc : ∃ c, (if i ≥ as.length then .ok 1 else if j ≥ bs.length then .ok (-1)
        else arena.keyCmp (sa + i) (sb + j) : Except Stop Int) = .ok c ∧ c < 0 := by
      rw [if_neg (by omega)]
      cases ys with
      | nil =>
        have hj := drop_eq_nil_iff.mp hys
        exact ⟨-1, by rw [if_pos (by omega)], by omega⟩
      | cons y ys =>
        have hj := lt_of_drop_eq_cons hys
        have hlt := hless y rfl
        obtain ⟨c, hc, ⟨hneg, -⟩ | ⟨-, hgt⟩ | ⟨-, heq⟩⟩ :=
          keyCmp_spec (ha i x hx) (hb j y (drop_eq_cons hys).1)
        · exact ⟨c, by rw [if_neg (by omega), hc], hneg⟩
        · exact absurd (hlt.trans hgt) (lt_irrefl _)
        · exact absurd heq (ne_of_lt hlt)
    obtain ⟨c, hc, hneg⟩ := hc
    rw [appendMerged, if_pos (Or.inl hi), bind_of_eq_ok hc, if_pos hneg,
      bind_of_eq_ok (nth_of_getElem? (ha i x hx))]
    have haNext : ∀ i x', as[i]? = some x' → (arena.appendEdge x).edges[sa + i]? = some x' :=
      fun i x' hx' => appended_read ha hx'
    have hbNext : ∀ j y', bs[j]? = some y' → (arena.appendEdge x).edges[sb + j]? = some y' :=
      fun j y' hy' => appended_read hb hy'
    rw [ih haNext hbNext hxs' hys hms (by simp at hfuel; omega)]
    simp [appendEdge]
  | @right y xs ys zs ms hless h ih =>
    obtain ⟨fuel, rfl⟩ := Nat.exists_eq_succ_of_ne_zero (Nat.ne_of_gt (Nat.zero_lt_of_lt hfuel))
    obtain ⟨hy, hys'⟩ := drop_eq_cons hys
    have hj := lt_of_drop_eq_cons hys
    have hc : ∃ c, (if i ≥ as.length then .ok 1 else if j ≥ bs.length then .ok (-1)
        else arena.keyCmp (sa + i) (sb + j) : Except Stop Int) = .ok c ∧ c > 0 := by
      cases xs with
      | nil =>
        have hi := drop_eq_nil_iff.mp hxs
        exact ⟨1, by rw [if_pos (by omega)], by omega⟩
      | cons x xs =>
        have hi := lt_of_drop_eq_cons hxs
        have hlt := hless x rfl
        rw [if_neg (by omega), if_neg (by omega)]
        obtain ⟨c, hc, ⟨-, hgt⟩ | ⟨hpos, -⟩ | ⟨-, heq⟩⟩ :=
          keyCmp_spec (ha i x (drop_eq_cons hxs).1) (hb j y hy)
        · exact absurd (hlt.trans hgt) (lt_irrefl _)
        · exact ⟨c, hc, hpos⟩
        · exact absurd heq.symm (ne_of_lt hlt)
    obtain ⟨c, hc, hpos⟩ := hc
    rw [appendMerged, if_pos (Or.inr hj), bind_of_eq_ok hc, if_neg (by omega), if_pos hpos,
      bind_of_eq_ok (nth_of_getElem? (hb j y hy))]
    have haNext : ∀ i x', as[i]? = some x' → (arena.appendEdge y).edges[sa + i]? = some x' :=
      fun i x' hx' => appended_read ha hx'
    have hbNext : ∀ j y', bs[j]? = some y' → (arena.appendEdge y).edges[sb + j]? = some y' :=
      fun j y' hy' => appended_read hb hy'
    rw [ih haNext hbNext hxs hys' hms (by simp at hfuel; omega)]
    simp [appendEdge]
  | @both x y m xs ys zs ms heq hm h ih =>
    obtain ⟨fuel, rfl⟩ := Nat.exists_eq_succ_of_ne_zero (Nat.ne_of_gt (Nat.zero_lt_of_lt hfuel))
    obtain ⟨hx, hxs'⟩ := drop_eq_cons hxs
    obtain ⟨hy, hys'⟩ := drop_eq_cons hys
    obtain ⟨hpending, hms'⟩ := drop_eq_cons hms
    have hi := lt_of_drop_eq_cons hxs
    have hj := lt_of_drop_eq_cons hys
    obtain ⟨c, hc, ⟨-, hlt⟩ | ⟨-, hlt⟩ | ⟨hzero, -⟩⟩ := keyCmp_spec (ha i x hx) (hb j y hy)
    · exact absurd heq (ne_of_lt hlt)
    · exact absurd heq.symm (ne_of_lt hlt)
    have hc' : (if i ≥ as.length then .ok 1 else if j ≥ bs.length then .ok (-1)
        else arena.keyCmp (sa + i) (sb + j) : Except Stop Int) = .ok c := by
      rw [if_neg (by omega), if_neg (by omega), hc]
    rw [appendMerged, if_pos (Or.inl hi), bind_of_eq_ok hc', if_neg (by omega), if_neg (by omega),
      bind_of_eq_ok (nth_of_getElem? (ha i x hx)), bind_of_eq_ok (nth_of_getElem? hpending)]
    have haNext : ∀ i x', as[i]? = some x' →
        (arena.appendEdge ⟨x.ret, x.rpr, m⟩).edges[sa + i]? = some x' :=
      fun i x' hx' => appended_read ha hx'
    have hbNext : ∀ j y', bs[j]? = some y' →
        (arena.appendEdge ⟨x.ret, x.rpr, m⟩).edges[sb + j]? = some y' :=
      fun j y' hy' => appended_read hb hy'
    rw [ih haNext hbNext hxs' hys' hms' (by simp at hfuel; omega)]
    simp [appendEdge]

/-- The rows of a node, where the arena that has it grew. -/
theorem ValidBelow.grown_read (h : ValidBelow arena' top) (hext : Extends arena arena')
    (hn : n < arena.nodeCount) (i : Nat) (x : CtxEdge) (hx : (arena.nodeRows n)[i]? = some x) :
    arena'.edges[arena.nodeStart.getD n 0 + i]? = some x := by
  have hcount := hext.count_le
  rw [← hext.rows_eq n hn] at hx
  obtain ⟨hi, rfl⟩ := List.getElem?_eq_some_iff.mp hx
  rw [← hext.start_eq n hn]
  exact h.interned.row_read (by omega) hi

/-- What the first pass leaves: results parked on the pending stack, from which the rows of both
nodes join. -/
def ParkedAs (arena : CtxArena) (xs ys : List CtxEdge) (arena' : CtxArena) : Prop :=
  Valid arena' ∧ Extends arena arena' ∧
    ∃ ms zs, arena'.pending = arena.pending ++ ms ∧ Joined arena'.IsUnion xs ys ms zs

/-- The first pass merges the parents below the keys of both nodes. -/
theorem mergeParents_spec {merge : CtxArena → Nat → Nat → Except Stop (Nat × CtxArena)}
    {first : CtxArena} {a b : Nat} (ha : a < first.nodeCount) (hb : b < first.nodeCount)
    (hne : a ≠ b)
    (hmerge : ∀ (arena : CtxArena) (p q : Nat), Valid arena → p < arena.nodeCount →
      q < arena.nodeCount → p + q < a + b → Answers (merge arena p q) (MergedAs arena p q))
    {arena : CtxArena} (h : Valid arena) (hext : Extends first arena) {fuel i j : Nat}
    (hfuel : (first.nodeRows a).length - i + ((first.nodeRows b).length - j) < fuel) :
    Answers (mergeParents merge (first.nodeStart.getD a 0) (first.nodeRows a).length
      (first.nodeStart.getD b 0) (first.nodeRows b).length fuel arena i j)
      (ParkedAs arena ((first.nodeRows a).drop i) ((first.nodeRows b).drop j)) := by
  induction fuel generalizing arena i j with
  | zero => omega
  | succ fuel ih =>
    rw [mergeParents]
    by_cases hboth : i < (first.nodeRows a).length ∧ j < (first.nodeRows b).length
    · obtain ⟨hi, hj⟩ := hboth
      rw [if_pos ⟨hi, hj⟩]
      have hcount := hext.count_le
      have hx : (first.nodeRows a)[i]? = some (first.nodeRows a)[i] :=
        List.getElem?_eq_getElem hi
      have hy : (first.nodeRows b)[j]? = some (first.nodeRows b)[j] :=
        List.getElem?_eq_getElem hj
      have hreadX := h.grown_read hext ha i _ hx
      have hreadY := h.grown_read hext hb j _ hy
      have hxs := drop_eq_getElem_cons hi
      have hys := drop_eq_getElem_cons hj
      obtain ⟨c, hc, ⟨hneg, hlt⟩ | ⟨hpos, hlt⟩ | ⟨hzero, heq⟩⟩ := keyCmp_spec hreadX hreadY
      · rw [bind_of_eq_ok hc, if_pos hneg]
        refine (ih h hext (by omega)).imp fun arena' hparked => ?_
        obtain ⟨hvalid, hext', ms, zs, hpending, hjoined⟩ := hparked
        refine ⟨hvalid, hext', ms, (first.nodeRows a)[i] :: zs, hpending, ?_⟩
        rw [hxs]
        refine .left (fun y hyhead => ?_) hjoined
        rw [hys] at hyhead
        cases hyhead
        exact hlt
      · rw [bind_of_eq_ok hc, if_neg (by omega), if_pos hpos]
        refine (ih h hext (by omega)).imp fun arena' hparked => ?_
        obtain ⟨hvalid, hext', ms, zs, hpending, hjoined⟩ := hparked
        refine ⟨hvalid, hext', ms, (first.nodeRows b)[j] :: zs, hpending, ?_⟩
        rw [hys]
        refine .right (fun x hxhead => ?_) hjoined
        rw [hxs] at hxhead
        cases hxhead
        exact hlt
      · rw [bind_of_eq_ok hc, if_neg (by omega), if_neg (by omega),
          bind_of_eq_ok (nth_of_getElem? hreadX), bind_of_eq_ok (nth_of_getElem? hreadY)]
        have hxIn : (first.nodeRows a)[i] ∈ arena.nodeRows a := by
          rw [hext.rows_eq a ha]
          exact getElem_mem hi
        have hyIn : (first.nodeRows b)[j] ∈ arena.nodeRows b := by
          rw [hext.rows_eq b hb]
          exact getElem_mem hj
        have haCount : a < arena.nodeCount := by omega
        have hbCount : b < arena.nodeCount := by omega
        refine (hmerge arena _ _ h (h.parent_lt haCount hxIn) (h.parent_lt hbCount hyIn)
          (h.parents_sum haCount hbCount hne hxIn hyIn)).bind ?_
        rintro ⟨m, merged⟩ ⟨hvalid, hextMerged, hpendingMerged, hunion⟩
        simp only at hvalid hextMerged hpendingMerged hunion ⊢
        obtain ⟨hvalid', hextPark⟩ : ValidBelow
            { merged with pending := merged.pending ++ [m] } merged.edges.length ∧
            Extends merged { merged with pending := merged.pending ++ [m] } :=
          hvalid.with_edges rfl (Nat.le_refl _)
        have hvalidPark : Valid { merged with pending := merged.pending ++ [m] } := hvalid'
        refine (ih hvalidPark ((hext.trans hextMerged).trans hextPark) (by omega)).imp
          fun arena' hparked => ?_
        obtain ⟨hvalid'', hext', ms, zs, hpending, hjoined⟩ := hparked
        refine ⟨hvalid'', (hextMerged.trans hextPark).trans hext', m :: ms,
          ⟨(first.nodeRows a)[i].ret, (first.nodeRows a)[i].rpr, m⟩ :: zs, ?_, ?_⟩
        · rw [hpending, ← hpendingMerged]
          simp
        · rw [hxs, hys]
          exact .both heq (hext'.isUnion hvalid'.graph (hextPark.isUnion hvalid.graph hunion))
            hjoined
    · rw [if_neg hboth]
      refine Or.inr ⟨arena, rfl, h, Extends.refl _, [], ?_⟩
      rcases Nat.lt_or_ge i (first.nodeRows a).length with hi | hi
      · have hj : (first.nodeRows b).drop j = [] := drop_eq_nil_iff.mpr (by omega)
        rw [hj]
        exact ⟨_, (append_nil _).symm, .nil_right _⟩
      · have hi' : (first.nodeRows a).drop i = [] := drop_eq_nil_iff.mpr hi
        rw [hi']
        exact ⟨_, (append_nil _).symm, .nil_left _⟩

/-- A node whose rows join those of two nodes is their union. -/
theorem ValidBelow.isUnion_of_joined (h : ValidBelow arena top) {a b id : Nat} {ms : List Nat}
    (ha : a < arena.nodeCount) (hb : b < arena.nodeCount) (hid : id < arena.nodeCount)
    (hjoined : Joined arena.IsUnion (arena.nodeRows a) (arena.nodeRows b) ms
      (arena.nodeRows id)) : arena.IsUnion a b id := by
  have hkeeps : Joined.Keeps arena.Stack (arena.nodeRows a) (arena.nodeRows b)
      (arena.nodeRows id) := hjoined.keeps fun p q m hunion => hunion.2.2.2
  have hforth : ∀ {rows : List CtxEdge}, (∀ x ∈ rows, ∃ z ∈ arena.nodeRows id, z.key = x.key ∧
        ∀ s, arena.Stack x.parent s → arena.Stack z.parent s) →
      ∀ e ∈ rows.map CtxEdge.entry, ∃ p, (e.1, p) ∈ arena.nodeEdges id ∧
        ∀ s, arena.Stack e.2 s → arena.Stack p s := by
    intro rows hrows e he
    obtain ⟨x, hx, rfl⟩ := mem_map.mp he
    obtain ⟨z, hz, hkey, hsub⟩ := hrows x hx
    have hin : z.entry ∈ arena.nodeEdges id := mem_map_of_mem hz
    rw [CtxEdge.entry, hkey] at hin
    exact ⟨z.parent, hin, hsub⟩
  refine ⟨ha, hb, hid, h.graph.spells_union (hforth hkeeps.left) (hforth hkeeps.right) ?_⟩
  intro e he s hs
  obtain ⟨z, hz, rfl⟩ := mem_map.mp he
  rcases hkeeps.back z hz s hs with ⟨x, hx, hkey, hxs⟩ | ⟨y, hy, hkey, hys⟩
  · have hin : x.entry ∈ arena.nodeEdges a := mem_map_of_mem hx
    rw [CtxEdge.entry, hkey] at hin
    exact Or.inl ⟨x.parent, hin, hxs⟩
  · have hin : y.entry ∈ arena.nodeEdges b := mem_map_of_mem hy
    rw [CtxEdge.entry, hkey] at hin
    exact Or.inr ⟨y.parent, hin, hys⟩

theorem IsUnion.symm {a b m : Nat} (h : arena.IsUnion a b m) : arena.IsUnion b a m :=
  ⟨h.2.1, h.1, h.2.2.1, fun s => (h.2.2.2 s).trans or_comm⟩

/-- A merge that the cache answers. -/
theorem Valid.merge_cached (h : Valid arena) {a b : Nat} (ha : a < arena.nodeCount)
    (hb : b < arena.nodeCount) :
    ∃ cached, searched (arena.mergeCache.get
        (if a < b then nodePairKey a b else nodePairKey b a)) = .ok cached ∧
      (cached < 0 ∨ ∃ m : Nat, cached = (m : Int) ∧ arena.IsUnion a b m) := by
  have hcount := h.count_le
  have hread : ∀ (lo : Nat) {hi : Nat}, hi < arena.nodeCount → ∃ cached,
      searched (arena.mergeCache.get (nodePairKey lo hi)) = .ok cached ∧
        (cached < 0 ∨ ∃ m : Nat, cached = (m : Int) ∧ arena.IsUnion lo hi m) := by
    intro lo hi hhi
    obtain ⟨cached, hget, hholds | ⟨rfl, -⟩⟩ := h.merges_valid.get_spec (nodePairKey lo hi)
    · refine ⟨cached, by rw [hget]; rfl, Or.inr ?_⟩
      obtain ⟨a', b', m, -, hk, hm, hunion⟩ := h.merges hholds
      have hb' := hunion.2.1
      obtain ⟨rfl, rfl⟩ := nodePairKey_inj (by omega) (by omega) hk
      exact ⟨m, hm, hunion⟩
    · exact ⟨-1, by rw [hget]; rfl, Or.inl (by omega)⟩
  by_cases hlt : a < b
  · rw [if_pos hlt]
    exact hread a hb
  · rw [if_neg hlt]
    obtain ⟨cached, hget, hneg | ⟨m, hm, hunion⟩⟩ := hread b ha
    · exact ⟨cached, hget, Or.inl hneg⟩
    · exact ⟨cached, hget, Or.inr ⟨m, hm, hunion.symm⟩⟩

/-- Caching a merge keeps what holds. -/
theorem Valid.cache_merge (h : Valid arena) {a b m : Nat} (hunion : arena.IsUnion a b m)
    (hne : a ≠ b) :
    ∃ merges, searched (arena.mergeCache.set
        (if a < b then nodePairKey a b else nodePairKey b a) m) = .ok merges ∧
      Valid { arena with mergeCache := merges } ∧
      Extends arena { arena with mergeCache := merges } := by
  obtain ⟨merges, hset, hvalid, hholds⟩ := h.merges_valid.set_spec
    (if a < b then nodePairKey a b else nodePairKey b a) m
  obtain ⟨hint, hext⟩ : Interned { arena with mergeCache := merges } arena.edges.length ∧
      Extends arena { arena with mergeCache := merges } :=
    h.interned.with_edges rfl (Nat.le_refl _)
  refine ⟨merges, by rw [hset]; rfl, ⟨hint, h.graph, h.count_le, hvalid, ?_, h.covers_valid,
    h.covers⟩, hext⟩
  intro k v hv
  rcases (hholds k v).mp hv with ⟨rfl, rfl⟩ | ⟨-, hold⟩
  · by_cases hlt : a < b
    · exact ⟨a, b, m, hlt, by rw [if_pos hlt], rfl, hunion⟩
    · exact ⟨b, a, m, by omega, by rw [if_neg hlt], rfl, hunion.symm⟩
  · exact h.merges hold

theorem mergeWithin_spec {fuel a b : Nat} (h : Valid arena) (ha : a < arena.nodeCount)
    (hb : b < arena.nodeCount) (hfuel : a + b < fuel) :
    Answers (mergeWithin fuel arena a b) (MergedAs arena a b) := by
  induction fuel generalizing arena a b with
  | zero => omega
  | succ fuel ih =>
    rw [mergeWithin]
    by_cases hne : a = b
    · subst hne
      rw [if_pos rfl]
      exact Or.inr ⟨_, rfl, h, Extends.refl _, rfl, ha, ha, ha, fun s => (or_self_iff).symm⟩
    rw [if_neg hne]
    obtain ⟨cached, hget, hcached⟩ := h.merge_cached ha hb
    simp only []
    rw [bind_of_eq_ok hget]
    rcases hcached with hneg | ⟨m, rfl, hunion⟩
    swap
    · rw [if_pos (by omega)]
      exact Or.inr ⟨_, rfl, h, Extends.refl _, rfl, by simpa using hunion⟩
    rw [if_neg (by omega), bind_of_eq_ok (Interned.start_read ha),
      bind_of_eq_ok (h.interned.len_read ha), bind_of_eq_ok (Interned.start_read hb),
      bind_of_eq_ok (h.interned.len_read hb), ← h.interned.rows_length ha,
      ← h.interned.rows_length hb]
    -- the first pass
    refine (mergeParents_spec ha hb hne
      (fun arena p q hvalid hp hq hsum => ih hvalid hp hq (by omega)) h (Extends.refl _)
      (by omega)).bind ?_
    rintro parked ⟨hvalid, hext, ms, zs, hpending, hjoined⟩
    rw [drop_zero, drop_zero] at hjoined
    -- the second pass
    have happend : appendMerged (arena.nodeStart.getD a 0) (arena.nodeRows a).length
        (arena.nodeStart.getD b 0) (arena.nodeRows b).length
        ((arena.nodeRows a).length + (arena.nodeRows b).length + 1) parked 0 0
        arena.pending.length = .ok { parked with edges := parked.edges ++ zs } :=
      appendMerged_spec hjoined (hvalid.grown_read hext ha) (hvalid.grown_read hext hb)
        drop_zero drop_zero (by rw [hpending, drop_left]) (Nat.lt_succ_self _)
    rw [bind_of_eq_ok happend]
    have hdrop : (parked.edges ++ zs).drop parked.edges.length = zs := drop_left
    have hzs : zs ≠ [] := by
      intro hnil
      have hrows : arena.nodeRows a ≠ [] := by
        intro hempty
        exact h.graph.nonempty a ha (by rw [nodeEdges, hempty]; rfl)
      obtain ⟨x, hx⟩ := exists_mem_of_ne_nil _ hrows
      have hkeeps : Joined.Keeps parked.Stack (arena.nodeRows a) (arena.nodeRows b) zs :=
        hjoined.keeps fun p q m hunion => hunion.2.2.2
      obtain ⟨z, hz, -⟩ := hkeeps.left x hx
      rw [hnil] at hz
      cases hz
    obtain ⟨hbelow, hextAppend⟩ : ValidBelow { parked with
          edges := parked.edges ++ zs
          pending := (parked.pending).take arena.pending.length } parked.edges.length ∧
        Extends parked { parked with
          edges := parked.edges ++ zs
          pending := (parked.pending).take arena.pending.length } :=
      hvalid.with_edges (by rw [take_left, take_length]) (by simp)
    -- the rows are interned, and the merge is cached
    have hintern : Answers (({ parked with
        edges := parked.edges ++ zs
        pending := (parked.pending).take arena.pending.length } : CtxArena).internFrom
          parked.edges.length) fun result => InternedAs { parked with
            edges := parked.edges ++ zs
            pending := (parked.pending).take arena.pending.length }
          parked.edges.length result.1 result.2 := by
      have hlt : parked.edges.length < (parked.edges ++ zs).length := by
        have := length_pos_iff.mpr hzs
        rw [length_append]
        omega
      rcases hbelow.interned.internFrom_spec hlt with ⟨hfull, -⟩ | ⟨id, interned, hrun, has⟩
      · exact Or.inl hfull
      · exact Or.inr ⟨(id, interned), hrun, has⟩
    refine hintern.bind ?_
    rintro ⟨id, interned⟩ has
    simp only at has ⊢
    have hle := hext.count_le
    have hvalid' : Valid interned := by
      apply hbelow.internedAs has
      · rw [hdrop]
        exact hzs
      · rw [hdrop]
        exact hjoined.ascending (h.rows_ascending ha) (h.rows_ascending hb)
      · rw [hdrop]
        exact hjoined.parent_lt (fun p q m hunion => hunion.2.2.1)
          (fun x hx => Nat.lt_of_lt_of_le (h.parent_lt ha hx) hle)
          (fun y hy => Nat.lt_of_lt_of_le (h.parent_lt hb hy) hle)
    have hextAll : Extends parked interned := hextAppend.trans has.extends_
    have hextFirst : Extends arena interned := hext.trans hextAll
    have hleAll := hextFirst.count_le
    have hunion : interned.IsUnion a b id := by
      apply hvalid'.isUnion_of_joined (by omega) (by omega) has.id_lt
      · rw [hextFirst.rows_eq a ha, hextFirst.rows_eq b hb, has.rows_id, hdrop]
        exact hjoined.mono fun p q m hunion => hextAll.isUnion hvalid.graph hunion
    obtain ⟨merges, hset, hvalid'', hextCache⟩ := hvalid'.cache_merge hunion hne
    rw [bind_of_eq_ok hset]
    refine Or.inr ⟨_, rfl, hvalid'', hextFirst.trans hextCache, ?_,
      hextCache.isUnion hvalid'.graph hunion⟩
    show interned.pending = arena.pending
    rw [has.pending_eq, hpending]
    exact take_left

end CtxArena

end Wado.Gale
