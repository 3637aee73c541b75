/-
Inclusion and collapse, and what holds of every arena that the operations reach.
-/
import Wado.Gale.CtxUnion

namespace Wado.Gale

open ExceptSteps List

namespace CtxArena

variable {arena arena' arena'' : CtxArena} {top n : Nat}

/-- Every stack of node `q` is one of node `p`. -/
def Within (arena : CtxArena) (q p : Nat) : Prop :=
  ∀ s, arena.Stack q s → arena.Stack p s

theorem Extends.within_iff (h : Extends arena arena') (hvalid : Valid arena) {p q : Nat}
    (hp : p < arena.nodeCount) (hq : q < arena.nodeCount) :
    arena'.Within q p ↔ arena.Within q p := by
  simp only [Within, h.stack_iff hvalid.graph hp, h.stack_iff hvalid.graph hq]

/-- What `covers` answers. -/
def CoveredAs (arena : CtxArena) (outer inner : Nat) (result : Bool × CtxArena) : Prop :=
  Valid result.2 ∧ Extends arena result.2 ∧ (result.1 = true ↔ arena.Within inner outer)

variable {rows : List CtxEdge}

/-- Where the skip stops: past the rows below the key, at one that is not. -/
theorem skipBelow_spec {start y : Nat} {ey : CtxEdge}
    (hrows : ∀ i x, rows[i]? = some x → arena.edges[start + i]? = some x)
    (hy : arena.edges[y]? = some ey) {fuel i : Nat} (hfuel : rows.length - i < fuel) :
    ∃ i' skipped, arena.skipBelow start rows.length y fuel i = .ok i' ∧
      rows.drop i = skipped ++ rows.drop i' ∧ (∀ x ∈ skipped, x.key < ey.key) ∧
      ∀ x, rows[i']? = some x → ¬ x.key < ey.key := by
  induction fuel generalizing i with
  | zero => omega
  | succ fuel ih =>
    rw [skipBelow]
    by_cases hi : i < rows.length
    · have hx : rows[i]? = some rows[i] := List.getElem?_eq_getElem hi
      rw [if_pos hi]
      obtain ⟨c, hc, hcases⟩ := keyCmp_spec (hrows i _ hx) hy
      rw [bind_of_eq_ok hc]
      by_cases hneg : c < 0
      · rw [if_pos hneg]
        have hlt : rows[i].key < ey.key := by
          rcases hcases with ⟨-, hlt⟩ | ⟨hpos, -⟩ | ⟨hzero, -⟩
          · exact hlt
          · omega
          · omega
        obtain ⟨i', skipped, hrun, hdrop, hskipped, hstop⟩ := ih (i := i + 1) (by omega)
        refine ⟨i', rows[i] :: skipped, hrun, ?_, ?_, hstop⟩
        · rw [drop_eq_getElem_cons hi, hdrop, cons_append]
        · intro x hx
          rcases mem_cons.mp hx with rfl | hx
          · exact hlt
          · exact hskipped x hx
      · rw [if_neg hneg]
        refine ⟨i, [], rfl, rfl, by simp, fun x hx' hlt => ?_⟩
        rw [hx] at hx'
        cases hx'
        rcases hcases with ⟨hneg', -⟩ | ⟨-, hgt⟩ | ⟨-, heq⟩
        · exact hneg hneg'
        · exact absurd (hlt.trans hgt) (lt_irrefl _)
        · exact absurd heq (ne_of_lt hlt)
    · rw [if_neg hi]
      refine ⟨i, [], rfl, rfl, by simp, fun x hx => ?_⟩
      exact absurd (List.getElem?_eq_some_iff.mp hx).1 hi

/-- Whether each row of `ys` has its key in `xs`, with the stacks below it. -/
def RowsWithin (arena : CtxArena) (ys xs : List CtxEdge) : Prop :=
  ∀ y ∈ ys, ∃ x ∈ xs, x.key = y.key ∧ arena.Within y.parent x.parent

variable {outer inner : Nat}

theorem coverEdges_spec {covers : CtxArena → Nat → Nat → Except Stop (Bool × CtxArena)}
    {first : CtxArena} (hfirst : Valid first) (ho : outer < first.nodeCount)
    (hi : inner < first.nodeCount) (hne : outer ≠ inner)
    (hcovers : ∀ (arena : CtxArena) (p q : Nat), Valid arena → p < arena.nodeCount →
      q < arena.nodeCount → p + q < outer + inner → ∃ result, covers arena p q = .ok result ∧
        CoveredAs arena p q result)
    {arena : CtxArena} (h : Valid arena) (hext : Extends first arena) {fuel i j : Nat}
    (hfuel : (first.nodeRows inner).length - j < fuel) :
    ∃ result, coverEdges covers (first.nodeStart.getD outer 0) (first.nodeRows outer).length
        (first.nodeStart.getD inner 0) (first.nodeRows inner).length fuel arena i j = .ok result ∧
      Valid result.2 ∧ Extends arena result.2 ∧
      (result.1 = true ↔
        first.RowsWithin ((first.nodeRows inner).drop j) ((first.nodeRows outer).drop i)) := by
  induction fuel generalizing arena i j with
  | zero => omega
  | succ fuel ih =>
    rw [coverEdges]
    by_cases hj : j < (first.nodeRows inner).length
    swap
    · rw [if_neg hj, drop_eq_nil_iff.mpr (Nat.le_of_not_lt hj)]
      exact ⟨_, rfl, h, Extends.refl _, by simp [RowsWithin]⟩
    have hcount := hext.count_le
    have hy : (first.nodeRows inner)[j]? = some (first.nodeRows inner)[j] :=
      List.getElem?_eq_getElem hj
    have hreadY := h.grown_read hext hi j _ hy
    have hys := drop_eq_getElem_cons hj
    have hascX := hfirst.rows_ascending ho
    have hascY := hfirst.rows_ascending hi
    generalize (first.nodeRows inner)[j] = y at hy hreadY hys
    have hyIn : y ∈ first.nodeRows inner := mem_of_getElem? hy
    obtain ⟨i', skipped, hskip, hdrop, hskipped, hstop⟩ :=
      skipBelow_spec (h.grown_read hext ho) hreadY (i := i)
        (Nat.lt_succ_of_le (Nat.sub_le _ _))
    rw [if_pos hj, bind_of_eq_ok hskip]
    -- the key of `y` can only be at row `i'` of the outer node
    by_cases hi' : i' < (first.nodeRows outer).length
    swap
    · rw [if_pos (by omega)]
      refine ⟨_, rfl, h, Extends.refl _, ?_⟩
      rw [drop_eq_nil_iff.mpr (Nat.le_of_not_lt hi'), append_nil] at hdrop
      constructor
      · intro hfalse
        cases hfalse
      · intro hwithin
        rw [hys, hdrop] at hwithin
        obtain ⟨x, hx, hkey, -⟩ := hwithin y mem_cons_self
        exact absurd hkey (ne_of_lt (hskipped x hx))
    have hx : (first.nodeRows outer)[i']? = some (first.nodeRows outer)[i'] :=
      List.getElem?_eq_getElem hi'
    have hreadX := h.grown_read hext ho i' _ hx
    have hxs := drop_eq_getElem_cons hi'
    generalize (first.nodeRows outer)[i'] = x at hx hreadX hxs
    have hxIn : x ∈ first.nodeRows outer := mem_of_getElem? hx
    have hnotLess := hstop x hx
    have hascDrop : (x :: (first.nodeRows outer).drop (i' + 1)).Pairwise
        fun e e' => e.key < e'.key := by
      rw [← hxs]
      exact hascX.sublist (drop_sublist _ _)
    have hafter := (pairwise_cons.mp hascDrop).1
    have hmem : ∀ x' ∈ (first.nodeRows outer).drop i, x' ∈ skipped ∨ x' = x ∨
        x' ∈ (first.nodeRows outer).drop (i' + 1) := by
      intro x' hx'
      rwa [hdrop, hxs, mem_append, mem_cons] at hx'
    obtain ⟨c, hc, ⟨-, hlt⟩ | ⟨hpos, hgt⟩ | ⟨rfl, heq⟩⟩ := keyCmp_spec hreadX hreadY
    · exact absurd hlt hnotLess
    · -- the rows from `i'` on are all above
      rw [if_neg (by omega), bind_of_eq_ok hc, if_pos (by omega)]
      refine ⟨_, rfl, h, Extends.refl _, ?_⟩
      constructor
      · intro hfalse
        cases hfalse
      · intro hwithin
        rw [hys] at hwithin
        obtain ⟨x', hx', hkey, -⟩ := hwithin y mem_cons_self
        rcases hmem x' hx' with hx' | rfl | hx'
        · exact absurd hkey (ne_of_lt (hskipped x' hx'))
        · exact absurd hkey (ne_of_gt hgt)
        · exact absurd hkey (ne_of_gt (hgt.trans (hafter x' hx')))
    · have hxArena : x ∈ arena.nodeRows outer := by
        rw [hext.rows_eq outer ho]
        exact hxIn
      have hyArena : y ∈ arena.nodeRows inner := by
        rw [hext.rows_eq inner hi]
        exact hyIn
      obtain ⟨⟨below, arena₁⟩, hrun, hvalid, hext₁, hbelow⟩ := hcovers arena x.parent y.parent h
        (h.parent_lt (by omega) hxArena) (h.parent_lt (by omega) hyArena)
        (h.parents_sum (by omega) (by omega) hne hxArena hyArena)
      simp only at hvalid hext₁ hbelow
      rw [hext.within_iff hfirst (hfirst.parent_lt ho hxIn) (hfirst.parent_lt hi hyIn)] at hbelow
      rw [if_neg (by omega), bind_of_eq_ok hc, if_neg (by omega),
        bind_of_eq_ok (nth_of_getElem? hreadX), bind_of_eq_ok (nth_of_getElem? hreadY),
        bind_of_eq_ok hrun]
      simp only
      have honly : ∀ x' ∈ (first.nodeRows outer).drop i, x'.key = y.key → x' = x := by
        intro x' hx' hkey
        rcases hmem x' hx' with hx' | rfl | hx'
        · exact absurd hkey (ne_of_lt (hskipped x' hx'))
        · rfl
        · have hlt := hafter x' hx'
          rw [heq, ← hkey] at hlt
          exact absurd hlt (lt_irrefl _)
      cases below with
      | false =>
        refine ⟨_, rfl, hvalid, hext₁, ?_⟩
        constructor
        · intro hfalse
          cases hfalse
        · intro hwithin
          rw [hys] at hwithin
          obtain ⟨x', hx', hkey, hsub⟩ := hwithin y mem_cons_self
          rw [honly x' hx' hkey] at hsub
          exact hbelow.mpr hsub
      | true =>
        obtain ⟨result, hrest, hvalid', hext', hresult⟩ := ih hvalid (hext.trans hext₁)
          (i := i' + 1) (j := j + 1) (by omega)
        refine ⟨result, hrest, hvalid', hext₁.trans hext', hresult.trans ?_⟩
        rw [hys]
        constructor
        · intro hwithin y' hy'
          rcases mem_cons.mp hy' with rfl | hy'
          · refine ⟨x, ?_, heq, hbelow.mp rfl⟩
            rw [hdrop, hxs]
            simp
          · obtain ⟨x', hx', hx'y⟩ := hwithin y' hy'
            refine ⟨x', ?_, hx'y⟩
            rw [hdrop, hxs]
            exact mem_append_right _ (mem_cons_of_mem _ hx')
        · intro hwithin y' hy'
          obtain ⟨x', hx', hkey, hsub⟩ := hwithin y' (mem_cons_of_mem _ hy')
          refine ⟨x', ?_, hkey, hsub⟩
          have hascDropY : (y :: (first.nodeRows inner).drop (j + 1)).Pairwise
              fun e e' => e.key < e'.key := by
            rw [← hys]
            exact hascY.sublist (drop_sublist _ _)
          have hlt := (pairwise_cons.mp hascDropY).1 y' hy'
          rcases hmem x' hx' with hx' | rfl | hx'
          · exact absurd hkey (ne_of_lt ((hskipped x' hx').trans hlt))
          · rw [← hkey, heq] at hlt
            exact absurd hlt (lt_irrefl _)
          · exact hx'

/-- A node's stacks are another's exactly when its rows are. -/
theorem Valid.rowsWithin_iff (h : Valid arena) {p q : Nat} (hp : p < arena.nodeCount)
    (hq : q < arena.nodeCount) :
    arena.RowsWithin (arena.nodeRows q) (arena.nodeRows p) ↔ arena.Within q p := by
  rw [Within]
  refine Iff.trans ?_ (h.graph.subset_iff hq hp).symm
  constructor
  · intro hwithin e he
    obtain ⟨y, hy, rfl⟩ := mem_map.mp he
    obtain ⟨x, hx, hkey, hsub⟩ := hwithin y hy
    have hin : x.entry ∈ arena.nodeEdges p := mem_map_of_mem hx
    rw [CtxEdge.entry, hkey] at hin
    exact ⟨x.parent, hin, hsub⟩
  · intro hwithin y hy
    obtain ⟨parent, hin, hsub⟩ := hwithin y.entry (mem_map_of_mem hy)
    obtain ⟨x, hx, hentry⟩ := mem_map.mp hin
    have hkey : x.key = y.key := congrArg Prod.fst hentry
    have hparent : x.parent = parent := congrArg Prod.snd hentry
    exact ⟨x, hx, hkey, hparent ▸ hsub⟩

theorem coversWithin_spec {fuel outer inner : Nat} (h : Valid arena)
    (ho : outer < arena.nodeCount) (hi : inner < arena.nodeCount)
    (hfuel : outer + inner < fuel) :
    ∃ result, coversWithin fuel arena outer inner = .ok result ∧
      CoveredAs arena outer inner result := by
  induction fuel generalizing arena outer inner with
  | zero => omega
  | succ fuel ih =>
    rw [coversWithin]
    by_cases hne : outer = inner
    · subst hne
      rw [if_pos rfl]
      exact ⟨_, rfl, h, Extends.refl _, by simp [Within]⟩
    rw [if_neg hne]
    have hcount := h.count_le
    simp only []
    obtain ⟨cached, hget, hholds | ⟨rfl, -⟩⟩ :=
      h.covers_valid.get_spec (nodePairKey outer inner)
    · have hget' : searched (arena.coverCache.get (nodePairKey outer inner)) = .ok cached := by
        rw [hget]
        rfl
      obtain ⟨outer', inner', ho', hi', hk, hcases⟩ := h.covers hholds
      obtain ⟨rfl, rfl⟩ := nodePairKey_inj (by omega) (by omega) hk
      rw [bind_of_eq_ok hget']
      rcases hcases with ⟨rfl, hwithin⟩ | ⟨rfl, hnot⟩
      · rw [if_pos (by omega)]
        exact ⟨_, rfl, h, Extends.refl _, ⟨fun _ => hwithin, fun _ => rfl⟩⟩
      · rw [if_pos (by omega)]
        refine ⟨_, rfl, h, Extends.refl _, ⟨fun hfalse => ?_, fun hwithin => ?_⟩⟩
        · cases hfalse
        · exact absurd hwithin hnot
    · have hget' : searched (arena.coverCache.get (nodePairKey outer inner)) = .ok (-1) := by
        rw [hget]
        rfl
      rw [bind_of_eq_ok hget', if_neg (by omega), bind_of_eq_ok (Interned.start_read ho),
        bind_of_eq_ok (h.interned.len_read ho), bind_of_eq_ok (Interned.start_read hi),
        bind_of_eq_ok (h.interned.len_read hi), ← h.interned.rows_length ho,
        ← h.interned.rows_length hi]
      obtain ⟨⟨covered, arena₁⟩, hrun, hvalid, hext, hcovered⟩ := coverEdges_spec h ho hi hne
        (fun arena p q hvalid hp hq hsum => ih hvalid hp hq (by omega)) h (Extends.refl _)
        (i := 0) (j := 0) (Nat.lt_succ_of_le (Nat.sub_le _ _))
      simp only at hvalid hext hcovered
      rw [drop_zero, drop_zero, h.rowsWithin_iff ho hi] at hcovered
      obtain ⟨cache, hset, hcacheValid, hcacheHolds⟩ := hvalid.covers_valid.set_spec
        (nodePairKey outer inner) (if covered then 1 else 0)
      have hset' : searched (arena₁.coverCache.set (nodePairKey outer inner)
          (if covered then 1 else 0)) = .ok cache := by
        rw [hset]
        rfl
      rw [bind_of_eq_ok hrun]
      simp only
      rw [bind_of_eq_ok hset']
      obtain ⟨hint, hextCache⟩ : Interned { arena₁ with coverCache := cache } arena₁.edges.length ∧
            Extends arena₁ { arena₁ with coverCache := cache } :=
        hvalid.interned.with_edges rfl (Nat.le_refl _)
      have hle := hext.count_le
      refine ⟨_, rfl, ⟨hint, hvalid.graph, hvalid.count_le, hvalid.merges_valid, hvalid.merges,
        hcacheValid, ?_⟩, hext.trans hextCache, hcovered⟩
      intro k v hv
      rcases (hcacheHolds k v).mp hv with ⟨rfl, rfl⟩ | ⟨-, hold⟩
      · refine ⟨outer, inner, Nat.lt_of_lt_of_le ho hle, Nat.lt_of_lt_of_le hi hle, rfl, ?_⟩
        have hwithin : covered = true ↔ arena₁.Within inner outer :=
          hcovered.trans (hext.within_iff h ho hi).symm
        cases covered with
        | true => exact Or.inl ⟨rfl, hwithin.mp rfl⟩
        | false => exact Or.inr ⟨rfl, fun hsub => Bool.false_ne_true (hwithin.mpr hsub)⟩
      · exact hvalid.covers hold

/-! ## The arena's runs -/

/-- What pushing one edge answers. -/
theorem Valid.push_spec (h : Valid arena) (returnState restorePr : Int) {parent : Nat}
    (hparent : parent < arena.nodeCount) :
    arena.push returnState restorePr parent = .error .full ∧ nodePairStride ≤ arena.nodeCount ∨
      ∃ id arena', arena.push returnState restorePr parent = .ok (id, arena') ∧ Valid arena' ∧
        Extends arena arena' ∧ id < arena'.nodeCount ∧
        arena'.nodeRows id = [⟨returnState, restorePr, parent⟩] ∧
        (arena'.nodeCount = arena.nodeCount ∨ id = arena.nodeCount) := by
  obtain ⟨hbelow, hext⟩ : ValidBelow (arena.appendEdge ⟨returnState, restorePr, parent⟩)
      arena.edges.length ∧ Extends arena (arena.appendEdge ⟨returnState, restorePr, parent⟩) :=
    h.with_edges (by rw [take_left, take_length]) (by simp)
  have hdrop : (arena.appendEdge ⟨returnState, restorePr, parent⟩).edges.drop
      arena.edges.length = [⟨returnState, restorePr, parent⟩] := drop_left
  rcases hbelow.interned.internFrom_spec (by simp [appendEdge]) with
    hfull | ⟨id, interned, hrun, has⟩
  · exact Or.inl hfull
  · refine Or.inr ⟨id, interned, hrun, ?_, hext.trans has.extends_, has.id_lt, ?_, ?_⟩
    · apply hbelow.internedAs has
      · rw [hdrop]
        simp
      · rw [hdrop]
        exact pairwise_singleton _ _
      · rw [hdrop]
        intro e he
        rw [mem_singleton.mp he]
        exact hparent
    · rw [has.rows_id, hdrop]
    · rcases has.old_or_new with heq | ⟨-, hid, -⟩
      · exact Or.inl heq
      · exact Or.inr hid

theorem empty_interned : Interned empty 0 where
  top_le := Nat.le_refl 0
  len_length := rfl
  next_length := rfl
  within := by
    intro n hn
    cases hn
  head_valid := AtnKeyMap.new_valid
  head_lt := fun h => absurd h AtnKeyMap.new_not_holds
  next_lt := by
    intro n v h
    cases h
  chained := by
    intro n hn
    cases hn

/-- The arena's first node is the boundary. -/
theorem first_push : ∃ arena, empty.push boundary 0 ctxEmpty = .ok (0, arena) ∧ Valid arena ∧
    arena.nodeCount = 1 ∧ arena.nodeRows 0 = [⟨boundary, 0, 0⟩] := by
  obtain ⟨hint, -⟩ : Interned (empty.appendEdge ⟨boundary, 0, ctxEmpty⟩) 0 ∧
      Extends empty (empty.appendEdge ⟨boundary, 0, ctxEmpty⟩) :=
    empty_interned.with_edges rfl (Nat.zero_le _)
  rcases hint.internFrom_spec (by simp [appendEdge]) with ⟨-, hfull⟩ | ⟨id, arena, hrun, has⟩
  · exact absurd hfull (by decide)
  · have hid := has.id_lt
    have hcount : arena.nodeCount = 1 ∧ id = 0 := by
      rcases has.old_or_new with heq | ⟨heq, hnew, -⟩
      · have hnone : arena.nodeCount = 0 := heq
        omega
      · exact ⟨heq, hnew⟩
    obtain ⟨hcount, rfl⟩ := hcount
    have hrows : arena.nodeRows 0 = [⟨boundary, 0, 0⟩] := has.rows_id
    have hedges : arena.nodeEdges 0 = [(boundaryKey, 0)] := by
      rw [nodeEdges, hrows]
      rfl
    have hzero : ∀ {n : Nat}, n < arena.nodeCount → n = 0 := by
      intro n hn
      omega
    refine ⟨arena, hrun, ⟨has.interned, ⟨hedges, ?_, ?_, ?_, ?_⟩, ?_, ?_, ?_, ?_, ?_⟩, hcount,
      hrows⟩
    · intro n hn
      rw [hzero hn, hedges]
      simp
    · intro n hn e _
      exact Or.inr (hzero hn)
    · intro n hn
      rw [hzero hn, hedges]
      exact pairwise_singleton _ _
    · intro m hm n hn _
      rw [hzero hm, hzero hn]
    · rw [hcount]
      decide
    · rw [has.merges_eq]
      exact AtnKeyMap.new_valid
    · intro k v hv
      rw [has.merges_eq] at hv
      exact absurd hv AtnKeyMap.new_not_holds
    · rw [has.covers_eq]
      exact AtnKeyMap.new_valid
    · intro k v hv
      rw [has.covers_eq] at hv
      exact absurd hv AtnKeyMap.new_not_holds

/-- `new` does not fail its assertion. -/
theorem new_spec : ∃ arena, new = .ok arena ∧ Valid arena := by
  obtain ⟨first, hfirst, hvalid, hcount, hrows⟩ := first_push
  rcases hvalid.push_spec unknownReturn 0
      (show ctxEmpty < first.nodeCount by rw [hcount]; decide) with
    ⟨-, hfull⟩ | ⟨id, arena, hsecond, hvalid', hext, hid, hrowsId, hold⟩
  · rw [hcount] at hfull
    exact absurd hfull (by decide)
  · have hid' : id = ctxUnknown := by
      rcases hold with heq | heq
      · -- the first node has other rows
        have hzero : id = 0 := by omega
        rw [hzero, hext.rows_eq 0 (by omega), hrows] at hrowsId
        exact absurd hrowsId (by decide)
      · rw [heq, hcount]
        rfl
    refine ⟨arena, ?_, hvalid'⟩
    rw [new, bind_of_eq_ok hfirst]
    simp only
    rw [bind_of_eq_ok hsecond]
    simp only
    rw [if_pos ⟨rfl, hid'⟩]
    rfl

variable {work work' : List AtnConfig}

variable {sim : AtnSim} {cur : AtnConfig}

/-- The rows that a collapse keeps are some of the node's, in their order. -/
theorem collapseEdges_spec {e : Nat}
    (hrows : ∀ i x, rows[i]? = some x → arena.edges[e + i]? = some x)
    (hrun : collapseEdges sim cur rows.length e arena work = .ok (arena', work')) :
    ∃ kept, kept.Sublist rows ∧ arena' = { arena with edges := arena.edges ++ kept } := by
  induction rows generalizing arena e work with
  | nil =>
    cases hrun
    exact ⟨[], List.Sublist.refl _, by rw [append_nil]⟩
  | cons x rows ih =>
    rw [length_cons, collapseEdges] at hrun
    obtain ⟨collapses, -, hrun⟩ := bind_eq_ok.mp hrun
    have hx : arena.edges[e]? = some x := hrows 0 x rfl
    rw [bind_of_eq_ok (nth_of_getElem? hx)] at hrun
    have htail : ∀ i z, rows[i]? = some z → arena.edges[e + 1 + i]? = some z := by
      intro i z hz
      have := hrows (i + 1) z hz
      rwa [show e + (i + 1) = e + 1 + i by omega] at this
    cases collapses with
    | true =>
      obtain ⟨kept, hsub, heq⟩ := ih htail hrun
      exact ⟨kept, hsub.cons x, heq⟩
    | false =>
      have hread : ∀ i z, rows[i]? = some z → (arena.appendEdge x).edges[e + 1 + i]? = some z :=
        fun i z hz => appended_read htail hz
      obtain ⟨kept, hsub, heq⟩ := ih hread hrun
      refine ⟨x :: kept, hsub.cons_cons x, heq.trans ?_⟩
      simp [appendEdge]

/-- A collapse keeps what holds. -/
theorem Valid.collapse (h : Valid arena)
    (hcur : cur.pctx < arena.nodeCount) {hiddenAlts hiddenAlts' : List Int} {id : Int}
    (hrun : collapseIntoCallerLoop sim arena cur work hiddenAlts =
      .ok (id, arena', work', hiddenAlts')) : Valid arena' ∧ Extends arena arena' := by
  have hsame : Valid arena ∧ Extends arena arena := ⟨h, Extends.refl _⟩
  rw [collapseIntoCallerLoop] at hrun
  split at hrun
  · cases hrun
    exact hsame
  obtain ⟨target, -, hrun⟩ := bind_eq_ok.mp hrun
  split at hrun
  · cases hrun
    exact hsame
  rw [bind_of_eq_ok (Interned.start_read hcur), bind_of_eq_ok (h.interned.len_read hcur),
    ← h.interned.rows_length hcur] at hrun
  obtain ⟨⟨collapses, hidden⟩, -, hrun⟩ := bind_eq_ok.mp hrun
  simp only at hrun
  split at hrun
  · cases hrun
    exact hsame
  obtain ⟨⟨appended, work₁⟩, hcollapse, hrun⟩ := bind_eq_ok.mp hrun
  obtain ⟨kept, hsub, rfl⟩ := collapseEdges_spec (h.grown_read (Extends.refl _) hcur) hcollapse
  obtain ⟨hbelow, hext⟩ : ValidBelow { arena with edges := arena.edges ++ kept }
      arena.edges.length ∧ Extends arena { arena with edges := arena.edges ++ kept } :=
    h.with_edges (by rw [take_left, take_length]) (by simp)
  simp only at hrun
  split at hrun
  · rename_i hlength
    cases hrun
    have hnil : kept = [] := by
      rw [length_append] at hlength
      exact length_eq_zero_iff.mp (by omega)
    subst hnil
    rw [append_nil]
    exact hsame
  · rename_i hlength
    obtain ⟨⟨id', interned⟩, hintern, hrun⟩ := bind_eq_ok.mp hrun
    cases hrun
    have hdrop : (arena.edges ++ kept).drop arena.edges.length = kept := drop_left
    rcases hbelow.interned.internFrom_spec
        (Nat.lt_of_le_of_ne hbelow.interned.top_le (Ne.symm hlength)) with
      ⟨hfull, -⟩ | ⟨id'', interned', hrun', has⟩
    · rw [hfull] at hintern
      cases hintern
    · rw [hrun'] at hintern
      cases hintern
      refine ⟨hbelow.internedAs has ?_ ?_ ?_, hext.trans has.extends_⟩
      · rw [hdrop]
        rintro rfl
        exact hlength (by simp)
      · rw [hdrop]
        exact (h.rows_ascending hcur).sublist hsub
      · rw [hdrop]
        exact fun e he => h.parent_lt hcur (hsub.subset he)

/-- The arenas that the operations reach from `new`, each called with nodes of the arena. -/
inductive Reached : CtxArena → Prop
  | new {arena : CtxArena} (hrun : CtxArena.new = .ok arena) : Reached arena
  | push {arena arena' : CtxArena} {returnState restorePr : Int} {parent id : Nat}
      (h : Reached arena) (hparent : parent < arena.nodeCount)
      (hrun : arena.push returnState restorePr parent = .ok (id, arena')) : Reached arena'
  | merge {arena arena' : CtxArena} {a b id : Nat} (h : Reached arena) (ha : a < arena.nodeCount)
      (hb : b < arena.nodeCount) (hrun : arena.merge a b = .ok (id, arena')) : Reached arena'
  | covers {arena arena' : CtxArena} {outer inner : Nat} {covered : Bool} (h : Reached arena)
      (ho : outer < arena.nodeCount) (hi : inner < arena.nodeCount)
      (hrun : arena.covers outer inner = .ok (covered, arena')) : Reached arena'
  | collapse {arena arena' : CtxArena} {sim : AtnSim} {cur : AtnConfig}
      {work work' : List AtnConfig} {hiddenAlts hiddenAlts' : List Int} {id : Int}
      (h : Reached arena) (hcur : cur.pctx < arena.nodeCount)
      (hrun : collapseIntoCallerLoop sim arena cur work hiddenAlts =
        .ok (id, arena', work', hiddenAlts')) : Reached arena'

theorem Valid.merge_spec (h : Valid arena) {a b : Nat} (ha : a < arena.nodeCount)
    (hb : b < arena.nodeCount) : Answers (arena.merge a b) (MergedAs arena a b) :=
  mergeWithin_spec h ha hb (Nat.lt_succ_self _)

theorem Valid.merge_run (h : Valid arena) {a b id : Nat} (ha : a < arena.nodeCount)
    (hb : b < arena.nodeCount) (hrun : arena.merge a b = .ok (id, arena')) :
    Valid arena' ∧ Extends arena arena' ∧ arena'.IsUnion a b id := by
  rcases h.merge_spec ha hb with hfull | ⟨⟨id', interned⟩, hrun', hvalid, hext, -, hunion⟩
  · rw [hfull] at hrun
    cases hrun
  · rw [hrun'] at hrun
    cases hrun
    exact ⟨hvalid, hext, hunion⟩

theorem Valid.covers_spec (h : Valid arena) (ho : outer < arena.nodeCount)
    (hi : inner < arena.nodeCount) : ∃ result, arena.covers outer inner = .ok result ∧
      CoveredAs arena outer inner result :=
  coversWithin_spec h ho hi (Nat.lt_succ_self _)

theorem Reached.valid (h : Reached arena) : Valid arena := by
  induction h with
  | new hrun =>
    obtain ⟨arena, hrun', hvalid⟩ := new_spec
    rw [hrun'] at hrun
    cases hrun
    exact hvalid
  | push _ hparent hrun ih =>
    rcases ih.push_spec _ _ hparent with ⟨hfull, -⟩ | ⟨id, arena, hrun', hvalid, -⟩
    · rw [hfull] at hrun
      cases hrun
    · rw [hrun'] at hrun
      cases hrun
      exact hvalid
  | merge _ ha hb hrun ih => exact (ih.merge_run ha hb hrun).1
  | covers _ ho hi hrun ih =>
    obtain ⟨result, hrun', hvalid, -⟩ := ih.covers_spec ho hi
    rw [hrun'] at hrun
    cases hrun
    exact hvalid
  | collapse _ hcur hrun ih => exact (ih.collapse hcur hrun).1

end CtxArena

end Wado.Gale
