/-
A run of visits is exact where every answer it takes from the memo is carried,
and every run ends.
-/
import Mathlib.Data.Fintype.Card
import Wado.GraphVisit

namespace Wado

open LeafGraph List Option Function

variable {κ : Type} {graph : κ → Node κ} {owner owner' : Nat → κ}

namespace CutWalk

/-- The walk's records are true, and its open nodes own the open serials. -/
structure Sound (graph : κ → Node κ) (owner : Nat → κ) (walk : CutWalk κ) : Prop where
  tells : walk.memo.Tells graph owner
  keys_eq : walk.openKeys = walk.memo.openSerials.map owner
  nodup : walk.openKeys.Nodup

/-- What a visit leaves as it was: the open nodes, and the cuts made so far. -/
structure Extends (owner owner' : Nat → κ) (walk walk' : CutWalk κ) : Prop where
  owner_eq : ∀ s < walk.memo.nextSerial, owner' s = owner s
  next_le : walk.memo.nextSerial ≤ walk'.memo.nextSerial
  keys_eq : walk'.openKeys = walk.openKeys
  serials_eq : walk'.memo.openSerials = walk.memo.openSerials
  cutAnswer_eq : walk'.memo.cutAnswer = walk.memo.cutAnswer
  unkept_eq : walk'.unkept = walk.unkept
  cuts_sub : ∀ cut ∈ walk.memo.cuts, cut ∈ walk'.memo.cuts

theorem Extends.refl (owner : Nat → κ) (walk : CutWalk κ) : Extends owner owner walk walk :=
  ⟨fun _ _ => rfl, Nat.le_refl _, rfl, rfl, rfl, rfl, fun _ h => h⟩

theorem Extends.trans {owner'' : Nat → κ} {walk walk' walk'' : CutWalk κ}
    (h : Extends owner owner' walk walk') (h' : Extends owner' owner'' walk' walk'') :
    Extends owner owner'' walk walk'' where
  owner_eq := fun s hs =>
    (h'.owner_eq s (Nat.lt_of_lt_of_le hs h.next_le)).trans (h.owner_eq s hs)
  next_le := Nat.le_trans h.next_le h'.next_le
  keys_eq := h'.keys_eq.trans h.keys_eq
  serials_eq := h'.serials_eq.trans h.serials_eq
  cutAnswer_eq := h'.cutAnswer_eq.trans h.cutAnswer_eq
  unkept_eq := h'.unkept_eq.trans h.unkept_eq
  cuts_sub := fun cut hcut => h'.cuts_sub cut (h.cuts_sub cut hcut)

/-- What an answer given in the walk may rest on: the owners of its cuts, and
the innermost open node. -/
def avoided (owner : Nat → κ) (walk : CutWalk κ) : Set κ :=
  { y | y ∈ owners owner walk.memo.cuts ∨ walk.openKeys.getLast? = some y }

theorem Extends.avoided_sub {walk walk' : CutWalk κ} (h : Extends owner owner' walk walk')
    (hsound : Sound graph owner walk) : avoided owner walk ⊆ avoided owner' walk' := by
  rintro y (⟨cut, hcut, rfl⟩ | hlast)
  · exact Or.inl ⟨cut, h.cuts_sub cut hcut, h.owner_eq _ (hsound.tells.cut_lt hcut)⟩
  · exact Or.inr (by rw [h.keys_eq, hlast])

/-- What a visit of `n` ends with, when every answer it took was carried. -/
structure Visits (graph : κ → Node κ) (owner : Nat → κ) (walk : CutWalk κ) (n : κ)
    (answer : Bool) (walk' : CutWalk κ) (owner' : Nat → κ) : Prop where
  sound : Sound graph owner' walk'
  extension : Extends owner owner' walk walk'
  stays : answer = walk.memo.cutAnswer →
    ¬ Escapes graph (!walk.memo.cutAnswer) (avoided owner' walk') n
  reaches : answer ≠ walk.memo.cutAnswer → Reaches graph (!walk.memo.cutAnswer) n

variable [DecidableEq κ]

/-- A way of visiting that is right where it is carried. -/
def Right (graph : κ → Node κ) (visit : κ → CutWalk κ → Option (Visited × CutWalk κ))
    (carried : κ → CutWalk κ → Bool) : Prop :=
  ∀ {owner : Nat → κ} {walk walk' : CutWalk κ} {n : κ} {visited : Visited},
    Sound graph owner walk → carried n walk = true → visit n walk = some (visited, walk') →
      ∃ owner', Visits graph owner walk n visited.answer walk' owner'

omit [DecidableEq κ] in
/-- The successors of a node: each stays, or one reaches. -/
theorem walkSuccs_right {visit : κ → CutWalk κ → Option (Visited × CutWalk κ)}
    {carried : κ → CutWalk κ → Bool} (hvisit : Right graph visit carried)
    {succs : List κ} {walk walk' : CutWalk κ} {answer : Bool}
    (hsound : Sound graph owner walk) (hcarried : carriedSuccs visit carried succs walk = true)
    (hwalk : walkSuccs visit succs walk = some (answer, walk')) :
    ∃ owner', Sound graph owner' walk' ∧ Extends owner owner' walk walk' ∧
      (answer = walk.memo.cutAnswer → ∀ m ∈ succs,
        ¬ Escapes graph (!walk.memo.cutAnswer) (avoided owner' walk') m) ∧
      (answer ≠ walk.memo.cutAnswer → ∃ m ∈ succs, Reaches graph (!walk.memo.cutAnswer) m) := by
  induction succs generalizing walk owner with
  | nil =>
    cases hwalk
    exact ⟨owner, hsound, Extends.refl owner _, by simp, fun h => absurd rfl h⟩
  | cons m succs ih =>
    obtain ⟨⟨visited, mid⟩, hmid, hrest⟩ := bind_eq_some_iff.mp hwalk
    simp only [carriedSuccs, Bool.and_eq_true, hmid] at hcarried
    obtain ⟨owner₁, hfirst⟩ := hvisit hsound hcarried.1 hmid
    have hanswer := hfirst.extension.cutAnswer_eq
    dsimp only [] at hrest
    by_cases hcut : visited.answer = mid.memo.cutAnswer
    · rw [if_pos hcut] at hrest
      obtain ⟨owner₂, hsound₂, hextends, hstays, hreaches⟩ :=
        ih hfirst.sound (by simpa [hcut] using hcarried.2) hrest
      rw [hanswer] at hstays hreaches
      refine ⟨owner₂, hsound₂, hfirst.extension.trans hextends, ?_, ?_⟩
      · intro heq m' hm'
        rcases mem_cons.mp hm' with rfl | hm'
        · intro hesc
          exact hfirst.stays (hcut.trans hanswer)
            (hesc.mono (hextends.avoided_sub hfirst.sound))
        · exact hstays heq m' hm'
      · intro hne
        obtain ⟨m', hm', hreach⟩ := hreaches hne
        exact ⟨m', mem_cons_of_mem _ hm', hreach⟩
    · rw [if_neg hcut] at hrest
      cases hrest
      rw [hanswer] at hcut
      exact ⟨owner₁, hfirst.sound, hfirst.extension, fun heq => absurd heq hcut,
        fun hne => ⟨m, mem_cons_self, hfirst.reaches hne⟩⟩

omit [DecidableEq κ] in
/-- A node's own walk, with `n` the innermost open node. -/
theorem walkNode_right {visit : κ → CutWalk κ → Option (Visited × CutWalk κ)}
    {carried : κ → CutWalk κ → Bool} (hvisit : Right graph visit carried) {n : κ}
    {walk walk' : CutWalk κ} {answer : Bool} (hsound : Sound graph owner walk)
    (hcarried : ∀ succs, graph n = .inner succs → carriedSuccs visit carried succs walk = true)
    (hwalk : walkNode graph visit n walk = some (answer, walk')) :
    ∃ owner', Sound graph owner' walk' ∧ Extends owner owner' walk walk' ∧
      (answer = walk.memo.cutAnswer → ∀ avoid, avoided owner' walk' ⊆ insert n avoid →
        ¬ Escapes graph (!walk.memo.cutAnswer) avoid n) ∧
      (answer ≠ walk.memo.cutAnswer → Reaches graph (!walk.memo.cutAnswer) n) := by
  unfold walkNode at hwalk
  cases hnode : graph n with
  | leaf label =>
    rw [hnode] at hwalk
    cases hwalk
    refine ⟨owner, hsound, Extends.refl owner _, ?_, ?_⟩
    · rintro rfl avoid - hesc
      cases hesc with
      | leaf _ hleaf =>
        rw [hnode] at hleaf
        cases hbool : walk.memo.cutAnswer <;> simp [hbool] at hleaf
      | inner _ hinner _ _ =>
        rw [hnode] at hinner
        cases hinner
    · intro hne
      refine .leaf (Set.notMem_empty n) ?_
      rw [hnode, Bool.eq_not_of_ne hne]
  | inner succs =>
    rw [hnode] at hwalk
    obtain ⟨owner', hsound', hextends, hstays, hreaches⟩ :=
      walkSuccs_right hvisit hsound (hcarried succs hnode) hwalk
    refine ⟨owner', hsound', hextends, ?_, ?_⟩
    · intro heq avoid hsub
      apply not_escapes_of_succs hnode
      intro m hm hesc
      exact hstays heq m hm (hesc.mono hsub)
    · intro hne
      obtain ⟨m, hm, hreach⟩ := hreaches hne
      exact .inner (Set.notMem_empty n) hnode hm hreach

variable {walk : CutWalk κ}

/-- An answer taken from the memo, when it is carried. -/
theorem get_right {n : κ} {answer : Bool} (hsound : Sound graph owner walk)
    (hget : walk.memo.get n = some answer) (hcarried : walk.memo.carries n = true) :
    Visits graph owner walk n answer walk owner := by
  unfold CutMemo.get at hget
  unfold CutMemo.carries at hcarried
  cases hkept : walk.memo.answers n with
  | none =>
    rw [hkept] at hget
    cases hget
  | some kept =>
    rw [hkept] at hget hcarried
    dsimp only [] at hget hcarried
    split at hget
    · rename_i hholds
      cases hget
      refine ⟨hsound, Extends.refl owner walk, ?_, hsound.tells.answer_reaches hkept⟩
      intro hcut
      have hrests := all_eq_true.mp hcarried
      apply not_escapes_of_stays _ (hsound.tells.answer_stays hkept hcut)
      rintro z ⟨rest, hrest, rfl⟩
      apply hsound.tells.stays_of_stillHolds hholds _ rest hrest
      rintro y ⟨rest', hrest', rfl⟩
      have hopen := CutMemo.mem_restsOpen hrest'
      have hwhich : rest'.1 + 1 = walk.memo.depth ∨ rest' ∈ walk.memo.cuts := by
        simpa using hrests rest' hrest'
      rcases hwhich with hlast | hcut'
      · refine Or.inr ?_
        rw [hsound.keys_eq, List.getLast?_eq_getElem?, List.getElem?_map, length_map]
        unfold CutMemo.depth at hlast
        rw [show walk.memo.openSerials.length - 1 = rest'.1 by omega, hopen]
        rfl
      · exact Or.inl ⟨rest', hcut', rfl⟩
    · cases hget

omit [DecidableEq κ] in
theorem Sound.entered (h : Sound graph owner walk) {n : κ} (hn : n ∉ walk.openKeys) :
    Sound graph (Function.update owner walk.memo.nextSerial n) (walk.entered n) where
  tells := (h.tells.congr fun s hs => update_of_ne (Nat.ne_of_lt hs) _ _).entered
  keys_eq := by
    show walk.openKeys ++ [n] = (walk.memo.openSerials ++ [walk.memo.nextSerial]).map _
    rw [map_append, map_singleton, update_self, h.keys_eq]
    congr 1
    apply map_congr_left
    intro s hs
    exact (update_of_ne (Nat.ne_of_lt (h.tells.serial_lt s hs)) _ _).symm
  nodup := by
    show (walk.openKeys ++ [n]).Nodup
    rw [nodup_append]
    refine ⟨h.nodup, nodup_singleton n, ?_⟩
    intro key hkey key' hkey' heq
    rw [mem_singleton.mp hkey'] at heq
    exact hn (heq ▸ hkey)

/-- A cut at an open node. -/
theorem cut_right {n : κ} {i : Nat} (hsound : Sound graph owner walk)
    (hi : walk.openKeys.idxOf? n = some i) :
    Visits graph owner walk n (walk.memo.cut i).1 { walk with memo := (walk.memo.cut i).2 }
      owner := by
  obtain ⟨hlt, hkey, -⟩ := List.idxOf?_eq_some_iff.mp hi
  have hlt' : i < walk.memo.openSerials.length := by
    rw [hsound.keys_eq, length_map] at hlt
    exact hlt
  have howner : owner walk.memo.openSerials[i] = n := by
    have hget : walk.openKeys[i]? = some n := by
      rw [List.getElem?_eq_getElem hlt, hkey]
    rw [hsound.keys_eq, List.getElem?_map, List.getElem?_eq_getElem hlt'] at hget
    exact Option.some.inj hget
  obtain ⟨cuts, hcut, hmem⟩ :=
    CutMemo.cut_eq hsound.tells.cuts_open (List.getElem?_eq_getElem hlt')
  rw [hcut]
  refine ⟨⟨?_, hsound.keys_eq, hsound.nodup⟩, ⟨fun _ _ => rfl, Nat.le_refl _, rfl, rfl, rfl, rfl,
    fun cut hin => (hmem cut).mpr (Or.inr hin)⟩, ?_, fun hne => absurd rfl hne⟩
  · refine { hsound.tells with cuts_open := ?_ }
    intro cut hin
    rcases (hmem cut).mp hin with rfl | hin
    · exact List.getElem?_eq_getElem hlt'
    · exact hsound.tells.cuts_open cut hin
  · intro _ hesc
    exact hesc.not_mem (Or.inl ⟨_, (hmem _).mpr (Or.inl rfl), howner⟩)

/-- A visit that finds no answer and no open node walks the node and closes it. -/
theorem walk_right {visit : κ → CutWalk κ → Option (Visited × CutWalk κ)}
    {carried : κ → CutWalk κ → Bool} (hvisit : Right graph visit carried) {n : κ}
    {walk walk' : CutWalk κ} {visited : Visited} (hsound : Sound graph owner walk)
    (hget : walk.memo.get n = none) (hn : walk.openKeys.idxOf? n = none)
    (hcarried : ∀ succs, graph n = .inner succs →
      carriedSuccs visit carried succs (walk.entered n) = true)
    (hrun : CutWalk.visit (walkNode graph visit n) n walk = some (visited, walk')) :
    ∃ owner', Visits graph owner walk n visited.answer walk' owner' := by
  have hout : n ∉ walk.openKeys := List.idxOf?_eq_none_iff.mp hn
  simp only [CutWalk.visit, hget, hn] at hrun
  obtain ⟨⟨answer, inner⟩, hinner, hrun⟩ := bind_eq_some_iff.mp hrun
  obtain ⟨owner', hsound', hextends, hstays, hreaches⟩ :=
    walkNode_right hvisit (hsound.entered hout) hcarried hinner
  have howner : owner' walk.memo.nextSerial = n :=
    (hextends.owner_eq _ (Nat.lt_succ_self _)).trans (update_self _ _ _)
  have hopen : inner.memo.openSerials = walk.memo.openSerials ++ [walk.memo.nextSerial] :=
    hextends.serials_eq
  have hcutAnswer : inner.memo.cutAnswer = walk.memo.cutAnswer := hextends.cutAnswer_eq
  have hkeys : inner.openKeys = walk.openKeys ++ [n] := hextends.keys_eq
  have hunkept : inner.unkept = walk.unkept := hextends.unkept_eq
  have hnext : walk.memo.nextSerial + 1 ≤ inner.memo.nextSerial := hextends.next_le
  -- The node's own cuts are below it, or are the node itself.
  have hbelow : avoided owner' inner ⊆ insert n (owners owner'
      (inner.memo.cuts.filter fun cut => cut.1 < walk.memo.openSerials.length)) := by
    rintro y (⟨cut, hcut, rfl⟩ | hlast)
    · by_cases hlt : cut.1 < walk.memo.openSerials.length
      · exact Or.inr ⟨cut, mem_filter.mpr ⟨hcut, by simpa using hlt⟩, rfl⟩
      · have hserial := hsound'.tells.cuts_open cut hcut
        rw [hopen, List.getElem?_append_right (by omega)] at hserial
        have := mem_singleton.mp (mem_of_getElem? hserial)
        exact Or.inl (by rw [this, howner])
    · rw [hkeys, List.getLast?_concat] at hlast
      exact Or.inl (Option.some.inj hlast).symm
  have hstays' : answer = walk.memo.cutAnswer → ¬ Escapes graph (!walk.memo.cutAnswer)
      (owners owner'
        (inner.memo.cuts.filter fun cut => cut.1 < walk.memo.openSerials.length)) n :=
    fun heq => hstays heq _ hbelow
  obtain ⟨settled, memo', hend, htells, hserials, hanswer, hnext', hcuts⟩ :=
    hsound'.tells.left hopen hsound.tells.cuts_open
      (by rw [hcutAnswer, howner]; exact hstays') (by rw [hcutAnswer, howner]; exact hreaches)
  have hrun' : (⟨answer, settled⟩, { inner with
      openKeys := inner.openKeys.dropLast, memo := memo' }) = (visited, walk') := by
    rw [howner] at hend
    simp only [hunkept, if_true] at hrun
    rw [show walk.memo.depth = walk.memo.openSerials.length from rfl,
      show walk.memo.begin.1 = walk.memo.cuts from rfl, hend] at hrun
    rw [hunkept]
    exact Option.some.inj hrun
  cases hrun'
  refine ⟨owner', ⟨htells, ?_, ?_⟩, ⟨?_, le_of_le_of_eq (by omega) hnext'.symm, ?_, hserials,
    hanswer.trans hcutAnswer,
    hunkept, fun cut hcut => (hcuts cut).mpr (Or.inl hcut)⟩, ?_, hreaches⟩
  · rw [hserials, hkeys, dropLast_concat, hsound.keys_eq]
    apply map_congr_left
    intro s hs
    have hlt := hsound.tells.serial_lt s hs
    rw [hextends.owner_eq s (Nat.lt_succ_of_lt hlt), update_of_ne (Nat.ne_of_lt hlt)]
  · rw [hkeys, dropLast_concat]
    exact hsound.nodup
  · intro s hs
    rw [hextends.owner_eq s (Nat.lt_succ_of_lt hs), update_of_ne (Nat.ne_of_lt hs)]
  · rw [hkeys, dropLast_concat]
  · intro heq hesc
    refine hstays' heq (hesc.mono ?_)
    rintro y ⟨cut, hcut, rfl⟩
    exact Or.inl ⟨cut, (hcuts cut).mpr (Or.inr hcut), rfl⟩

/-- Visits are right where every answer they take from the memo is carried. -/
theorem visitNode_right (graph : κ → Node κ) (fuel : Nat) :
    Right graph (visitNode graph fuel) (carriedNode graph fuel) := by
  induction fuel with
  | zero =>
    intro owner walk walk' n visited _ _ hrun
    cases hrun
  | succ fuel ih =>
    intro owner walk walk' n visited hsound hcarried hrun
    unfold carriedNode at hcarried
    unfold visitNode at hrun
    cases hget : walk.memo.get n with
    | some answer =>
      simp only [hget, isSome_some, if_true] at hcarried
      simp only [visit, hget, Option.some.injEq, Prod.mk.injEq] at hrun
      obtain ⟨rfl, rfl⟩ := hrun
      exact ⟨owner, get_right hsound hget hcarried⟩
    | none =>
      simp only [hget, isSome_none, Bool.false_eq_true, if_false] at hcarried
      cases hi : walk.openKeys.idxOf? n with
      | some i =>
        simp only [visit, hget, hi, Option.some.injEq, Prod.mk.injEq] at hrun
        obtain ⟨rfl, rfl⟩ := hrun
        exact ⟨owner, cut_right hsound hi⟩
      | none =>
        have hn : n ∉ walk.openKeys := List.idxOf?_eq_none_iff.mp hi
        rw [if_neg hn] at hcarried
        apply walk_right ih hsound hget hi _ hrun
        intro succs hnode
        rw [hnode] at hcarried
        exact hcarried

omit [DecidableEq κ] in
/-- The walk of a list of successors ends where each visit does. -/
theorem walkSuccs_ends {visit : κ → CutWalk κ → Option (Visited × CutWalk κ)}
    {openKeys : List κ}
    (hvisit : ∀ n (walk : CutWalk κ), walk.openKeys = openKeys →
      ∃ visited walk', visit n walk = some (visited, walk') ∧ walk'.openKeys = openKeys)
    (succs : List κ) {walk : CutWalk κ} (hkeys : walk.openKeys = openKeys) :
    ∃ answer walk', walkSuccs visit succs walk = some (answer, walk') ∧
      walk'.openKeys = openKeys := by
  induction succs generalizing walk with
  | nil => exact ⟨_, walk, rfl, hkeys⟩
  | cons m succs ih =>
    obtain ⟨visited, mid, hmid, hkeys'⟩ := hvisit m walk hkeys
    unfold walkSuccs
    rw [hmid, bind_eq_bind, bind_some]
    dsimp only []
    by_cases hcut : visited.answer = mid.memo.cutAnswer
    · rw [if_pos hcut]
      exact ih hkeys'
    · rw [if_neg hcut]
      exact ⟨_, _, rfl, hkeys'⟩

/-- A visit ends: each node it opens is a new one. -/
theorem visitNode_ends [Fintype κ] (graph : κ → Node κ) (fuel : Nat) (n : κ)
    (walk : CutWalk κ) (hnodup : walk.openKeys.Nodup)
    (hfuel : Fintype.card κ < fuel + walk.openKeys.length) :
    ∃ visited walk', visitNode graph fuel n walk = some (visited, walk') ∧
      walk'.openKeys = walk.openKeys := by
  induction fuel generalizing n walk with
  | zero =>
    have := hnodup.length_le_card
    omega
  | succ fuel ih =>
    unfold visitNode
    cases hget : walk.memo.get n with
    | some answer => exact ⟨⟨answer, false⟩, walk, by simp [visit, hget], rfl⟩
    | none =>
      cases hi : walk.openKeys.idxOf? n with
      | some i => exact ⟨⟨(walk.memo.cut i).1, false⟩, { walk with memo := (walk.memo.cut i).2 },
          by simp [visit, hget, hi], rfl⟩
      | none =>
        have hn : n ∉ walk.openKeys := List.idxOf?_eq_none_iff.mp hi
        have hnodup' : (walk.openKeys ++ [n]).Nodup := by
          rw [nodup_append]
          refine ⟨hnodup, nodup_singleton n, ?_⟩
          intro key hkey key' hkey' heq
          rw [mem_singleton.mp hkey'] at heq
          exact hn (heq ▸ hkey)
        have hvisit : ∀ m (walk' : CutWalk κ), walk'.openKeys = walk.openKeys ++ [n] →
            ∃ visited walk'', visitNode graph fuel m walk' = some (visited, walk'') ∧
              walk''.openKeys = walk.openKeys ++ [n] := by
          intro m walk' hkeys
          rw [← hkeys]
          apply ih m walk'
          · rw [hkeys]
            exact hnodup'
          · rw [hkeys, length_append, length_singleton]
            omega
        obtain ⟨answer, inner, hinner, hkeys⟩ : ∃ answer inner,
            walkNode graph (visitNode graph fuel) n (walk.entered n) =
              some (answer, inner) ∧ inner.openKeys = walk.openKeys ++ [n] := by
          unfold walkNode
          cases graph n with
          | leaf label => exact ⟨label, _, rfl, rfl⟩
          | inner succs => exact walkSuccs_ends hvisit succs rfl
        simp only [visit, hget, hi]
        change ∃ visited walk', (walkNode graph (visitNode graph fuel) n
          (walk.entered n) >>= _) = some (visited, walk') ∧ _
        rw [hinner, bind_eq_bind, bind_some]
        dsimp only []
        split
        · exact ⟨_, _, rfl, by simp [hkeys]⟩
        · exact ⟨_, _, rfl, by simp [hkeys]⟩

/-- Between top-level visits nothing is open, and each answer is exact. -/
theorem visitAll_exact_from [Fintype κ] {fuel : Nat} (hfuel : Fintype.card κ < fuel)
    {keys : List κ} (hsound : Sound graph owner walk)
    (hopen : walk.openKeys = []) (hcarried : carriedAll graph fuel keys walk = true) :
    ∃ visits walk', visitAll graph fuel keys walk = some (visits, walk') ∧
      List.Forall₂ (fun n visited => visited.answer = (!walk.memo.cutAnswer) ↔
        Reaches graph (!walk.memo.cutAnswer) n) keys visits := by
  induction keys generalizing walk owner with
  | nil => exact ⟨[], walk, rfl, .nil⟩
  | cons n keys ih =>
    obtain ⟨visited, mid, hmid, hopen'⟩ := visitNode_ends graph fuel n walk hsound.nodup
      (Nat.lt_of_lt_of_le hfuel (Nat.le_add_right _ _))
    simp only [carriedAll, Bool.and_eq_true, hmid] at hcarried
    obtain ⟨owner', hfirst⟩ := visitNode_right graph fuel hsound hcarried.1 hmid
    obtain ⟨visits, walk', hrest, hexact⟩ :=
      ih hfirst.sound (hopen'.trans hopen) hcarried.2
    rw [hfirst.extension.cutAnswer_eq] at hexact
    refine ⟨visited :: visits, walk', ?_, .cons ?_ hexact⟩
    · unfold visitAll
      rw [hmid, bind_eq_bind, bind_some]
      dsimp only []
      rw [hrest]
      rfl
    · have hnone : avoided owner' mid = ∅ := by
        have hserials : mid.memo.openSerials = [] := by
          have := hfirst.sound.keys_eq
          rw [hopen', hopen] at this
          exact (map_eq_nil_iff.mp this.symm)
        apply Set.eq_empty_of_forall_notMem
        rintro y (⟨cut, hcut, rfl⟩ | hlast)
        · have := hfirst.sound.tells.cuts_open cut hcut
          rw [hserials] at this
          cases this
        · rw [hopen', hopen] at hlast
          cases hlast
      have hstays := hfirst.stays
      rw [hnone] at hstays
      constructor
      · intro hanswer
        apply hfirst.reaches
        rw [hanswer]
        exact Bool.not_ne_self _
      · intro hreach
        by_contra hne
        exact hstays (Bool.not_eq_not.mp hne) hreach

omit [DecidableEq κ] in
theorem new_sound (graph : κ → Node κ) (owner : Nat → κ) (cutAnswer : Bool) :
    Sound graph owner (new cutAnswer) :=
  ⟨CutMemo.new_tells graph owner cutAnswer, rfl, nodup_nil⟩

/-- Every answer of a run of visits on one walk is the fixed point's at its node,
when every answer the run takes from the memo is carried. -/
theorem visitAll_exact [Fintype κ] (graph : κ → Node κ) (cutAnswer : Bool) {fuel : Nat}
    (hfuel : Fintype.card κ < fuel) (keys : List κ)
    (hcarried : carriedAll graph fuel keys (new cutAnswer) = true) :
    ∃ visits walk, visitAll graph fuel keys (new cutAnswer) = some (visits, walk) ∧
      List.Forall₂ (fun n visited =>
        (visited.answer = true ↔ n ∈ fixedPoint graph cutAnswer) ∧
        (visited.answer = (!cutAnswer) ↔ Reaches graph (!cutAnswer) n)) keys visits := by
  rcases isEmpty_or_nonempty κ with hempty | ⟨⟨key⟩⟩
  · cases keys with
    | nil => exact ⟨[], _, rfl, .nil⟩
    | cons n _ => exact hempty.elim n
  obtain ⟨visits, walk, hrun, hexact⟩ :=
    visitAll_exact_from hfuel (new_sound graph (fun _ => key) cutAnswer) rfl hcarried
  refine ⟨visits, walk, hrun, hexact.imp ?_⟩
  intro n visited hanswer
  refine ⟨?_, hanswer⟩
  rw [mem_fixedPoint_iff]
  change visited.answer = (!cutAnswer) ↔ Reaches graph (!cutAnswer) n at hanswer
  cases cutAnswer with
  | false => exact hanswer
  | true =>
    rw [Bool.not_true] at hanswer
    rw [if_pos rfl, ← hanswer, Bool.not_eq_false]

/-- A cycle that a walk of node 0 shares with node 2: node 1 has its answer only
by the cut at node 0, and node 2 takes it from the memo. -/
def sharedCycle : Fin 4 → Node (Fin 4)
  | 0 => .inner [1, 2, 3]
  | 1 => .inner [0]
  | 2 => .inner [1]
  | 3 => .leaf true

theorem visitAll_exact_sharedCycle :
    ∃ visits walk, visitAll sharedCycle 5 [3, 1] (new false) = some (visits, walk) ∧
      List.Forall₂ (fun n visited =>
        (visited.answer = true ↔ n ∈ fixedPoint sharedCycle false) ∧
        (visited.answer = (!false) ↔ Reaches sharedCycle (!false) n)) [3, 1] visits :=
  visitAll_exact sharedCycle false (by decide) [3, 1] (by decide)

/-- Visiting node 0 and then node 2 answers `false` for node 2, which reaches the
leaf by nodes 1 and 0. -/
theorem visitAll_sharedCycle_wrong :
    ¬ ∃ visits walk, visitAll sharedCycle 5 [0, 2] (new false) = some (visits, walk) ∧
      List.Forall₂ (fun n visited =>
        (visited.answer = true ↔ n ∈ fixedPoint sharedCycle false) ∧
        (visited.answer = (!false) ↔ Reaches sharedCycle (!false) n)) [0, 2] visits := by
  rintro ⟨visits, walk, hrun, hexact⟩
  have hvisits : (visitAll sharedCycle 5 [0, 2] (new false)).map Prod.fst =
      some [⟨true, true⟩, ⟨false, false⟩] := by
    decide
  rw [hrun] at hvisits
  obtain rfl := Option.some.inj hvisits
  have hleaf : Reaches sharedCycle true 3 := .leaf (Set.notMem_empty _) rfl
  have hzero : Reaches sharedCycle true 0 := .inner (Set.notMem_empty _) rfl (by decide) hleaf
  have hone : Reaches sharedCycle true 1 := .inner (Set.notMem_empty _) rfl (by decide) hzero
  have htwo : Reaches sharedCycle true 2 := .inner (Set.notMem_empty _) rfl (by decide) hone
  cases hexact with
  | cons _ hrest =>
    cases hrest with
    | cons hlast _ => exact Bool.false_ne_true (hlast.2.mpr htwo)

end CutWalk

end Wado
