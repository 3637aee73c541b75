/-
Which nodes an operation on a `TreeMap` may change, and splitting a full child:
the one step that changes three nodes at once.
-/
import Wado.TreeShape

namespace Wado.TreeMap

open GcArray KeyOrder List

variable {K V : Type} {map map' : TreeMap K V}

/-- `ids` are distinct nodes of `map`. -/
structure Owned (map : TreeMap K V) (ids : List Nat) : Prop where
  nodup : ids.Nodup
  lt_nodes : ∀ n ∈ ids, n < map.nodes

theorem Owned.of_sublist {ids sub : List Nat} (h : Owned map ids) (hsub : sub.Sublist ids) :
    Owned map sub :=
  ⟨h.nodup.sublist hsub, fun n hn => h.lt_nodes n (hsub.subset hn)⟩

/-- Replacing some of the nodes by nodes among them and new ones. -/
theorem Owned.replace {before ids after ids' : List Nat}
    (h : Owned map (before ++ ids ++ after)) (hnodes : map.nodes ≤ map'.nodes)
    (h' : Owned map' ids') (hids : ∀ n ∈ ids', n ∈ ids ∨ map.nodes ≤ n) :
    Owned map' (before ++ ids' ++ after) := by
  have hold : ∀ n ∈ before ++ after, n < map.nodes ∧ n ∉ ids' := by
    intro n hn
    have hlt : n < map.nodes := h.lt_nodes n (by
      simp only [mem_append] at hn ⊢
      rcases hn with hn | hn
      · exact Or.inl (Or.inl hn)
      · exact Or.inr hn)
    refine ⟨hlt, fun hmem => ?_⟩
    rcases hids n hmem with hmem | hge
    · have hnodup := h.nodup
      rw [append_assoc, nodup_append] at hnodup
      obtain ⟨-, hrest, hdisjoint⟩ := hnodup
      rcases mem_append.mp hn with hn | hn
      · exact hdisjoint n hn n (mem_append_left _ hmem) rfl
      · exact (nodup_append.mp hrest).2.2 n hmem n hn rfl
    · omega
  constructor
  · have hnodup := h.nodup
    rw [append_assoc, nodup_append] at hnodup
    obtain ⟨hbefore, hrest, hdisjoint⟩ := hnodup
    have hafter := (nodup_append.mp hrest).2.1
    rw [append_assoc, nodup_append]
    refine ⟨hbefore, nodup_append.mpr ⟨h'.nodup, hafter, ?_⟩, ?_⟩
    · intro n hn m hm heq
      subst heq
      exact (hold n (mem_append_right _ hm)).2 hn
    · intro n hn m hm heq
      subst heq
      rcases mem_append.mp hm with hm | hm
      · exact (hold n (mem_append_left _ hn)).2 hm
      · exact hdisjoint n hn n (mem_append_right _ hm) rfl
  · intro n hn
    rcases mem_append.mp hn with hn | hn
    · rcases mem_append.mp hn with hn | hn
      · have := (hold n (mem_append_left _ hn)).1
        omega
      · exact h'.lt_nodes n hn
    · have := (hold n (mem_append_right _ hn)).1
      omega

/-- `map'` is `map` with the nodes `ids` made into `ids'`: nodes among them and
new ones.  Every other node, the log and the root stay. -/
structure Evolves (map map' : TreeMap K V) (ids ids' : List Nat) : Prop where
  arrays : map'.Arrays
  nodes_le : map.nodes ≤ map'.nodes
  log_eq : map'.log = map.log
  root_eq : map'.root = map.root
  height_eq : map'.height = map.height
  owned : Owned map' ids'
  mem_or_new : ∀ n ∈ ids', n ∈ ids ∨ map.nodes ≤ n
  keeps : Keeps map map' (fun n => n < map.nodes ∧ n ∉ ids)

theorem Evolves.trans {map'' : TreeMap K V} {ids ids' ids'' : List Nat}
    (h : Evolves map map' ids ids') (h' : Evolves map' map'' ids' ids'') :
    Evolves map map'' ids ids'' where
  arrays := h'.arrays
  nodes_le := Nat.le_trans h.nodes_le h'.nodes_le
  log_eq := h'.log_eq.trans h.log_eq
  root_eq := h'.root_eq.trans h.root_eq
  height_eq := h'.height_eq.trans h.height_eq
  owned := h'.owned
  mem_or_new := by
    intro n hn
    have := h.nodes_le
    rcases h'.mem_or_new n hn with hn | hge
    · exact h.mem_or_new n hn
    · exact Or.inr (by omega)
  keeps := by
    rintro n items kids ⟨hlt, hmem⟩ hat
    have := h.nodes_le
    refine h'.keeps ⟨by omega, fun hn => ?_⟩ (h.keeps ⟨hlt, hmem⟩ hat)
    rcases h.mem_or_new n hn with hn | hge
    · exact hmem hn
    · omega

/-- What a step does to some nodes it does to a larger tree around them. -/
theorem Evolves.around {ids ids' : List Nat} (h : Evolves map map' ids ids')
    {before after : List Nat} (howned : Owned map (before ++ ids ++ after)) :
    Evolves map map' (before ++ ids ++ after) (before ++ ids' ++ after) where
  arrays := h.arrays
  nodes_le := h.nodes_le
  log_eq := h.log_eq
  root_eq := h.root_eq
  height_eq := h.height_eq
  owned := howned.replace h.nodes_le h.owned h.mem_or_new
  mem_or_new := by
    intro n hn
    simp only [mem_append] at hn ⊢
    rcases hn with (hn | hn) | hn
    · exact Or.inl (Or.inl (Or.inl hn))
    · rcases h.mem_or_new n hn with hn | hge
      · exact Or.inl (Or.inl (Or.inr hn))
      · exact Or.inr hge
    · exact Or.inl (Or.inr hn)
  keeps := h.keeps.mono fun n hn =>
    ⟨hn.1, fun hmem => hn.2 (mem_append_left _ (mem_append_right _ hmem))⟩

theorem branch_ids_around (root : Nat) (own : List (Nat × K)) (left right : List (Sub K))
    (c : Sub K) : (Sub.branch root own (left ++ c :: right)).ids =
      (root :: left.flatMap Sub.ids) ++ c.ids ++ right.flatMap Sub.ids := by
  simp [Sub.branch]

/-- The two halves of a full node and the item between them. -/
theorem Subtree.halves {below : Nat} {c : Sub K} (h : Subtree map below c)
    (hfull : map.lens[c.root]? = some nodeCap) (hnodup : c.ids.Nodup) :
    ∃ citems ckids mid, NodeAt map c.root citems ckids ∧ citems.length = nodeCap ∧
      ckids.length = (if below = 0 then 0 else nodeKids) ∧
      citems[nodeCap / 2]? = some mid ∧
      ∀ {map' : TreeMap K V} {right : Nat},
        NodeAt map' c.root (citems.take (nodeCap / 2)) (ckids.take (nodeCap / 2 + 1)) →
        NodeAt map' right (citems.drop (nodeCap / 2 + 1)) (ckids.drop (nodeCap / 2 + 1)) →
        Keeps map map' (fun n => n ∈ c.ids ∧ n ≠ c.root) →
        ∃ lo hi, lo.root = c.root ∧ hi.root = right ∧ Subtree map' below lo ∧
          Subtree map' below hi ∧ c.items = lo.items ++ mid :: hi.items ∧
          (lo.ids ++ hi.ids).Perm (right :: c.ids) := by
  -- A list of `nodeCap` items splits around the middle one.
  have hsplit : ∀ {items : List (Nat × K)}, items.length = nodeCap →
      ∃ mid, items[nodeCap / 2]? = some mid ∧
        items = items.take (nodeCap / 2) ++ mid :: items.drop (nodeCap / 2 + 1) := by
    intro items hlen
    have hlt : nodeCap / 2 < items.length := by rw [hlen]; decide
    exact ⟨items[nodeCap / 2], List.getElem?_eq_getElem hlt, by
      rw [getElem_cons_drop, take_append_drop]⟩
  cases below with
  | zero =>
    obtain ⟨hids, hnode⟩ := h
    have hlen : c.items.length = nodeCap :=
      Option.some.inj (hnode.len_eq.symm.trans hfull)
    obtain ⟨mid, hmid, hitems⟩ := hsplit hlen
    refine ⟨c.items, [], mid, hnode, hlen, rfl, hmid, ?_⟩
    intro map' right hlo hhi _
    exact ⟨⟨c.root, [c.root], _⟩, ⟨right, [right], _⟩, rfl, rfl, ⟨rfl, by simpa using hlo⟩,
      ⟨rfl, by simpa using hhi⟩, hitems, by rw [hids]; exact List.Perm.swap _ _ _⟩
  | succ below =>
    obtain ⟨own, subs, heq, hnode, hlength, hsubs⟩ := h
    have hlen : own.length = nodeCap := Option.some.inj (hnode.len_eq.symm.trans hfull)
    obtain ⟨mid, hmid, hitems⟩ := hsplit hlen
    have hids : c.ids = c.root :: subs.flatMap Sub.ids := congrArg Sub.ids heq
    refine ⟨own, subs.map Sub.root, mid, hnode, hlen, ?_, hmid, ?_⟩
    · rw [length_map, hlength, hlen]
      rfl
    · intro map' right hlo hhi hkeeps
      rw [← map_take] at hlo
      rw [← map_drop] at hhi
      have hkept : ∀ s ∈ subs, Subtree map' below s := by
        intro s hs
        refine (hsubs s hs).keeps (hkeeps.mono fun n hn => ?_)
        have hmem : n ∈ subs.flatMap Sub.ids := mem_flatMap.mpr ⟨s, hs, hn⟩
        refine ⟨by rw [hids]; exact mem_cons_of_mem _ hmem, ?_⟩
        rintro rfl
        rw [hids] at hnodup
        exact (nodup_cons.mp hnodup).1 hmem
      have hcap : nodeCap / 2 + 1 ≤ own.length := by rw [hlen]; decide
      refine ⟨Sub.branch c.root _ _, Sub.branch right _ _, rfl, rfl,
        Subtree.branch hlo ?_ fun s hs => hkept s (mem_of_mem_take hs),
        Subtree.branch hhi ?_ fun s hs => hkept s (mem_of_mem_drop hs), ?_, ?_⟩
      · simp only [length_take]
        omega
      · simp only [length_drop]
        omega
      · have hitems' : c.items = weave (subs.map Sub.items) own := congrArg Sub.items heq
        rw [hitems', hitems]
        simp only [Sub.branch, map_take, map_drop]
        rw [← hitems, ← weave_item mid (by simp; omega), take_append_drop]
        exact congrArg _ hitems
      · rw [hids]
        simp only [Sub.branch, cons_append]
        refine (List.Perm.cons _ perm_middle).trans ?_
        rw [← flatMap_append, take_append_drop]
        exact List.Perm.swap _ _ _

/-- A length a node's items give. -/
theorem NodeAt.len_eq_of {n len : Nat} {items : List (Nat × K)} {kids : List Nat}
    (h : NodeAt map n items kids) (hlen : map.lens[n]? = some len) : items.length = len :=
  Option.some.inj (h.len_eq.symm.trans hlen)

/-- Splitting a full child of a node with room leaves the items as they are,
and two children with room in its place. -/
theorem splitChild_branch {below n : Nat} {before after : List (Nat × K)}
    {left right : List (Sub K)} {c : Sub K} (harrays : map.Arrays)
    (hnode : NodeAt map n (before ++ after) ((left ++ c :: right).map Sub.root))
    (hleft : left.length = before.length) (hright : right.length = after.length)
    (hsubs : ∀ s ∈ left ++ c :: right, Subtree map below s)
    (howned : Owned map (Sub.branch n (before ++ after) (left ++ c :: right)).ids)
    (hroom : (before ++ after).length < nodeCap)
    (hfull : map.lens[c.root]? = some nodeCap) :
    ∃ map' lo mid hi, map.splitChild n before.length (decide (below = 0)) = some map' ∧
      NodeAt map' n (before ++ mid :: after) ((left ++ lo :: hi :: right).map Sub.root) ∧
      (∀ s ∈ left ++ lo :: hi :: right, Subtree map' below s) ∧
      c.items = lo.items ++ mid :: hi.items ∧
      map'.lens[lo.root]? = some (nodeCap / 2) ∧ map'.lens[hi.root]? = some (nodeCap / 2) ∧
      Evolves map map' (Sub.branch n (before ++ after) (left ++ c :: right)).ids
        (Sub.branch n (before ++ mid :: after) (left ++ lo :: hi :: right)).ids := by
  have hc : Subtree map below c := hsubs c (by simp)
  rw [branch_ids_around] at howned
  have hcowned : Owned map c.ids := howned.of_sublist
    ((sublist_append_right _ _).trans (sublist_append_left _ _))
  have hnmem : n ∈ (n :: left.flatMap Sub.ids) ++ c.ids ++ right.flatMap Sub.ids := by simp
  -- Nodes of the other subtrees are neither `n` nor below `c`.
  have hnot : ∀ m, m ∈ left.flatMap Sub.ids ∨ m ∈ c.ids ∨ m ∈ right.flatMap Sub.ids →
      m < map.nodes ∧ m ≠ n := by
    intro m hm
    refine ⟨howned.lt_nodes m (by simp only [mem_append, mem_cons]; tauto), ?_⟩
    rintro rfl
    have hnodup := howned.nodup
    rw [append_assoc, cons_append, nodup_cons] at hnodup
    apply hnodup.1
    simp only [mem_append]
    tauto
  have hout : ∀ m, m ∈ left.flatMap Sub.ids ∨ m ∈ right.flatMap Sub.ids → m ∉ c.ids := by
    intro m hm hmc
    have hnodup := howned.nodup
    rw [append_assoc, nodup_append] at hnodup
    rcases hm with hm | hm
    · exact hnodup.2.2 m (mem_cons_of_mem _ hm) m (mem_append_left _ hmc) rfl
    · exact (nodup_append.mp hnodup.2.1).2.2 m hmc m hm rfl
  obtain ⟨citems, ckids, mid, hcnode, hclen, hcklen, hmid, hhalves⟩ :=
    hc.halves hfull hcowned.nodup
  have hcroot := hnot c.root (Or.inr (Or.inl hc.root_mem))
  obtain ⟨map', hsplit, harrays', hnodes, hlog, hroot, hheight, hnode', hlo, hhi, hkeeps⟩ :=
    (@splitChild_eq_some _ _ _ harrays _ _ before.length _ _ _ _ (decide (below = 0)) _ hnode
        hcnode (howned.lt_nodes n hnmem) hcroot.1 (Ne.symm hcroot.2) hroom
        (by simp only [length_map, length_append, length_cons]; omega)
          (by simp [← hleft]) hclen (by simpa using hcklen) hmid)
  obtain ⟨lo, hi, hloroot, hhiroot, hlosub, hhisub, hitems, hperm⟩ :=
    hhalves hlo hhi (hkeeps.mono fun m hm =>
      ⟨hcowned.lt_nodes m hm.1, (hnot m (Or.inr (Or.inl hm.1))).2, hm.2⟩)
  have hother : ∀ s ∈ left ++ right, Subtree map' below s := by
    intro s hs
    have hmem : s ∈ left ∨ s ∈ right := mem_append.mp hs
    refine (hsubs s (by simp only [mem_append, mem_cons]; tauto)).keeps
      (hkeeps.mono fun m hm => ?_)
    have hin : m ∈ left.flatMap Sub.ids ∨ m ∈ right.flatMap Sub.ids :=
      hmem.imp (fun h => mem_flatMap.mpr ⟨s, h, hm⟩)
        (fun h => mem_flatMap.mpr ⟨s, h, hm⟩)
    have := hnot m (by tauto)
    refine ⟨this.1, this.2, ?_⟩
    rintro rfl
    exact hout _ hin hc.root_mem
  refine ⟨map', lo, mid, hi, hsplit, ?_, ?_, hitems, ?_, ?_, ?_⟩
  · have htake : (left.map Sub.root).take (left.length + 1) = left.map Sub.root :=
      take_of_length_le (by simp)
    have hdrop : (left.map Sub.root).drop (left.length + 1) = [] :=
      drop_eq_nil_of_le (by simp)
    simpa [take_append, drop_append, ← hleft, hloroot, hhiroot, htake, hdrop]
      using hnode'
  · intro s hs
    simp only [mem_append, mem_cons] at hs
    rcases hs with hs | rfl | rfl | hs
    · exact hother s (mem_append_left _ hs)
    · exact hlosub
    · exact hhisub
    · exact hother s (mem_append_right _ hs)
  · rw [hloroot, hlo.len_eq, length_take, hclen]
    rfl
  · rw [hhiroot, hhi.len_eq, length_drop, hclen]
    rfl
  · have hids : (Sub.branch n (before ++ mid :: after) (left ++ lo :: hi :: right)).ids =
        (n :: left.flatMap Sub.ids) ++ (lo.ids ++ hi.ids) ++ right.flatMap Sub.ids := by
      simp [Sub.branch]
    have hmem : ∀ m, m ∈ lo.ids ++ hi.ids ↔ m = map.nodes ∨ m ∈ c.ids := by
      intro m
      rw [hperm.mem_iff, mem_cons]
    rw [branch_ids_around, hids]
    constructor
    · exact harrays'
    · omega
    · exact hlog
    · exact hroot
    · exact hheight
    · refine howned.replace (by omega) ⟨?_, ?_⟩ ?_
      · refine hperm.nodup_iff.mpr (nodup_cons.mpr ⟨fun h => ?_, hcowned.nodup⟩)
        have := hcowned.lt_nodes _ h
        omega
      · intro m hm
        rcases (hmem m).mp hm with rfl | hm
        · omega
        · have := hcowned.lt_nodes m hm
          omega
      · intro m hm
        rcases (hmem m).mp hm with rfl | hm
        · exact Or.inr (Nat.le_refl _)
        · exact Or.inl hm
    · intro m hm
      simp only [mem_append] at hm ⊢
      rcases hm with (hm | hm) | hm
      · exact Or.inl (Or.inl (Or.inl hm))
      · rcases (hmem m).mp (mem_append.mpr hm) with rfl | hm
        · exact Or.inr (Nat.le_refl _)
        · exact Or.inl (Or.inl (Or.inr hm))
      · exact Or.inl (Or.inr hm)
    · refine hkeeps.mono fun m hm => ⟨hm.1, ?_, ?_⟩
      · rintro rfl
        exact hm.2 hnmem
      · rintro rfl
        exact hm.2 (by simp [hc.root_mem])

end Wado.TreeMap
