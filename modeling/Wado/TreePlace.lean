/-
Placing a key in the tree: one descent that splits each full node on the way.
Whatever splits it makes, the items change by the placed one alone.
-/
import Wado.TreeSplit

namespace Wado.TreeMap

open GcArray KeyOrder List Option

variable {K V : Type} {map : TreeMap K V}

/-- What placing `key` for entry `e` does to the items, and its answer: a live
entry's item stays, a dead one's is handed to `e`, and a missing key's goes
between the items before and after it. -/
inductive Placed [Ord K] (log : EntryLog K V) (key : K) (e : Nat) :
    List (Nat × K) → Int → List (Nat × K) → Prop
  | held (before after : List (Nat × K)) (old : Nat) (key' : K)
      (hcmp : compare key key' = .eq) (halive : GcArray.get log.alive old = some true) :
      Placed log key e (before ++ (old, key') :: after) old
        (before ++ (old, key') :: after)
  | claimed (before after : List (Nat × K)) (old : Nat) (key' : K)
      (hcmp : compare key key' = .eq) (halive : GcArray.get log.alive old = some false) :
      Placed log key e (before ++ (old, key') :: after) (-1)
        (before ++ (e, key') :: after)
  | added (before after : List (Nat × K)) (hafter : After key before)
      (hbefore : Before key after) :
      Placed log key e (before ++ after) (-1) (before ++ (e, key) :: after)

/-- Placing among some items is placing among more around them. -/
theorem Placed.around [Ord K] {log : EntryLog K V} {key : K} {e : Nat}
    {items items' : List (Nat × K)} {answer : Int} (h : Placed log key e items answer items')
    {first last : List (Nat × K)} (hfirst : After key first) (hlast : Before key last) :
    Placed log key e (first ++ items ++ last) answer (first ++ items' ++ last) := by
  cases h with
  | held before after old key' hcmp halive =>
    simpa using Placed.held (first ++ before) (after ++ last) old key' hcmp halive
  | claimed before after old key' hcmp halive =>
    simpa using Placed.claimed (e := e) (first ++ before) (after ++ last) old key' hcmp halive
  | added before after hafter hbefore =>
    have := @Placed.added _ _ _ log key e (first ++ before) (after ++ last)
      (fun item hmem => (mem_append.mp hmem).elim (hfirst item) (hafter item))
      (fun item hmem => (mem_append.mp hmem).elim (hbefore item) (hlast item))
    simpa using this

variable {below n : Nat} {own : List (Nat × K)} {left right : List (Sub K)}

/-- Putting a step on one child back under its parent. -/
theorem branch_evolves {map' : TreeMap K V} {c c' : Sub K}
    (hnode : NodeAt map n own ((left ++ c :: right).map Sub.root))
    (hlength : (left ++ c :: right).length = own.length + 1)
    (hsubs : ∀ s ∈ left ++ c :: right, Subtree map below s)
    (howned : Owned map (Sub.branch n own (left ++ c :: right)).ids)
    (hroot : c'.root = c.root) (hc' : Subtree map' below c')
    (hevolves : Evolves map map' c.ids c'.ids) :
    Subtree map' (below + 1) (Sub.branch n own (left ++ c' :: right)) ∧
      Evolves map map' (Sub.branch n own (left ++ c :: right)).ids
        (Sub.branch n own (left ++ c' :: right)).ids := by
  rw [branch_ids_around] at howned
  have hnodup := howned.nodup
  rw [append_assoc, nodup_append] at hnodup
  refine ⟨Subtree.branch ?_ (by simpa using hlength) ?_, ?_⟩
  · have hkeep := hevolves.keeps ⟨howned.lt_nodes n (by simp), fun hmem =>
      hnodup.2.2 n mem_cons_self n (mem_append_left _ hmem) rfl⟩ hnode
    simpa [hroot] using hkeep
  · intro s hs
    simp only [mem_append, mem_cons] at hs
    rcases hs with hs | rfl | hs
    · refine (hsubs s (by simp [hs])).keeps (hevolves.keeps.mono fun m hm => ?_)
      have hmem : m ∈ n :: left.flatMap Sub.ids :=
        mem_cons_of_mem _ (mem_flatMap.mpr ⟨s, hs, hm⟩)
      exact ⟨howned.lt_nodes m (mem_append_left _ (mem_append_left _ hmem)),
        fun hmc => hnodup.2.2 m hmem m (mem_append_left _ hmc) rfl⟩
    · exact hc'
    · refine (hsubs s (by simp [hs])).keeps (hevolves.keeps.mono fun m hm => ?_)
      have hmem : m ∈ right.flatMap Sub.ids := mem_flatMap.mpr ⟨s, hs, hm⟩
      exact ⟨howned.lt_nodes m (mem_append_right _ hmem),
        fun hmc => (nodup_append.mp hnodup.2.1).2.2 m hmc m hmem rfl⟩
  · rw [branch_ids_around, branch_ids_around]
    exact hevolves.around howned

variable {before after : List (Nat × K)}

/-- `claim` at an item of node `n`. -/
theorem claim_eq_some (harrays : map.Arrays) {n e : Nat}
    {kids : List Nat} {old : Nat} {key' : K} {b : Bool}
    (hnode : NodeAt map n (before ++ (old, key') :: after) kids)
    (hb : GcArray.get map.log.alive old = some b) :
    ∃ map', map.claim (n * nodeCap + before.length) e = some (if b then (old : Int) else -1, map') ∧
      NodeAt map' n (before ++ (if b then old else e, key') :: after) kids ∧
      map'.Arrays ∧ map'.nodes = map.nodes ∧ map'.log = map.log ∧ map'.root = map.root ∧
      map'.height = map.height ∧ Keeps map map' (· ≠ n) := by
  have hslot := (@NodeAt.slot_eq _ _ _ _ before.length _ _ ((old, key')) hnode (by simp))
  cases b with
  | true =>
    exact ⟨map, by simp [claim, hslot, hb], hnode, harrays, rfl, rfl, rfl, rfl,
      fun _ _ _ _ hat => hat⟩
  | false =>
    have hlt := (List.getElem?_eq_some_iff.mp hslot).1
    have hcap := hnode.items_le
    simp only [length_append, length_cons] at hcap
    refine ⟨{ map with slots := map.slots.set (n * nodeCap + before.length) e },
      ?_, ?_, ?_, rfl, rfl, rfl, rfl, ?_⟩
    · simp [claim, hslot, hb, GcArray.set_of_lt hlt]
    · constructor
      · simpa using hnode.len_eq
      · intro i x hi
        by_cases heq : i = before.length
        · subst heq
          obtain rfl : e = x := by simpa using hi
          exact List.getElem?_set_self hlt
        · simp only
          rw [List.getElem?_set_ne (by omega)]
          refine hnode.slots_run ?_
          simp only [map_append, map_cons] at hi ⊢
          rcases Nat.lt_or_ge i before.length with hlt' | hge
          · rw [List.getElem?_append_left (by simpa using hlt')] at hi ⊢
            exact hi
          · obtain ⟨k, rfl⟩ : ∃ k, i = before.length + (k + 1) :=
              ⟨i - before.length - 1, by omega⟩
            rw [List.getElem?_append_right (by simp)] at hi ⊢
            simpa using hi
      · have := hnode.nkeys_run
        simpa using this
      · exact hnode.kids_run
      · simpa using hcap
      · exact hnode.kids_le
    · exact ⟨by simpa using harrays.length_slots, harrays.length_nkeys,
        harrays.length_kids, harrays.nodes_le⟩
    · intro n' items' kids' hne hat
      refine hat.congr rfl (fun i hi => ?_) (fun _ _ => rfl) (fun _ _ => rfl)
      refine List.getElem?_set_ne ?_
      simp only [nodeCap] at hcap hi ⊢
      omega

section Place

variable [Ord K] {key : K} {e : Nat}

/-- The descent places the key below a node with room. -/
def PlacesBelow (map : TreeMap K V) (key : K) (e below : Nat) (t : Sub K) : Prop :=
  ∃ answer map' t', map.placeFrom key e below t.root = some (answer, map') ∧
    t'.root = t.root ∧ Subtree map' below t' ∧ Evolves map map' t.ids t'.ids ∧
    Placed map.log key e t.items answer t'.items

/-- Claiming an item of a node above the leaves changes that item alone. -/
theorem claim_branch (harrays : map.Arrays)
    {subs : List (Sub K)} (hnode : NodeAt map n own (subs.map Sub.root))
    (hlength : subs.length = own.length + 1) (hsubs : ∀ s ∈ subs, Subtree map below s)
    (howned : Owned map (Sub.branch n own subs).ids) {i : Nat} {item : Nat × K}
    (hitem : own[i]? = some item) (hcmp : compare key item.2 = .eq) {b : Bool}
    (hb : GcArray.get map.log.alive item.1 = some b) :
    ∃ answer map' t', map.claim (n * nodeCap + i) e = some (answer, map') ∧
      t'.root = n ∧ Subtree map' (below + 1) t' ∧
      Evolves map map' (Sub.branch n own subs).ids t'.ids ∧
      Placed map.log key e (Sub.branch n own subs).items answer t'.items := by
  obtain ⟨before, after, rfl, rfl⟩ := exists_split hitem
  obtain ⟨old, key'⟩ := item
  obtain ⟨map', hclaim, hnode', harrays', hnodes, hlog, hroot, hheight, hkeeps⟩ :=
    claim_eq_some harrays (e := e) hnode hb
  obtain ⟨left, right, rfl, -, -, hitems⟩ := (@exists_at_item _ n _ _ _ _ hlength)
  have hnot : ∀ s ∈ left ++ right, n ∉ s.ids := by
    intro s hs hmem
    have hnodup := howned.nodup
    simp only [Sub.branch] at hnodup
    exact (nodup_cons.mp hnodup).1 (mem_flatMap.mpr ⟨s, hs, hmem⟩)
  refine ⟨_, map', Sub.branch n (before ++ (if b then old else e, key') :: after)
    (left ++ right), hclaim, rfl, Subtree.branch hnode' (by simpa using hlength) ?_, ?_, ?_⟩
  · intro s hs
    refine (hsubs s hs).keeps (hkeeps.mono fun m hm => ?_)
    rintro rfl
    exact hnot s hs hm
  · refine ⟨harrays', by omega, hlog, hroot, hheight, ⟨howned.nodup, ?_⟩,
      fun m hm => Or.inl hm, hkeeps.mono fun m hm => ?_⟩
    · intro m hm
      rw [hnodes]
      exact howned.lt_nodes m hm
    · rintro rfl
      exact hm.2 mem_cons_self
  · rw [hitems, hitems]
    cases b with
    | true => exact Placed.held _ _ old key' hcmp hb
    | false => exact Placed.claimed _ _ old key' hcmp hb

theorem placeFrom_found {below n i : Nat}
    (hsearch : map.searchNode n key = some (i : Int)) :
    map.placeFrom key e below n = map.claim (n * nodeCap + i) e := by
  unfold placeFrom
  simp [hsearch]

theorem placeFrom_leaf {n pos : Nat}
    (hsearch : map.searchNode n key = some (-1 - (pos : Int))) :
    map.placeFrom key e 0 n = (map.insertSlot n pos e key).map fun map' => (-1, map') := by
  have hneg : ¬ 0 ≤ -1 - (pos : Int) := by omega
  have hslot : (-1 - (-1 - (pos : Int))).toNat = pos := by omega
  unfold placeFrom
  simp only [hsearch, bind_eq_bind, bind_some, ge_iff_le, if_neg hneg, hslot]
  cases map.insertSlot n pos e key <;> rfl

theorem placeFrom_child {below n pos c len : Nat}
    (hsearch : map.searchNode n key = some (-1 - (pos : Int)))
    (hkid : GcArray.get map.kids (n * nodeKids + pos) = some c)
    (hlen : GcArray.get map.lens c = some len) (hroom : len ≠ nodeCap) :
    map.placeFrom key e (below + 1) n = map.placeFrom key e below c := by
  have hneg : ¬ 0 ≤ -1 - (pos : Int) := by omega
  have hslot : (-1 - (-1 - (pos : Int))).toNat = pos := by omega
  rw [placeFrom]
  simp only [hsearch, bind_eq_bind, bind_some, ge_iff_le, if_neg hneg, hslot,
    hkid, hlen, if_neg hroom]

theorem placeFrom_split {below n pos c : Nat} {map' : TreeMap K V} {key' : K}
    (hsearch : map.searchNode n key = some (-1 - (pos : Int)))
    (hkid : GcArray.get map.kids (n * nodeKids + pos) = some c)
    (hlen : GcArray.get map.lens c = some nodeCap)
    (hsplit : map.splitChild n pos (decide (below = 0)) = some map')
    (hkey : map'.nkeyAt (n * nodeCap + pos) = some key') :
    map.placeFrom key e (below + 1) n = match compare key key' with
      | .lt => do map'.placeFrom key e below (← GcArray.get map'.kids (n * nodeKids + pos))
      | .gt => do
        map'.placeFrom key e below (← GcArray.get map'.kids (n * nodeKids + (pos + 1)))
      | .eq => map'.claim (n * nodeCap + pos) e := by
  have hneg : ¬ 0 ≤ -1 - (pos : Int) := by omega
  have hslot : (-1 - (-1 - (pos : Int))).toNat = pos := by omega
  rw [placeFrom, bind_of_eq_some hsearch, if_neg hneg]
  cases hcmp : compare key key' <;>
    simp only [hslot, bind_of_eq_some hkid, bind_of_eq_some hlen, if_true,
      bind_of_eq_some hsplit, bind_of_eq_some hkey, hcmp]

variable [Std.TransOrd K]

/-- Placing below one child is placing below its parent, whose other items lie
before and after the key. -/
theorem placesBelow_child {c : Sub K}
    (hnode : NodeAt map n (before ++ after) ((left ++ c :: right).map Sub.root))
    (hleft : left.length = before.length) (hright : right.length = after.length)
    (hsubs : ∀ s ∈ left ++ c :: right, Subtree map below s)
    (howned : Owned map (Sub.branch n (before ++ after) (left ++ c :: right)).ids)
    (hsorted : Sorted (Sub.branch n (before ++ after) (left ++ c :: right)).items)
    (hafter : After key before) (hbefore : Before key after)
    (hchild : Owned map c.ids → Sorted c.items → (∀ item ∈ c.items,
        item ∈ (Sub.branch n (before ++ after) (left ++ c :: right)).items) →
      PlacesBelow map key e below c) :
    ∃ answer map' t', map.placeFrom key e below c.root = some (answer, map') ∧
      t'.root = n ∧ Subtree map' (below + 1) t' ∧
      Evolves map map' (Sub.branch n (before ++ after) (left ++ c :: right)).ids t'.ids ∧
      Placed map.log key e (Sub.branch n (before ++ after) (left ++ c :: right)).items
        answer t'.items := by
  rw [branch_items_around c hleft] at hsorted hchild
  have hcowned : Owned map c.ids := by
    rw [branch_ids_around] at howned
    exact howned.of_sublist
      ((sublist_append_right _ _).trans (sublist_append_left _ _))
  obtain ⟨hfront, hback, -⟩ := pairwise_append.mp hsorted
  obtain ⟨hfront, hcsorted, -⟩ := pairwise_append.mp hfront
  obtain ⟨answer, map', c', hplace, hroot, hsub, hevolves, hplaced⟩ := hchild hcowned hcsorted
    fun item hmem => mem_append_left _ (mem_append_right _ hmem)
  obtain ⟨hsub', hevolves'⟩ := branch_evolves hnode
    (by simp only [length_append, length_cons]; omega) hsubs howned hroot hsub
    hevolves
  refine ⟨answer, map', _, hplace, rfl, hsub', hevolves', ?_⟩
  rw [branch_items_around c hleft, branch_items_around c' hleft]
  exact hplaced.around (weave_after (by simpa using hleft) hfront hafter)
    (weave_before hback hbefore)

omit [Ord K] [Std.TransOrd K] in
/-- Splitting a child leaves its parent's items as they are. -/
theorem branch_items_split {n : Nat} {before after : List (Nat × K)}
    {left right : List (Sub K)} {c lo hi : Sub K} {mid : Nat × K}
    (hleft : left.length = before.length) (hc : c.items = lo.items ++ mid :: hi.items) :
    (Sub.branch n (before ++ mid :: after) (left ++ lo :: hi :: right)).items =
      (Sub.branch n (before ++ after) (left ++ c :: right)).items := by
  have hhi : weave (hi.items :: right.map Sub.items) after =
      hi.items ++ weave ([] :: right.map Sub.items) after := by
    have := (@weave_list _ [] (right.map Sub.items) [] after hi.items rfl)
    simpa using this
  rw [branch_items_around lo hleft, branch_items_around c hleft, hc]
  simp [weave, hhi]

/-- Placing a key below a node with room: one descent, over any splits. -/
theorem placeFrom_placesBelow {below : Nat} {t : Sub K} (harrays : map.Arrays)
    (h : Subtree map below t) (howned : Owned map t.ids) (hsorted : Sorted t.items)
    (hroom : ∃ len, map.lens[t.root]? = some len ∧ len < nodeCap)
    (halive : ∀ item ∈ t.items, ∃ b, GcArray.get map.log.alive item.1 = some b) :
    PlacesBelow map key e below t := by
  obtain ⟨len, hlen, hlt⟩ := hroom
  induction below generalizing map t len with
  | zero =>
    obtain ⟨hids, hnode⟩ := h
    have hitems := hnode.len_eq_of hlen
    -- Only the leaf itself changes.
    have hevolves : ∀ {map' : TreeMap K V}, map'.Arrays → map'.nodes = map.nodes →
        map'.log = map.log → map'.root = map.root → map'.height = map.height →
        Keeps map map' (· ≠ t.root) → Evolves map map' t.ids t.ids := by
      intro map' harrays' hnodes hlog hroot hheight hkeeps
      refine ⟨harrays', by omega, hlog, hroot, hheight, ⟨howned.nodup, fun m hm => ?_⟩,
        fun m hm => Or.inl hm, hkeeps.mono fun m hm => ?_⟩
      · rw [hnodes]
        exact howned.lt_nodes m hm
      · rintro rfl
        exact hm.2 (by rw [hids]; exact mem_singleton_self _)
    rcases searchNode_cases hnode hsorted key with
      ⟨i, item, hsearch, hitem, hcmp⟩ | ⟨pos, hpos, hsearch, hafter, hbefore⟩
    · obtain ⟨b, hb⟩ := halive item (mem_of_getElem? hitem)
      obtain ⟨before, after, hsplit, rfl⟩ := exists_split hitem
      obtain ⟨old, key'⟩ := item
      rw [hsplit] at hnode
      obtain ⟨map', hclaim, hnode', harrays', hnodes, hlog, hroot, hheight, hkeeps⟩ :=
        claim_eq_some harrays (e := e) hnode hb
      refine ⟨_, map', ⟨t.root, t.ids, before ++ (if b then old else e, key') :: after⟩,
        (placeFrom_found hsearch).trans hclaim, rfl, ⟨hids, hnode'⟩,
        hevolves harrays' hnodes hlog hroot hheight hkeeps, ?_⟩
      rw [hsplit]
      cases b with
      | true => exact Placed.held _ _ _ _ hcmp hb
      | false => exact Placed.claimed _ _ _ _ hcmp hb
    · obtain ⟨map', hinsert, harrays', hnodes, hlog, hroot, hheight, hnode', hkeeps⟩ :=
        insertSlot_eq_some harrays hnode (by omega) hpos e key
      refine ⟨-1, map', ⟨t.root, t.ids, t.items.take pos ++ (e, key) :: t.items.drop pos⟩,
        by rw [placeFrom_leaf hsearch, hinsert]; rfl, rfl,
        ⟨hids, hnode'⟩, hevolves harrays' hnodes hlog hroot hheight hkeeps, ?_⟩
      have := @Placed.added _ _ _ map.log key e _ _ hafter hbefore
      rwa [take_append_drop] at this
  | succ below ih =>
    obtain ⟨own, subs, heq, hnode, hlength, hsubs⟩ := h
    have hown := hnode.len_eq_of hlen
    rw [heq] at howned hsorted halive
    suffices hplaces : ∃ answer map' t',
        map.placeFrom key e (below + 1) t.root = some (answer, map') ∧ t'.root = t.root ∧
        Subtree map' (below + 1) t' ∧
        Evolves map map' (Sub.branch t.root own subs).ids t'.ids ∧
        Placed map.log key e (Sub.branch t.root own subs).items answer t'.items by
      rw [← heq] at hplaces
      exact hplaces
    rcases searchNode_cases hnode (sorted_own hlength hsorted) key with
      ⟨i, item, hsearch, hitem, hcmp⟩ | ⟨pos, hpos, hsearch, hafter, hbefore⟩
    · obtain ⟨b, hb⟩ := halive item
        (mem_branch_of_mem_own hlength (mem_of_getElem? hitem))
      rw [placeFrom_found hsearch]
      exact claim_branch harrays (e := e) hnode hlength hsubs howned hitem hcmp hb
    · obtain ⟨left, c, right, rfl, hleft, hright⟩ := exists_around hlength hpos
      obtain ⟨before, after, rfl, rfl, hafterlen⟩ : ∃ before after, own = before ++ after ∧
          before.length = pos ∧ after.length = own.length - pos :=
        ⟨own.take pos, own.drop pos, (take_append_drop _ _).symm, by simp; omega, by simp⟩
      rw [take_left] at hafter
      rw [drop_left] at hbefore
      have hright' : right.length = after.length := by omega
      have hkid : GcArray.get map.kids (t.root * nodeKids + before.length) = some c.root :=
        hnode.kid_eq (by simp [← hleft])
      obtain ⟨cown, ckids, hcnode⟩ := (hsubs c (by simp)).exists_node
      have hclen : GcArray.get map.lens c.root = some cown.length := hcnode.len_eq
      by_cases hfull : cown.length = nodeCap
      · rw [hfull] at hclen
        obtain ⟨map', lo, mid, hi, hsplit, hnode', hsubs', hcitems, hlo, hhi, hevolves⟩ :=
          splitChild_branch harrays hnode hleft hright' hsubs howned (by omega) hclen
        have hsame := (@branch_items_split _ t.root _ after _ right _ _ _ _ hleft hcitems)
        rw [← hsame] at hsorted halive ⊢
        have hnkey : map'.nkeyAt (t.root * nodeCap + before.length) = some mid.2 :=
          hnode'.nkeyAt_eq (by simp)
        rw [placeFrom_split hsearch hkid hclen hsplit hnkey]
        -- Everything from here on starts from the split map.
        have hlift : ∀ {step : Option (Int × TreeMap K V)},
            (∃ answer map'' t', step = some (answer, map'') ∧ t'.root = t.root ∧
              Subtree map'' (below + 1) t' ∧
              Evolves map' map''
                (Sub.branch t.root (before ++ mid :: after) (left ++ lo :: hi :: right)).ids
                t'.ids ∧
              Placed map'.log key e
                (Sub.branch t.root (before ++ mid :: after)
                  (left ++ lo :: hi :: right)).items answer t'.items) →
            ∃ answer map'' t', step = some (answer, map'') ∧ t'.root = t.root ∧
              Subtree map'' (below + 1) t' ∧
              Evolves map map''
                (Sub.branch t.root (before ++ after) (left ++ c :: right)).ids t'.ids ∧
              Placed map.log key e
                (Sub.branch t.root (before ++ mid :: after)
                  (left ++ lo :: hi :: right)).items answer t'.items := by
          rintro step ⟨answer, map'', t', hstep, hroot, hsub, hevolves', hplaced⟩
          rw [hevolves.log_eq] at hplaced
          exact ⟨answer, map'', t', hstep, hroot, hsub, hevolves.trans hevolves', hplaced⟩
        cases hcmp : compare key mid.2 with
        | lt =>
          have hkid' : GcArray.get map'.kids (t.root * nodeKids + before.length) =
              some lo.root := hnode'.kid_eq (by simp [← hleft])
          simp only [hkid', bind_eq_bind, bind_some]
          refine hlift (placesBelow_child hnode' hleft (by simp; omega) hsubs'
            hevolves.owned hsorted hafter ?_ fun howned' hsorted' hmem => ?_)
          · intro item hitem
            rcases mem_cons.mp hitem with rfl | hitem
            · exact hcmp
            · exact hbefore item hitem
          · exact ih hevolves.arrays (hsubs' lo (by simp)) howned' hsorted'
              (fun item hitem => by
                rw [hevolves.log_eq]
                exact halive item (hmem item hitem)) _ hlo (by decide)
        | gt =>
          have hsubs_eq : left ++ lo :: hi :: right = (left ++ [lo]) ++ hi :: right := by
            simp
          have hown_eq : before ++ mid :: after = (before ++ [mid]) ++ after := by simp
          rw [hsubs_eq, hown_eq] at hnode' hsorted halive
          rw [hsubs_eq] at hsubs'
          have howned' := hevolves.owned
          rw [hsubs_eq, hown_eq] at howned'
          have hkid' : GcArray.get map'.kids (t.root * nodeKids + (before.length + 1)) =
              some hi.root := hnode'.kid_eq (by simp [← hleft])
          simp only [hkid', bind_eq_bind, bind_some]
          apply hlift
          rw [hsubs_eq, hown_eq]
          refine placesBelow_child hnode' (by simp [hleft]) hright' hsubs'
            howned' hsorted ?_ hbefore fun howned'' hsorted' hmem => ?_
          · intro item hitem
            rcases mem_append.mp hitem with hitem | hitem
            · exact hafter item hitem
            · rw [mem_singleton.mp hitem]
              exact hcmp
          · exact ih hevolves.arrays (hsubs' hi (by simp)) howned'' hsorted'
              (fun item hitem => by
                rw [hevolves.log_eq]
                exact halive item (hmem item hitem)) _ hhi (by decide)
        | eq =>
          obtain ⟨b, hb⟩ := halive mid (mem_branch_of_mem_own
            (by simp only [length_append, length_cons]; omega) (by simp))
          exact hlift (claim_branch hevolves.arrays (e := e) hnode'
            (by simp only [length_append, length_cons]; omega) hsubs'
            hevolves.owned (by simp) hcmp (by rw [hevolves.log_eq]; exact hb))
      · rw [placeFrom_child hsearch hkid hclen hfull]
        refine placesBelow_child hnode hleft hright' hsubs howned hsorted hafter hbefore
          fun howned' hsorted' hmem => ?_
        have hle := hcnode.items_le
        exact ih harrays (hsubs c (by simp)) howned' hsorted'
          (fun item hitem => halive item (hmem item hitem)) _ hclen (by omega)

end Place

end Wado.TreeMap
