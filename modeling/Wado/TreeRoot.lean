/-
A `TreeMap`'s tree from its root: looking up, placing and placing last, and
listing the entries in key order.
-/
import Wado.TreePlace

namespace Wado.TreeMap

open GcArray KeyOrder List Option

variable {K V : Type} {map : TreeMap K V}

/-- The tree of `map` holds `items`. -/
structure Holding (map : TreeMap K V) (t : Sub K) : Prop where
  arrays : map.Arrays
  root_eq : map.root = some t.root
  subtree : Subtree map map.height t
  owned : Owned map t.ids

/-- `map` has no tree yet, or one that holds `items`. -/
def Tree (map : TreeMap K V) (items : List (Nat × K)) : Prop :=
  (map.Arrays ∧ map.root = none ∧ map.height = 0 ∧ items = []) ∨
    ∃ t, Holding map t ∧ t.items = items

theorem new_tree : (new : TreeMap K V).Tree [] :=
  Or.inl ⟨new_arrays, rfl, rfl, rfl⟩

theorem clearTree_tree (map : TreeMap K V) (log : EntryLog K V) :
    Tree { map.clearTree with log } [] :=
  Or.inl ⟨⟨rfl, rfl, rfl, Nat.le_refl _⟩, rfl, rfl, rfl⟩

variable {items : List (Nat × K)}

/-- The tree does not look at the log. -/
theorem Tree.with_log (h : map.Tree items) (log : EntryLog K V) :
    Tree { map with log } items := by
  rcases h with ⟨harrays, hnone⟩ | ⟨t, ⟨harrays, hroot, hsub, howned⟩, hitems⟩
  · exact Or.inl ⟨⟨harrays.1, harrays.2, harrays.3, harrays.4⟩, hnone⟩
  · refine Or.inr ⟨t, ⟨⟨harrays.1, harrays.2, harrays.3, harrays.4⟩, hroot, ?_,
      ⟨howned.1, howned.2⟩⟩, hitems⟩
    exact hsub.keeps fun _ _ _ _ hat => ⟨hat.1, hat.2, hat.3, hat.4, hat.5, hat.6⟩

/-- There is a tree, and its root has room. -/
theorem makeRootRoom_eq_some (h : map.Tree items) :
    ∃ map' t, map.makeRootRoom = some map' ∧ Holding map' t ∧ t.items = items ∧
      map'.log = map.log ∧ ∃ len, map'.lens[t.root]? = some len ∧ len < nodeCap := by
  rcases h with ⟨harrays, hroot, hheight, rfl⟩ | ⟨t, ⟨harrays, hroot, hsub, howned⟩, rfl⟩
  · obtain ⟨map', hnew, harrays', hnodes, hlog, -, hheight', hnode, -⟩ :=
      newNode_eq_some harrays
    refine ⟨{ map' with root := some map.nodes }, ⟨map.nodes, [map.nodes], []⟩, ?_, ?_, rfl,
      hlog, 0, hnode.len_eq, by decide⟩
    · simp [makeRootRoom, hroot, hnew]
    · refine ⟨⟨harrays'.1, harrays'.2, harrays'.3, harrays'.4⟩, rfl, ?_, ⟨by simp, fun n hn => ?_⟩⟩
      · simp only [hheight', hheight]
        exact ⟨rfl, ⟨hnode.1, hnode.2, hnode.3, hnode.4, hnode.5, hnode.6⟩⟩
      · rw [mem_singleton.mp hn]
        simp only [hnodes]
        omega
  · obtain ⟨own, kids, hrootnode⟩ := hsub.exists_node
    have hlen : GcArray.get map.lens t.root = some own.length := hrootnode.len_eq
    by_cases hroom : own.length < nodeCap
    · exact ⟨map, t, by simp [makeRootRoom, hroot, hlen, hroom],
        ⟨harrays, hroot, hsub, howned⟩, rfl, rfl, _, hrootnode.len_eq, hroom⟩
    · have hfull : own.length = nodeCap := by
        have := hrootnode.items_le
        omega
      obtain ⟨grown, hnew, harrays₁, hnodes₁, hlog₁, hroot₁, hheight₁, hnode₁, hkeeps₁⟩ :=
        newNode_eq_some harrays
      have htop := hnode₁.lt_length
      have hrootlt := howned.lt_nodes t.root hsub.root_mem
      have hkids := harrays₁.length_kids
      rw [if_pos (by omega)] at hkids
      have hslot : map.nodes * nodeKids < grown.kids.length := by
        rw [hkids]
        exact Nat.mul_lt_mul_of_pos_right htop (by decide)
      let linked : TreeMap K V :=
        { grown with kids := grown.kids.set (map.nodes * nodeKids) t.root }
      have hlinked : NodeAt linked map.nodes ([] ++ []) (([] ++ t :: []).map Sub.root) := by
        refine ⟨hnode₁.len_eq, hnode₁.slots_run, hnode₁.nkeys_run, ?_, hnode₁.items_le,
          by simp [nodeKids]⟩
        intro i x hi
        cases i with
        | zero =>
          obtain rfl : t.root = x := by simpa using hi
          exact List.getElem?_set_self hslot
        | succ i => simp at hi
      have hkeeps₂ : Keeps map linked (· < map.nodes) := by
        intro n items kids' hn hat
        refine (hkeeps₁ hn hat).congr rfl (fun _ _ => rfl) (fun _ _ => rfl) fun i hi => ?_
        refine List.getElem?_set_ne ?_
        simp only [nodeKids, nodeCap] at hi ⊢
        omega
      have hsub₂ : Subtree linked map.height t :=
        hsub.keeps (hkeeps₂.mono fun n hn => howned.lt_nodes n hn)
      have howned₂ : Owned linked (Sub.branch map.nodes ([] ++ []) ([] ++ t :: [])).ids := by
        simp only [Sub.branch, nil_append, flatMap_cons, flatMap_nil,
          append_nil]
        refine ⟨nodup_cons.mpr ⟨fun h => ?_, howned.nodup⟩, fun n hn => ?_⟩
        · have := howned.lt_nodes _ h
          omega
        · simp only [linked, hnodes₁]
          rcases mem_cons.mp hn with rfl | hn
          · omega
          · have := howned.lt_nodes n hn
            omega
      have hlen₂ : linked.lens[t.root]? = some nodeCap := by
        rw [← hfull]
        exact (hkeeps₂ hrootlt hrootnode).len_eq
      obtain ⟨map', lo, mid, hi, hsplit, hnode', hsubs', hitems, -, -, hevolves⟩ :=
        (@splitChild_branch _ _ linked _ _ [] [] [] [] _
            ⟨harrays₁.1, harrays₁.2, by simpa [linked] using harrays₁.3, harrays₁.4⟩ hlinked rfl rfl
            (by simpa using hsub₂) howned₂ (by simp [nodeCap]) hlen₂)
      refine ⟨{ map' with root := some map.nodes, height := map.height + 1 },
        Sub.branch map.nodes ([] ++ mid :: []) ([] ++ lo :: hi :: []), ?_, ?_, ?_, ?_, 1,
        hnode'.len_eq, by decide⟩
      · have hheight' : map'.height = map.height := hevolves.height_eq.trans hheight₁
        rw [← hheight₁] at hsplit
        simp only [linked, length_nil] at hsplit
        simp only [makeRootRoom, hroot, hlen, if_neg hroom, hnew, bind_eq_bind,
          bind_some, GcArray.set_of_lt hslot]
        rw [hsplit]
        simp only [bind_some, hheight']
        rfl
      · have harrays' := hevolves.arrays
        refine ⟨⟨harrays'.1, harrays'.2, harrays'.3, harrays'.4⟩, rfl, ?_,
          ⟨hevolves.owned.nodup, hevolves.owned.lt_nodes⟩⟩
        refine (Subtree.branch hnode' rfl hsubs').keeps ?_
        exact fun _ _ _ _ hat => ⟨hat.1, hat.2, hat.3, hat.4, hat.5, hat.6⟩
      · rw [hitems]
        rfl
      · exact hevolves.log_eq.trans hlog₁

section Lookup

variable [Ord K] [Std.TransOrd K]

theorem findIndex_cases_items (h : map.Tree items) (hsorted : Sorted items)
    (halive : ∀ item ∈ items, ∃ b, GcArray.get map.log.alive item.1 = some b) (key : K) :
    (∃ item ∈ items, ∃ b, compare key item.2 = .eq ∧ GcArray.get map.log.alive item.1 = some b ∧
        map.findIndex key = some (if b then (item.1 : Int) else -1)) ∨
      (map.findIndex key = some (-1) ∧ ∀ item ∈ items, compare key item.2 ≠ .eq) := by
  rcases h with ⟨-, hroot, -, rfl⟩ | ⟨t, ht, rfl⟩
  · exact Or.inr ⟨by simp [findIndex, hroot], by simp⟩
  · have hfind : map.findIndex key = map.findFrom key map.height t.root := by
      simp [findIndex, ht.root_eq]
    rw [hfind]
    exact findFrom_cases ht.subtree hsorted halive key

theorem place_tree (h : map.Tree items) (hsorted : Sorted items)
    (halive : ∀ item ∈ items, ∃ b, GcArray.get map.log.alive item.1 = some b) (key : K) (e : Nat) :
    ∃ answer map' items', map.place key e = some (answer, map') ∧ map'.Tree items' ∧
      map'.log = map.log ∧ Placed map.log key e items answer items' := by
  obtain ⟨roomy, t, hroomy, ht, rfl, hlog, hroom⟩ := makeRootRoom_eq_some h
  rw [← hlog] at halive
  obtain ⟨answer, map', t', hplace, hroot, hsub, hevolves, hplaced⟩ :=
    (@placeFrom_placesBelow _ _ _ _ key e _ _ _ ht.arrays ht.subtree ht.owned hsorted hroom halive)
  refine ⟨answer, map', t'.items, ?_, Or.inr ⟨t', ⟨hevolves.arrays, ?_, ?_, hevolves.owned⟩,
    rfl⟩, hevolves.log_eq.trans hlog, ?_⟩
  · simp [place, hroomy, ht.root_eq, hplace]
  · rw [hevolves.root_eq, ht.root_eq, hroot]
  · rw [hevolves.height_eq]
    exact hsub
  · rw [← hlog]
    exact hplaced

end Lookup

section PlaceLast

/-- Placing an entry last below a node with room. -/
theorem placeLastFrom_eq_some {below e : Nat} {key : K} {t : Sub K} (harrays : map.Arrays)
    (h : Subtree map below t) (howned : Owned map t.ids)
    (hroom : ∃ len, map.lens[t.root]? = some len ∧ len < nodeCap)
    (hkey : map.log.keyAt e = some key) :
    ∃ map' t', map.placeLastFrom e below t.root = some map' ∧ t'.root = t.root ∧
      Subtree map' below t' ∧ Evolves map map' t.ids t'.ids ∧
      t'.items = t.items ++ [(e, key)] := by
  obtain ⟨len, hlen, hlt⟩ := hroom
  induction below generalizing map t len with
  | zero =>
    obtain ⟨hids, hnode⟩ := h
    have hitems := hnode.len_eq_of hlen
    obtain ⟨map', hinsert, harrays', hnodes, hlog, hroot, hheight, hnode', hkeeps⟩ :=
      insertSlot_eq_some harrays hnode (by omega) (Nat.le_refl _) e key
    rw [take_length, drop_length] at hnode'
    refine ⟨map', ⟨t.root, t.ids, t.items ++ [(e, key)]⟩, ?_, rfl, ⟨hids, hnode'⟩, ?_, rfl⟩
    · have hget : GcArray.get map.lens t.root = some t.items.length := hnode.len_eq
      simp [placeLastFrom, hget, hkey, hinsert]
    · refine ⟨harrays', by omega, hlog, hroot, hheight, ⟨howned.nodup, fun m hm => ?_⟩,
        fun m hm => Or.inl hm, hkeeps.mono fun m hm => ?_⟩
      · rw [hnodes]
        exact howned.lt_nodes m hm
      · rintro rfl
        exact hm.2 (by rw [hids]; exact mem_singleton_self _)
  | succ below ih =>
    obtain ⟨own, subs, heq, hnode, hlength, hsubs⟩ := h
    have hown := hnode.len_eq_of hlen
    rw [heq] at howned
    -- A step on the last child appends to the whole branch.
    have hlast : ∀ {map₁ : TreeMap K V} {own : List (Nat × K)} {left : List (Sub K)}
        {c : Sub K}, map₁.Arrays →
        NodeAt map₁ t.root own ((left ++ c :: []).map Sub.root) →
        left.length = own.length → (∀ s ∈ left ++ c :: [], Subtree map₁ below s) →
        Owned map₁ (Sub.branch t.root own (left ++ c :: [])).ids →
        (∃ len, map₁.lens[c.root]? = some len ∧ len < nodeCap) →
        map₁.log.keyAt e = some key →
        ∃ map' t', map₁.placeLastFrom e below c.root = some map' ∧ t'.root = t.root ∧
          Subtree map' (below + 1) t' ∧
          Evolves map₁ map' (Sub.branch t.root own (left ++ c :: [])).ids t'.ids ∧
          t'.items = (Sub.branch t.root own (left ++ c :: [])).items ++ [(e, key)] := by
      rintro map₁ own left c harrays₁ hnode₁ hleft hsubs₁ howned₁ ⟨clen, hclen, hclt⟩ hkey₁
      have hcowned : Owned map₁ c.ids := by
        rw [branch_ids_around] at howned₁
        exact howned₁.of_sublist
          ((sublist_append_right _ _).trans (sublist_append_left _ _))
      obtain ⟨map', c', hplace, hroot, hsub, hevolves, hitems⟩ :=
        ih harrays₁ (hsubs₁ c (by simp)) hcowned hkey₁ clen hclen hclt
      obtain ⟨hsub', hevolves'⟩ := branch_evolves hnode₁
        (by simp only [length_append, length_singleton]; omega) hsubs₁ howned₁
        hroot hsub hevolves
      refine ⟨map', Sub.branch t.root own (left ++ c' :: []), hplace, rfl, hsub', hevolves', ?_⟩
      have haround := fun c : Sub K => (@branch_items_around _ t.root own [] left [] c hleft)
      simp only [append_nil, weave] at haround
      rw [haround, haround, hitems, append_assoc]
    obtain ⟨left, c, right, rfl, hleft, hright⟩ :=
      exists_around hlength (Nat.le_refl own.length)
    obtain rfl : right = [] := eq_nil_of_length_eq_zero (by omega)
    have hget : GcArray.get map.lens t.root = some own.length := hnode.len_eq
    have hkid : GcArray.get map.kids (t.root * nodeKids + own.length) = some c.root :=
      hnode.kid_eq (by simp [← hleft])
    obtain ⟨cown, ckids, hcnode⟩ := (hsubs c (by simp)).exists_node
    have hclen : GcArray.get map.lens c.root = some cown.length := hcnode.len_eq
    by_cases hfull : cown.length = nodeCap
    · rw [hfull] at hclen
      obtain ⟨map', lo, mid, hi, hsplit, hnode', hsubs', hcitems, -, hhi, hevolves⟩ :=
        (@splitChild_branch _ _ _ _ _ own [] _ _ _ harrays
            (by rw [append_nil]; exact hnode) hleft rfl hsubs
            (by rw [append_nil]; exact howned) (by rw [append_nil]; omega) hclen)
      have hsame := (@branch_items_split _ t.root _ [] _ [] _ _ _ _ hleft hcitems)
      have hsubs_eq : left ++ lo :: hi :: [] = (left ++ [lo]) ++ hi :: [] := by simp
      rw [hsubs_eq] at hnode' hsubs' hevolves hsame
      have hkid' : GcArray.get map'.kids (t.root * nodeKids + (own.length + 1)) =
          some hi.root := hnode'.kid_eq (by simp [← hleft])
      obtain ⟨map'', t', hplace, hroot, hsub, hevolves', hitems⟩ :=
        hlast hevolves.arrays hnode' (by simp [hleft]) hsubs' hevolves.owned
          ⟨_, hhi, by decide⟩ (by rw [hevolves.log_eq]; exact hkey)
      rw [append_nil] at hevolves hsame
      refine ⟨map'', t', ?_, hroot, hsub, ?_, ?_⟩
      · simp only [placeLastFrom, hget, hkid, hclen, hsplit, hkid', hplace,
          bind_eq_bind, bind_some, if_true]
      · rw [heq]
        exact hevolves.trans hevolves'
      · rw [hitems, hsame, ← heq]
    · have hle := hcnode.items_le
      obtain ⟨map', t', hplace, hroot, hsub, hevolves, hitems⟩ :=
        hlast harrays hnode hleft hsubs howned ⟨_, hclen, by omega⟩ hkey
      refine ⟨map', t', ?_, hroot, hsub, by rw [heq]; exact hevolves, by
        rw [hitems, ← heq]⟩
      simp only [placeLastFrom, hget, hkid, hclen, if_neg hfull, hplace,
        bind_eq_bind, bind_some]

theorem placeLast_tree (h : map.Tree items) {e : Nat} {key : K}
    (hkey : map.log.keyAt e = some key) :
    ∃ map', map.placeLast e = some map' ∧ map'.Tree (items ++ [(e, key)]) ∧ map'.log = map.log := by
  obtain ⟨roomy, t, hroomy, ht, rfl, hlog, hroom⟩ := makeRootRoom_eq_some h
  rw [← hlog] at hkey
  obtain ⟨map', t', hplace, hroot, hsub, hevolves, hitems⟩ :=
    placeLastFrom_eq_some ht.arrays ht.subtree ht.owned hroom hkey
  refine ⟨map', ?_, Or.inr ⟨t', ⟨hevolves.arrays, ?_, ?_, hevolves.owned⟩, hitems⟩,
    hevolves.log_eq.trans hlog⟩
  · simp [placeLast, hroomy, ht.root_eq, hplace]
  · rw [hevolves.root_eq, ht.root_eq, hroot]
  · rw [hevolves.height_eq]
    exact hsub

/-- Placing entries last in order rebuilds the tree with their items in order. -/
theorem foldlM_placeLast_tree {items added : List (Nat × K)} (h : map.Tree items)
    (hkeys : ∀ item ∈ added, map.log.keyAt item.1 = some item.2) :
    ∃ map', (added.map Prod.fst).foldlM placeLast map = some map' ∧
      map'.Tree (items ++ added) ∧ map'.log = map.log := by
  induction added generalizing map items with
  | nil => exact ⟨map, rfl, by simpa using h, rfl⟩
  | cons item added ih =>
    obtain ⟨placed, hplace, htree, hlog⟩ :=
      placeLast_tree h (hkeys item mem_cons_self)
    obtain ⟨map', hfold, htree', hlog'⟩ := ih htree fun other hmem => by
      rw [hlog]
      exact hkeys other (mem_cons_of_mem item hmem)
    exact ⟨map', by simp [hplace, hfold], by simpa using htree', hlog'.trans hlog⟩

end PlaceLast

end Wado.TreeMap
