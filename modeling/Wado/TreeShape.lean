/-
Items in key order, and how a search tree's node weaves its own items between
its children's.
-/
import Wado.TreeNodes

namespace KeyOrder

open List

variable {α K : Type}

/-- The first list, the first item, the second list, and so on: one more list
than there are items. -/
def weave : List (List α) → List α → List α
  | list :: lists, item :: items => list ++ item :: weave lists items
  | list :: _, [] => list
  | [], _ => []

attribute [grind =] weave

@[simp]
theorem weave_singleton (list : List α) : weave [list] [] = list := rfl

/-- A weave divides at any of its items. -/
theorem weave_item {left right : List (List α)} {before after : List α} (item : α)
    (hleft : left.length = before.length + 1) :
    weave (left ++ right) (before ++ item :: after) =
      weave left before ++ item :: weave right after := by
  induction before generalizing left with
  | nil =>
    obtain ⟨list, rfl⟩ := length_eq_one_iff.mp hleft
    rfl
  | cons first before ih =>
    cases left with
    | nil => simp at hleft
    | cons list left =>
      simp only [cons_append, weave]
      rw [ih (by simpa using hleft)]
      simp

/-- A weave divides around any of its lists. -/
theorem weave_list {left right : List (List α)} {before after : List α} (list : List α)
    (hleft : left.length = before.length) :
    weave (left ++ list :: right) (before ++ after) =
      weave (left ++ [[]]) before ++ list ++ weave ([] :: right) after := by
  induction before generalizing left with
  | nil =>
    obtain rfl : left = [] := eq_nil_of_length_eq_zero hleft
    cases after <;> simp [weave]
  | cons first before ih =>
    cases left with
    | nil => simp at hleft
    | cons head left =>
      simp only [cons_append, weave]
      rw [ih (by simpa using hleft)]
      simp

section Order

variable [Ord K]

/-- Keys strictly increase. -/
def Sorted (items : List (α × K)) : Prop :=
  items.Pairwise fun x y => compare x.2 y.2 = .lt

/-- `key` orders after every item. -/
def After (key : K) (items : List (α × K)) : Prop :=
  ∀ item ∈ items, compare key item.2 = .gt

/-- `key` orders before every item. -/
def Before (key : K) (items : List (α × K)) : Prop :=
  ∀ item ∈ items, compare key item.2 = .lt

theorem after_nil (key : K) : After key ([] : List (α × K)) := by
  intro item hmem
  cases hmem

theorem before_nil (key : K) : Before key ([] : List (α × K)) := by
  intro item hmem
  cases hmem

variable [Std.TransOrd K]

theorem after_of_lt {key key' key'' : K} (h : compare key key' = .gt)
    (hlt : compare key'' key' = .lt) : compare key key'' = .gt :=
  Std.OrientedCmp.gt_iff_lt.mpr
    (Std.TransCmp.lt_trans hlt (Std.OrientedCmp.gt_iff_lt.mp h))

/-- A key after a node's items before a child is after everything before it. -/
theorem weave_after {key : K} {left : List (List (α × K))} {before : List (α × K)}
    (hleft : left.length = before.length)
    (hsorted : Sorted (weave (left ++ [[]]) before)) (h : After key before) :
    After key (weave (left ++ [[]]) before) := by
  induction before generalizing left with
  | nil =>
    obtain rfl : left = [] := eq_nil_of_length_eq_zero hleft
    exact after_nil key
  | cons first before ih =>
    cases left with
    | nil => simp at hleft
    | cons head left =>
      simp only [cons_append, weave] at hsorted ⊢
      have hfirst : compare key first.2 = .gt := h first mem_cons_self
      obtain ⟨-, htail, hhead⟩ := pairwise_append.mp hsorted
      intro item hmem
      rcases mem_append.mp hmem with hmem | hmem
      · exact after_of_lt hfirst (hhead item hmem first mem_cons_self)
      · rcases mem_cons.mp hmem with rfl | hmem
        · exact hfirst
        · exact ih (by simpa using hleft) (pairwise_cons.mp htail).2
            (fun x hx => h x (mem_cons_of_mem first hx)) item hmem

/-- A key before a node's items after a child is before everything after it. -/
theorem weave_before {key : K} {right : List (List (α × K))} {after : List (α × K)}
    (hsorted : Sorted (weave ([] :: right) after)) (h : Before key after) :
    Before key (weave ([] :: right) after) := by
  cases after with
  | nil => exact before_nil key
  | cons first after =>
    simp only [weave, nil_append] at hsorted ⊢
    have hfirst : compare key first.2 = .lt := h first mem_cons_self
    intro item hmem
    rcases mem_cons.mp hmem with rfl | hmem
    · exact hfirst
    · exact Std.TransCmp.lt_trans hfirst ((pairwise_cons.mp hsorted).1 item hmem)

variable {items : List (α × K)}

/-- Where `key` falls in items in key order: at one of them, or between two. -/
theorem After.of_getElem? {key : K} (hsorted : Sorted items)
    {i : Nat} {item : α × K} (hi : items[i]? = some item) (h : compare key item.2 = .gt) :
    After key (items.take (i + 1)) := by
  obtain ⟨hlt, hget⟩ := List.getElem?_eq_some_iff.mp hi
  intro other hmem
  obtain ⟨j, hj⟩ := mem_iff_getElem?.mp hmem
  rw [List.getElem?_take] at hj
  split at hj
  · rename_i hji
    obtain ⟨hjlt, hjget⟩ := List.getElem?_eq_some_iff.mp hj
    rcases Nat.lt_or_ge j i with hlt' | hge
    · have := pairwise_iff_getElem.mp hsorted j i hjlt hlt hlt'
      rw [hget, hjget] at this
      exact after_of_lt h this
    · obtain rfl : j = i := by omega
      rw [← hjget, hget]
      exact h
  · cases hj

theorem Before.of_getElem? {key : K} (hsorted : Sorted items)
    {i : Nat} {item : α × K} (hi : items[i]? = some item) (h : compare key item.2 = .lt) :
    Before key (items.drop i) := by
  obtain ⟨hlt, hget⟩ := List.getElem?_eq_some_iff.mp hi
  intro other hmem
  obtain ⟨j, hj⟩ := mem_iff_getElem?.mp hmem
  rw [List.getElem?_drop] at hj
  obtain ⟨hjlt, hjget⟩ := List.getElem?_eq_some_iff.mp hj
  rcases Nat.eq_zero_or_pos j with rfl | hpos
  · simp only [Nat.add_zero] at hjget
    rw [← hjget, hget]
    exact h
  · have := pairwise_iff_getElem.mp hsorted i (i + j) hlt hjlt (by omega)
    rw [hget, hjget] at this
    exact Std.TransCmp.lt_trans h this

/-- Two items with equivalent keys are one item. -/
theorem Sorted.eq_of_compare_eq (hsorted : Sorted items)
    {x y : α × K} (hx : x ∈ items) (hy : y ∈ items) (h : compare x.2 y.2 = .eq) : x = y := by
  obtain ⟨i, hi, rfl⟩ := mem_iff_getElem.mp hx
  obtain ⟨j, hj, rfl⟩ := mem_iff_getElem.mp hy
  rcases Nat.lt_trichotomy i j with hlt | rfl | hgt
  · rw [pairwise_iff_getElem.mp hsorted i j hi hj hlt] at h
    cases h
  · rfl
  · have hlt := pairwise_iff_getElem.mp hsorted j i hj hi hgt
    rw [Std.OrientedCmp.eq_comm, hlt] at h
    cases h

end Order

end KeyOrder

/-
The tree below a node of a `TreeMap`: the nodes it is made of, and the items it
holds in key order.  A search ends at an item with the key, or between two.
-/

namespace Wado.TreeMap

open GcArray KeyOrder

variable {K V : Type} {map : TreeMap K V}

/-- The tree below node `root`: its nodes, and its items in key order. -/
structure Sub (K : Type) where
  root : Nat
  ids : List Nat
  items : List (Nat × K)

/-- The tree of a node above the leaves. -/
def Sub.branch (root : Nat) (own : List (Nat × K)) (subs : List (Sub K)) : Sub K where
  root := root
  ids := root :: subs.flatMap Sub.ids
  items := weave (subs.map Sub.items) own

/-- `t` is the tree below its root, whose leaves are `below` levels down. -/
def Subtree (map : TreeMap K V) : Nat → Sub K → Prop
  | 0, t => t.ids = [t.root] ∧ NodeAt map t.root t.items []
  | below + 1, t => ∃ own subs, t = Sub.branch t.root own subs ∧
      NodeAt map t.root own (subs.map Sub.root) ∧ subs.length = own.length + 1 ∧
      ∀ s ∈ subs, Subtree map below s

variable {own : List (Nat × K)} {subs : List (Sub K)}

theorem Subtree.branch {below root : Nat} (hnode : NodeAt map root own (subs.map Sub.root))
    (hlength : subs.length = own.length + 1) (hsubs : ∀ s ∈ subs, Subtree map below s) :
    Subtree map (below + 1) (Sub.branch root own subs) :=
  ⟨own, subs, rfl, hnode, hlength, hsubs⟩

variable {below : Nat} {t : Sub K}

theorem Subtree.root_mem (h : Subtree map below t) : t.root ∈ t.ids := by
  cases below with
  | zero => rw [h.1]; exact List.mem_singleton_self _
  | succ below =>
    obtain ⟨own, subs, heq, -⟩ := h
    rw [heq]
    exact List.mem_cons_self

/-- The item lists of a tree's root, whatever its level. -/
theorem Subtree.exists_node (h : Subtree map below t) :
    ∃ own kids, NodeAt map t.root own kids := by
  cases below with
  | zero => exact ⟨_, _, h.2⟩
  | succ below =>
    obtain ⟨own, subs, -, hnode, -⟩ := h
    exact ⟨_, _, hnode⟩

/-- A tree stays while its own nodes do. -/
theorem Subtree.keeps {map' : TreeMap K V}
    (h : Subtree map below t) (hkeeps : Keeps map map' (· ∈ t.ids)) :
    Subtree map' below t := by
  induction below generalizing t with
  | zero =>
    exact ⟨h.1, hkeeps (show t.root ∈ t.ids by rw [h.1]; exact List.mem_singleton_self _) h.2⟩
  | succ below ih =>
    obtain ⟨own, subs, heq, hnode, hlength, hsubs⟩ := h
    have hids : t.ids = t.root :: subs.flatMap Sub.ids := congrArg Sub.ids heq
    refine ⟨own, subs, heq, hkeeps (by rw [hids]; exact List.mem_cons_self) hnode, hlength, ?_⟩
    intro s hs
    refine ih (hsubs s hs) (hkeeps.mono fun n hn => ?_)
    rw [hids]
    exact List.mem_cons_of_mem _ (List.mem_flatMap.mpr ⟨s, hs, hn⟩)

/-- The subtrees of a node divide around any child. -/
theorem exists_around
    (hlength : subs.length = own.length + 1) {pos : Nat} (hpos : pos ≤ own.length) :
    ∃ left c right, subs = left ++ c :: right ∧ left.length = pos ∧
      right.length = own.length - pos := by
  have hlt : pos < subs.length := by omega
  refine ⟨subs.take pos, subs[pos], subs.drop (pos + 1), ?_, by simp; omega, by simp; omega⟩
  rw [List.getElem_cons_drop, List.take_append_drop]

/-- The items of a branch around its child `c`. -/
theorem branch_items_around {root : Nat} {before after : List (Nat × K)}
    {left right : List (Sub K)} (c : Sub K) (hleft : left.length = before.length) :
    (Sub.branch root (before ++ after) (left ++ c :: right)).items =
      weave (left.map Sub.items ++ [[]]) before ++ c.items ++
        weave ([] :: right.map Sub.items) after := by
  simp only [Sub.branch, List.map_append, List.map_cons]
  exact weave_list c.items (by simpa using hleft)

/-- The items of a branch around an item of its root. -/
theorem exists_at_item {root : Nat} {before after : List (Nat × K)} {subs : List (Sub K)}
    {item : Nat × K}
    (hlength : subs.length = (before ++ item :: after).length + 1) :
    ∃ left right, subs = left ++ right ∧ left.length = before.length + 1 ∧
      right.length = after.length + 1 ∧
      ∀ item' : Nat × K, (Sub.branch root (before ++ item' :: after) subs).items =
        weave (left.map Sub.items) before ++ item' :: weave (right.map Sub.items) after := by
  simp only [List.length_append, List.length_cons] at hlength
  refine ⟨subs.take (before.length + 1), subs.drop (before.length + 1),
    (List.take_append_drop _ _).symm, by simp; omega, by simp; omega, ?_⟩
  intro item'
  rw [← weave_item item' (by simp; omega), ← List.map_append, List.take_append_drop]
  rfl

theorem mem_branch_of_mem_own {root : Nat} {own : List (Nat × K)} {subs : List (Sub K)}
    (hlength : subs.length = own.length + 1) {item : Nat × K} (hmem : item ∈ own) :
    item ∈ (Sub.branch root own subs).items := by
  obtain ⟨before, after, rfl⟩ := List.append_of_mem hmem
  obtain ⟨left, right, -, -, -, hitems⟩ := (@exists_at_item _ root _ _ _ _ hlength)
  rw [hitems]
  exact List.mem_append_right _ List.mem_cons_self

section Search

variable [Ord K] [Std.TransOrd K]

variable {items : List (Nat × K)}

/-- Bisection ends: at the slot of an equivalent key, or where it would go. -/
theorem bisect_cases {base : Nat} {key : K}
    (hkeys : ∀ {i : Nat} {item : Nat × K}, items[i]? = some item →
      map.nkeyAt (base + i) = some item.2) (hsorted : Sorted items) {lo hi : Nat}
    (hlo : lo ≤ hi) (hhi : hi ≤ items.length) (hafter : After key (items.take lo))
    (hbefore : Before key (items.drop hi)) :
    (∃ (i : Nat) (item : Nat × K), map.bisect base key lo hi = some (i : Int) ∧
        items[i]? = some item ∧ compare key item.2 = .eq) ∨
      ∃ pos ≤ items.length, map.bisect base key lo hi = some (-1 - (pos : Int)) ∧
        After key (items.take pos) ∧ Before key (items.drop pos) := by
  by_cases hlt : lo < hi
  · obtain ⟨item, hitem⟩ : ∃ item, items[(lo + hi) / 2]? = some item :=
      ⟨_, List.getElem?_eq_getElem (by omega)⟩
    have hkey := hkeys hitem
    rw [bisect, if_pos hlt]
    simp only [hkey, Option.bind_eq_bind, Option.bind_some]
    cases hcmp : compare key item.2 with
    | lt =>
      exact bisect_cases hkeys hsorted (by omega) (by omega) hafter
        (Before.of_getElem? hsorted hitem hcmp)
    | gt =>
      exact bisect_cases hkeys hsorted (by omega) hhi
        (After.of_getElem? hsorted hitem hcmp) hbefore
    | eq => exact Or.inl ⟨_, item, rfl, hitem, hcmp⟩
  · obtain rfl : lo = hi := by omega
    rw [bisect, if_neg hlt]
    exact Or.inr ⟨lo, hhi, rfl, hafter, hbefore⟩
termination_by hi - lo

theorem searchNode_cases {n : Nat} {kids : List Nat}
    (h : NodeAt map n items kids) (hsorted : Sorted items) (key : K) :
    (∃ (i : Nat) (item : Nat × K), map.searchNode n key = some (i : Int) ∧
        items[i]? = some item ∧ compare key item.2 = .eq) ∨
      ∃ pos ≤ items.length, map.searchNode n key = some (-1 - (pos : Int)) ∧
        After key (items.take pos) ∧ Before key (items.drop pos) := by
  have hlen : GcArray.get map.lens n = some items.length := h.len_eq
  simp only [searchNode, hlen, Option.bind_eq_bind, Option.bind_some]
  exact bisect_cases h.nkeyAt_eq hsorted (Nat.zero_le _) (Nat.le_refl _)
    (by simpa using after_nil key) (by simpa using before_nil key)

omit [Std.TransOrd K] in
/-- A node's own items are in key order when its tree's are. -/
theorem sorted_own {root : Nat} (hlength : subs.length = own.length + 1)
    (hsorted : Sorted (Sub.branch root own subs).items) : Sorted own := by
  induction own generalizing subs with
  | nil => exact List.Pairwise.nil
  | cons item own ih =>
    cases subs with
    | nil => simp at hlength
    | cons s subs =>
      have hlength' : subs.length = own.length + 1 := by simpa using hlength
      simp only [Sub.branch, List.map_cons, weave] at hsorted
      obtain ⟨-, htail, -⟩ := List.pairwise_append.mp hsorted
      obtain ⟨hitem, htail⟩ := List.pairwise_cons.mp htail
      refine List.pairwise_cons.mpr ⟨?_, ih hlength' htail⟩
      intro other hmem
      exact hitem other ((@mem_branch_of_mem_own _ root _ _ hlength' _ hmem))

omit [Std.TransOrd K] in
theorem findFrom_found {below n i e : Nat} {b : Bool} {key : K}
    (hsearch : map.searchNode n key = some (i : Int))
    (hslot : GcArray.get map.slots (n * nodeCap + i) = some e)
    (hb : GcArray.get map.log.alive e = some b) :
    map.findFrom key below n = some (if b then (e : Int) else -1) := by
  unfold findFrom
  simp [hsearch, hslot, hb]

omit [Std.TransOrd K] in
theorem findFrom_leaf {n pos : Nat} {key : K}
    (hsearch : map.searchNode n key = some (-1 - (pos : Int))) :
    map.findFrom key 0 n = some (-1) := by
  have hneg : ¬ 0 ≤ -1 - (pos : Int) := by omega
  unfold findFrom
  simp only [hsearch, Option.bind_eq_bind, Option.bind_some, ge_iff_le, if_neg hneg]
  rfl

omit [Std.TransOrd K] in
theorem findFrom_child {below n pos c : Nat} {key : K}
    (hsearch : map.searchNode n key = some (-1 - (pos : Int)))
    (hkid : GcArray.get map.kids (n * nodeKids + pos) = some c) :
    map.findFrom key (below + 1) n = map.findFrom key below c := by
  have hneg : ¬ 0 ≤ -1 - (pos : Int) := by omega
  have hslot : (-1 - (-1 - (pos : Int))).toNat = pos := by omega
  rw [findFrom]
  simp only [hsearch, Option.bind_eq_bind, Option.bind_some, ge_iff_le, if_neg hneg, hslot, hkid]

/-- Searching below a node finds the entry of an equivalent key, dead or live,
or no item has one. -/
theorem findFrom_cases (h : Subtree map below t) (hsorted : Sorted t.items)
    (halive : ∀ item ∈ t.items, ∃ b, GcArray.get map.log.alive item.1 = some b) (key : K) :
    (∃ item ∈ t.items, ∃ b, compare key item.2 = .eq ∧ GcArray.get map.log.alive item.1 = some b ∧
        map.findFrom key below t.root = some (if b then (item.1 : Int) else -1)) ∨
      (map.findFrom key below t.root = some (-1) ∧ ∀ item ∈ t.items, compare key item.2 ≠ .eq) := by
  induction below generalizing t with
  | zero =>
    obtain ⟨-, hnode⟩ := h
    rcases searchNode_cases hnode hsorted key with
      ⟨i, item, hsearch, hitem, hcmp⟩ | ⟨pos, hpos, hsearch, hafter, hbefore⟩
    · have hmem := List.mem_of_getElem? hitem
      obtain ⟨b, hb⟩ := halive item hmem
      exact Or.inl ⟨item, hmem, b, hcmp, hb, findFrom_found hsearch (hnode.slot_eq hitem) hb⟩
    · refine Or.inr ⟨findFrom_leaf hsearch, ?_⟩
      intro item hmem heq
      rw [← List.take_append_drop pos t.items] at hmem
      rcases List.mem_append.mp hmem with hmem | hmem
      · rw [hafter item hmem] at heq
        cases heq
      · rw [hbefore item hmem] at heq
        cases heq
  | succ below ih =>
    obtain ⟨own, subs, heq, hnode, hlength, hsubs⟩ := h
    have hitems : t.items = (Sub.branch t.root own subs).items := congrArg Sub.items heq
    rw [hitems] at hsorted
    rcases searchNode_cases hnode (sorted_own hlength hsorted) key with
      ⟨i, item, hsearch, hitem, hcmp⟩ | ⟨pos, hpos, hsearch, hafter, hbefore⟩
    · have hmem : item ∈ t.items := by
        rw [hitems]
        exact mem_branch_of_mem_own hlength (List.mem_of_getElem? hitem)
      obtain ⟨b, hb⟩ := halive item hmem
      exact Or.inl ⟨item, hmem, b, hcmp, hb, findFrom_found hsearch (hnode.slot_eq hitem) hb⟩
    · obtain ⟨left, c, right, rfl, hleft, -⟩ := exists_around hlength hpos
      have haround := (@branch_items_around _ t.root (own.take pos) (own.drop pos) left right c
          (by simp [hleft, hpos]))
      rw [List.take_append_drop] at haround
      rw [haround] at hsorted hitems
      have hkid : GcArray.get map.kids (t.root * nodeKids + pos) = some c.root :=
        hnode.kid_eq (by simp [← hleft])
      obtain ⟨hfront, hback, -⟩ := List.pairwise_append.mp hsorted
      obtain ⟨hfront, hcsorted, -⟩ := List.pairwise_append.mp hfront
      have hgt := weave_after (by simp [hleft, hpos]) hfront hafter
      have hlt := weave_before hback hbefore
      have hchild : ∀ item ∈ c.items, item ∈ t.items := by
        intro item hmem
        rw [hitems]
        exact List.mem_append_left _ (List.mem_append_right _ hmem)
      rw [findFrom_child hsearch hkid]
      rcases ih (hsubs c (by simp)) hcsorted
          (fun item hmem => halive item (hchild item hmem)) with
        ⟨item, hmem, hfound⟩ | ⟨hmiss, hnone⟩
      · exact Or.inl ⟨item, hchild item hmem, hfound⟩
      · refine Or.inr ⟨hmiss, ?_⟩
        intro item hmem hcmp
        rw [hitems] at hmem
        rcases List.mem_append.mp hmem with hmem | hmem
        · rcases List.mem_append.mp hmem with hmem | hmem
          · rw [hgt item hmem] at hcmp
            cases hcmp
          · exact hnone item hmem hcmp
        · rw [hlt item hmem] at hcmp
          cases hcmp

end Search

end Wado.TreeMap
