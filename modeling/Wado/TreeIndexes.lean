/-
The tree as an index of the entries: which items it may hold, how placing keeps
them an index, and how compaction lists and moves them.
-/
import Wado.TreeRoot

namespace Wado.TreeMap

open GcArray KeyOrder List Option

variable {K V : Type} {map : TreeMap K V} {rows : List (Row K V)}

variable {item : Nat × K} {renumbered : List Int}

section Collect

/-- Where an item's entry goes, unless it was dropped. -/
def kept (renumbered : List Int) (item : Nat × K) : Option Nat :=
  match renumbered[item.1]? with
  | some e => if e ≥ 0 then some e.toNat else none
  | none => none

theorem collectSlot_eq {n i : Nat} {items : List (Nat × K)} {kids : List Nat}
    (hnode : NodeAt map n items kids)
    (hi : items[i]? = some item) (hnew : ∃ e, renumbered[item.1]? = some e) (out : List Nat) :
    map.collectSlot renumbered (n * nodeCap + i) out =
      some (out ++ (kept renumbered item).toList) := by
  obtain ⟨e, he⟩ := hnew
  have hget : GcArray.get renumbered item.1 = some e := he
  by_cases hpos : 0 ≤ e <;> simp [collectSlot, hnode.slot_eq hi, hget, kept, he, hpos]

/-- Collecting below a node lists its items' entries that were kept, in order. -/
theorem collectInOrder_eq {below : Nat} {t : Sub K} (h : Subtree map below t)
    {renumbered : List Int} (hnew : ∀ item ∈ t.items, ∃ e, renumbered[item.1]? = some e)
    (out : List Nat) :
    map.collectInOrder renumbered below t.root out =
      some (out ++ t.items.filterMap (kept renumbered)) := by
  induction below generalizing t out with
  | zero =>
    obtain ⟨-, hnode⟩ := h
    have hlen : GcArray.get map.lens t.root = some t.items.length := hnode.len_eq
    have hloop : ∀ i ≤ t.items.length, (List.range i).foldlM
        (fun out i => map.collectSlot renumbered (t.root * nodeCap + i) out) out =
          some (out ++ (t.items.take i).filterMap (kept renumbered)) := by
      intro i hi
      induction i with
      | zero => simp
      | succ i ih =>
        obtain ⟨item, hitem⟩ : ∃ item, t.items[i]? = some item :=
          ⟨_, List.getElem?_eq_getElem (by omega)⟩
        rw [range_succ, foldlM_append, ih (by omega), take_add_one, hitem]
        simp [collectSlot_eq hnode hitem (hnew item (mem_of_getElem? hitem)),
          filterMap_cons]
        cases kept renumbered item <;> rfl
    rw [collectInOrder]
    simp only [hlen, bind_eq_bind, bind_some]
    rw [hloop _ (Nat.le_refl _), take_length]
  | succ below ih =>
    obtain ⟨own, subs, heq, hnode, hlength, hsubs⟩ := h
    have hlen : GcArray.get map.lens t.root = some own.length := hnode.len_eq
    have hitems : t.items = (Sub.branch t.root own subs).items := congrArg Sub.items heq
    rw [hitems] at hnew ⊢
    -- Collecting child `i`, which stands between the items around it.
    have hkid : ∀ {i : Nat} {c : Sub K}, subs[i]? = some c →
        GcArray.get map.kids (t.root * nodeKids + i) = some c.root :=
      fun hc => hnode.kid_eq (by simp [hc])
    have hchild : ∀ {i : Nat} {c : Sub K}, subs[i]? = some c → ∀ out,
        map.collectInOrder renumbered below c.root out =
          some (out ++ c.items.filterMap (kept renumbered)) := by
      intro i c hc out
      refine ih (hsubs c (mem_of_getElem? hc)) ?_ out
      obtain ⟨left, right, rfl, rfl⟩ := exists_split hc
      intro item hmem
      have haround := (@branch_items_around _ t.root (own.take left.length)
          (own.drop left.length) left right c (by simp at hlength ⊢; omega))
      rw [take_append_drop] at haround
      refine hnew item ?_
      rw [haround]
      exact mem_append_left _ (mem_append_right _ hmem)
    have hloop : ∀ i ≤ own.length, (List.range i).foldlM
        (fun out i => do
          let out ← map.collectInOrder renumbered below
            (← GcArray.get map.kids (t.root * nodeKids + i)) out
          map.collectSlot renumbered (t.root * nodeCap + i) out) out =
          some (out ++ (weave ((subs.map Sub.items).take i ++ [[]]) (own.take i)).filterMap
            (kept renumbered)) := by
      intro i hi
      induction i with
      | zero => simp
      | succ i ihi =>
        obtain ⟨c, hc⟩ : ∃ c, subs[i]? = some c := ⟨_, List.getElem?_eq_getElem (by omega)⟩
        obtain ⟨item, hitem⟩ : ∃ item, own[i]? = some item :=
          ⟨_, List.getElem?_eq_getElem (by omega)⟩
        have hmore := (@weave_list _ ((subs.map Sub.items).take i) ([[]]) (own.take i)
            ([item]) c.items (by simp; omega))
        have hcitems : (subs.map Sub.items)[i]? = some c.items := by simp [hc]
        rw [range_succ, foldlM_append, ihi (by omega), take_add_one,
          take_add_one, hitem, hcitems]
        simp only [toList_some, append_assoc, singleton_append]
        rw [hmore]
        have hslot := collectSlot_eq hnode hitem
          (hnew item (mem_branch_of_mem_own hlength (mem_of_getElem? hitem)))
        simp [hkid hc, hchild hc, hslot, weave, filterMap_append, filterMap_cons]
        cases kept renumbered item <;> rfl
    obtain ⟨c, hc⟩ : ∃ c, subs[own.length]? = some c :=
      ⟨_, List.getElem?_eq_getElem (by omega)⟩
    have hlast : subs.map Sub.items = (subs.map Sub.items).take own.length ++ [c.items] := by
      have htake := take_add_one (l := subs.map Sub.items) (i := own.length)
      rw [take_of_length_le (by simp [hlength])] at htake
      simpa [hc] using htake
    have hbranch : (Sub.branch t.root own subs).items =
        weave ((subs.map Sub.items).take own.length ++ [[]]) own ++ c.items := by
      have hsplit := (@weave_list _ ((subs.map Sub.items).take own.length) [] own [] c.items
          (by simp [hlength]))
      rw [← hlast, append_nil] at hsplit
      simpa [weave, Sub.branch] using hsplit
    have hall := hloop _ (Nat.le_refl _)
    simp only [bind_eq_bind] at hall
    rw [collectInOrder]
    simp only [hlen, bind_eq_bind, bind_some]
    rw [hall, take_length]
    simp only [bind_some, hkid hc, hchild hc]
    rw [hbranch, filterMap_append, append_assoc]

end Collect

section Indexes

variable [Ord K]

/-- `TreeMap` takes two keys for one where they compare equal. -/
def sameKey (a b : K) : Bool := compare a b == .eq

theorem sameKey_eq_true {a b : K} : sameKey a b = true ↔ compare a b = .eq := by
  simp [sameKey]

/-- The tree's items index `rows`: each points at an entry with an equivalent
key, and every live entry has one. -/
structure Indexes (items : List (Nat × K)) (rows : List (Row K V)) : Prop where
  sorted : Sorted items
  row_of : ∀ {item : Nat × K}, item ∈ items →
    ∃ row, rows[item.1]? = some row ∧ compare item.2 row.1 = .eq
  item_of_live : ∀ {i : Nat} {key : K} {value : V}, rows[i]? = some (key, some value) →
    ∃ key', (i, key') ∈ items

variable {items : List (Nat × K)}

variable {log : EntryLog K V}

theorem Indexes.alive (h : Indexes items rows) (hlog : log.Holds rows) :
    ∀ item ∈ items, ∃ b, GcArray.get log.alive item.1 = some b := by
  intro item hmem
  obtain ⟨row, hrow, -⟩ := h.row_of hmem
  exact ⟨_, hlog.isAlive_eq hrow⟩

variable [Std.TransOrd K]

theorem lawfulSame_sameKey : LawfulSame (sameKey : K → K → Bool) where
  symm h := sameKey_eq_true.mpr (Std.OrientedCmp.eq_symm (sameKey_eq_true.mp h))
  trans h h' := sameKey_eq_true.mpr
    (Std.TransCmp.eq_trans (sameKey_eq_true.mp h) (sameKey_eq_true.mp h'))

variable {key : K}

section

variable (h : Indexes items rows)
include h

theorem Indexes.liveDistinct : LiveDistinct sameKey rows := by
  intro i j key key' value value' hi hj hsame
  obtain ⟨k, hk⟩ := h.item_of_live hi
  obtain ⟨k', hk'⟩ := h.item_of_live hj
  obtain ⟨row, hrow, hcmp⟩ := h.row_of hk
  obtain ⟨row', hrow', hcmp'⟩ := h.row_of hk'
  obtain rfl : (key, some value) = row := Option.some.inj (hi.symm.trans hrow)
  obtain rfl : (key', some value') = row' := Option.some.inj (hj.symm.trans hrow')
  have heq : compare k k' = .eq := Std.TransCmp.eq_trans
    (Std.TransCmp.eq_trans hcmp (sameKey_eq_true.mp hsame)) (Std.OrientedCmp.eq_symm hcmp')
  exact congrArg Prod.fst (h.sorted.eq_of_compare_eq hk hk' heq)

omit [Std.TransOrd K] in
/-- Overwriting a row's value, or killing it, needs no change to the tree. -/
theorem Indexes.set {e : Nat} {old : V}
    (hrow : rows[e]? = some (key, some old)) (value : Option V) :
    Indexes items (rows.set e (key, value)) where
  sorted := h.sorted
  row_of := by
    intro item hmem
    obtain ⟨row, hi, hcmp⟩ := h.row_of hmem
    by_cases heq : e = item.1
    · rw [← heq] at hi ⊢
      obtain rfl : (key, some old) = row := Option.some.inj (hrow.symm.trans hi)
      exact ⟨_, List.getElem?_set_self (List.getElem?_eq_some_iff.mp hi).1, hcmp⟩
    · exact ⟨row, by rw [List.getElem?_set_ne heq, hi], hcmp⟩
  item_of_live := by
    intro i k v hi
    by_cases heq : e = i
    · subst heq
      exact h.item_of_live hrow
    · rw [List.getElem?_set_ne heq] at hi
      exact h.item_of_live hi

theorem Indexes.liveAbsent
    (hnone : ∀ {i : Nat} {key' : K} {value : V}, rows[i]? = some (key', some value) →
      ∀ {k : K}, (i, k) ∈ items → compare key k ≠ .eq) :
    LiveAbsent sameKey rows key := by
  intro i key' value hrow
  by_contra hsame
  rw [Bool.not_eq_false, sameKey_eq_true] at hsame
  obtain ⟨k, hk⟩ := h.item_of_live hrow
  obtain ⟨row, hrow', hcmp⟩ := h.row_of hk
  obtain rfl : (key', some value) = row := Option.some.inj (hrow.symm.trans hrow')
  exact hnone hrow hk
    (Std.OrientedCmp.eq_symm (Std.TransCmp.eq_trans hcmp hsame))

end

omit [Std.TransOrd K] in
/-- Items stay in key order while their keys do. -/
theorem sorted_of_map_eq {items items' : List (Nat × K)} (h : Sorted items)
    (hkeys : items'.map Prod.snd = items.map Prod.snd) : Sorted items' := by
  rw [Sorted, ← pairwise_map (f := Prod.snd) (R := fun x y => compare x y = .lt)] at h ⊢
  rwa [hkeys]

/-- A key that was held names a live row; otherwise the items index the log
with the key's entry appended. -/
theorem Indexes.placed (h : Indexes items rows) (hlog : log.Holds rows)
    {answer : Int} {items' : List (Nat × K)}
    (hplaced : Placed log key rows.length items answer items') :
    (∃ (i : Nat) (key' : K) (value : V), answer = (i : Int) ∧ items' = items ∧
        rows[i]? = some (key', some value) ∧ sameKey key' key = true) ∨
      (answer = -1 ∧ LiveAbsent sameKey rows key ∧
        ∀ value : V, Indexes items' (rows ++ [(key, some value)])) := by
  -- The rows of the longer log: the old ones, and the appended one.
  have happend : ∀ {i : Nat} {row : Row K V} (value : V), rows[i]? = some row →
      (rows ++ [(key, some value)])[i]? = some row := by
    intro i row value hi
    rw [List.getElem?_append_left (List.getElem?_eq_some_iff.mp hi).1, hi]
  have hrows : ∀ {i : Nat} {k : K} {v value : V},
      (rows ++ [(key, some value)])[i]? = some (k, some v) →
        rows[i]? = some (k, some v) ∨ i = rows.length := by
    intro i k v value hi
    rcases Nat.lt_trichotomy i rows.length with hlt | heq | hgt
    · rw [List.getElem?_append_left hlt] at hi
      exact Or.inl hi
    · exact Or.inr heq
    · rw [List.getElem?_eq_none (by simp; omega)] at hi
      cases hi
  cases hplaced with
  | held before after old key' hcmp halive =>
    obtain ⟨⟨rkey, value⟩, hrow, hcmp'⟩ :=
      h.row_of (mem_append_right before mem_cons_self)
    rw [hlog.isAlive_eq hrow] at halive
    obtain ⟨value, rfl⟩ := isSome_iff_exists.mp (Option.some.inj halive)
    exact Or.inl ⟨old, rkey, value, rfl, rfl, hrow, sameKey_eq_true.mpr
      (Std.OrientedCmp.eq_symm (Std.TransCmp.eq_trans hcmp hcmp'))⟩
  | claimed before after old key' hcmp halive =>
    have hmem : (old, key') ∈ before ++ (old, key') :: after :=
      mem_append_right before mem_cons_self
    obtain ⟨⟨rkey, value⟩, hrow, hcmp'⟩ := h.row_of hmem
    rw [hlog.isAlive_eq hrow] at halive
    obtain rfl : value = none := by simpa using halive
    -- A live entry's item is not the dead one's.
    have hother : ∀ {i : Nat} {k : K} {v : V}, rows[i]? = some (k, some v) → i ≠ old := by
      rintro i k v hi rfl
      simp [hrow] at hi
    refine Or.inr ⟨rfl, h.liveAbsent ?_, fun value => ⟨?_, ?_, ?_⟩⟩
    · intro i k v hi k' hk' hcmp''
      have := h.sorted.eq_of_compare_eq hk' hmem
        (Std.TransCmp.eq_trans (Std.OrientedCmp.eq_symm hcmp'') hcmp)
      exact hother hi (congrArg Prod.fst this)
    · exact sorted_of_map_eq h.sorted (by simp)
    · intro item hitem
      simp only [mem_append, mem_cons] at hitem
      rcases hitem with hitem | rfl | hitem
      · obtain ⟨row, hi, hc⟩ := h.row_of (mem_append_left _ hitem)
        exact ⟨row, happend value hi, hc⟩
      · exact ⟨_, List.getElem?_concat_length, Std.OrientedCmp.eq_symm hcmp⟩
      · obtain ⟨row, hi, hc⟩ :=
          h.row_of (mem_append_right _ (mem_cons_of_mem _ hitem))
        exact ⟨row, happend value hi, hc⟩
    · intro i k v hi
      rcases hrows hi with hi | rfl
      · obtain ⟨k', hk'⟩ := h.item_of_live hi
        refine ⟨k', ?_⟩
        simp only [mem_append, mem_cons, Prod.mk.injEq] at hk' ⊢
        rcases hk' with hk' | ⟨rfl, -⟩ | hk'
        · exact Or.inl hk'
        · exact absurd rfl (hother hi)
        · exact Or.inr (Or.inr hk')
      · exact ⟨key', mem_append_right _ mem_cons_self⟩
  | added before after hafter hbefore =>
    refine Or.inr ⟨rfl, h.liveAbsent ?_, fun value => ⟨?_, ?_, ?_⟩⟩
    · intro i k v hi k' hk' hcmp
      rcases mem_append.mp hk' with hk' | hk'
      · rw [hafter _ hk'] at hcmp
        cases hcmp
      · rw [hbefore _ hk'] at hcmp
        cases hcmp
    · obtain ⟨hb, ha, hba⟩ := pairwise_append.mp h.sorted
      refine pairwise_append.mpr ⟨hb, pairwise_cons.mpr ⟨hbefore, ha⟩, ?_⟩
      intro x hx y hy
      rcases mem_cons.mp hy with rfl | hy
      · exact Std.OrientedCmp.gt_iff_lt.mp (hafter x hx)
      · exact hba x hx y hy
    · intro item hitem
      simp only [mem_append, mem_cons] at hitem
      rcases hitem with hitem | rfl | hitem
      · obtain ⟨row, hi, hc⟩ := h.row_of (mem_append_left _ hitem)
        exact ⟨row, happend value hi, hc⟩
      · exact ⟨_, List.getElem?_concat_length, Std.ReflCmp.compare_self⟩
      · obtain ⟨row, hi, hc⟩ := h.row_of (mem_append_right _ hitem)
        exact ⟨row, happend value hi, hc⟩
    · intro i k v hi
      rcases hrows hi with hi | rfl
      · obtain ⟨k', hk'⟩ := h.item_of_live hi
        refine ⟨k', ?_⟩
        simp only [mem_append, mem_cons] at hk' ⊢
        tauto
      · exact ⟨key, mem_append_right _ mem_cons_self⟩

/-- Where compaction moves a live entry's item: to its rank, under the entry's
own key. -/
def moved (rows : List (Row K V)) (item : Nat × K) : Option (Nat × K) :=
  match rows[item.1]? with
  | some (key, some _) => some (rank rows item.1, key)
  | _ => none

omit [Ord K] [Std.TransOrd K] in
theorem moved_eq_some_iff {item item' : Nat × K} :
    moved rows item = some item' ↔ ∃ value, rows[item.1]? = some (item'.2, some value) ∧
      item'.1 = rank rows item.1 := by
  obtain ⟨i, key⟩ := item
  obtain ⟨j, key'⟩ := item'
  simp only [moved]
  constructor
  · intro hmoved
    split at hmoved
    · rename_i k v hrow
      obtain ⟨rfl, rfl⟩ : rank rows i = j ∧ k = key' := by simpa using hmoved
      exact ⟨v, hrow, rfl⟩
    · cases hmoved
  · rintro ⟨value, hrow, rfl⟩
    rw [hrow]

omit [Ord K] [Std.TransOrd K] in
theorem kept_eq_moved {row : Row K V} (hrow : rows[item.1]? = some row)
    (hnew : renumbered[item.1]? = some (newIndex rows item.1 row)) :
    kept renumbered item = (moved rows item).map Prod.fst := by
  obtain ⟨key, value⟩ := row
  cases value <;> simp [kept, hnew, newIndex, moved, hrow]

/-- Compaction's items index the rows that are left. -/
theorem Indexes.compact (h : Indexes items rows) :
    Indexes (items.filterMap (moved rows)) (rows.filter fun row => row.2.isSome) where
  sorted := by
    refine pairwise_filterMap.mpr (List.Pairwise.imp_of_mem ?_ h.sorted)
    intro x y hx hy hlt x' hx' y' hy'
    obtain ⟨v, hrow, -⟩ := moved_eq_some_iff.mp hx'
    obtain ⟨v', hrow', -⟩ := moved_eq_some_iff.mp hy'
    obtain ⟨row, hi, hcmp⟩ := h.row_of hx
    obtain ⟨row', hi', hcmp'⟩ := h.row_of hy
    obtain rfl := Option.some.inj (hrow.symm.trans hi)
    obtain rfl := Option.some.inj (hrow'.symm.trans hi')
    exact Std.TransCmp.lt_of_lt_of_eq
      (Std.TransCmp.lt_of_eq_of_lt (Std.OrientedCmp.eq_symm hcmp) hlt) hcmp'
  row_of := by
    intro item hitem
    obtain ⟨old, hold, hmoved⟩ := mem_filterMap.mp hitem
    obtain ⟨v, hrow, hrank⟩ := moved_eq_some_iff.mp hmoved
    exact ⟨_, by rw [hrank]; exact getElem?_filter_rank hrow, Std.ReflCmp.compare_self⟩
  item_of_live := by
    intro j key value hj
    obtain ⟨i, v, hi, -, hrank⟩ := exists_rank_of_getElem?_filter hj
    obtain ⟨k, hk⟩ := h.item_of_live hi
    exact ⟨key, mem_filterMap.mpr
      ⟨(i, k), hk, moved_eq_some_iff.mpr ⟨v, hi, hrank.symm⟩⟩⟩

end Indexes

end Wado.TreeMap
