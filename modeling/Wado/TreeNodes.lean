/-
The nodes of a `TreeMap` as runs in its shared arrays.  Each array operation of
the tree is the expected operation on the nodes it names, and leaves every other
node alone.
-/
import Wado.TreeMap

namespace Wado.TreeMap

open GcArray List Option

variable {K V : Type} {map : TreeMap K V}

/-- The arrays have room for one number of nodes, and `kids` none while that is
at most one. -/
structure Arrays (map : TreeMap K V) : Prop where
  length_slots : map.slots.length = map.lens.length * nodeCap
  length_nkeys : map.nkeys.length = map.lens.length * nodeCap
  length_kids : map.kids.length = if 1 < map.lens.length then map.lens.length * nodeKids else 0
  nodes_le : map.nodes ≤ map.lens.length

/-- Node `n` holds `items`, entry indices with their keys, and `kids`. -/
structure NodeAt (map : TreeMap K V) (n : Nat) (items : List (Nat × K))
    (kids : List Nat) : Prop where
  len_eq : map.lens[n]? = some items.length
  slots_run : Run map.slots (n * nodeCap) (items.map Prod.fst)
  nkeys_run : Run map.nkeys (n * nodeCap) (items.map fun item => some item.2)
  kids_run : Run map.kids (n * nodeKids) kids
  items_le : items.length ≤ nodeCap
  kids_le : kids.length ≤ nodeKids

/-- Every node that satisfies `p` is the same in `map'`. -/
def Keeps (map map' : TreeMap K V) (p : Nat → Prop) : Prop :=
  ∀ ⦃n : Nat⦄ ⦃items : List (Nat × K)⦄ ⦃kids : List Nat⦄,
    p n → NodeAt map n items kids → NodeAt map' n items kids

theorem Keeps.mono {map' : TreeMap K V} {p q : Nat → Prop} (h : Keeps map map' p)
    (hle : ∀ n, q n → p n) : Keeps map map' q :=
  fun n _ _ hn hat => h (hle n hn) hat

/-- Arrays that agree on a node's rows hold the same node there. -/
theorem NodeAt.congr {map' : TreeMap K V} {n : Nat} {items : List (Nat × K)}
    {kids : List Nat} (h : NodeAt map n items kids)
    (hlens : map'.lens[n]? = map.lens[n]?)
    (hslots : ∀ i < nodeCap, map'.slots[n * nodeCap + i]? = map.slots[n * nodeCap + i]?)
    (hnkeys : ∀ i < nodeCap, map'.nkeys[n * nodeCap + i]? = map.nkeys[n * nodeCap + i]?)
    (hkids : ∀ i < nodeKids, map'.kids[n * nodeKids + i]? = map.kids[n * nodeKids + i]?) :
    NodeAt map' n items kids where
  len_eq := hlens.trans h.len_eq
  slots_run := h.slots_run.congr fun i hi =>
    hslots i (by have := h.items_le; rw [length_map] at hi; omega)
  nkeys_run := h.nkeys_run.congr fun i hi =>
    hnkeys i (by have := h.items_le; rw [length_map] at hi; omega)
  kids_run := h.kids_run.congr fun i hi => hkids i (by have := h.kids_le; omega)
  items_le := h.items_le
  kids_le := h.kids_le

theorem NodeAt.slot_eq {n i : Nat} {items : List (Nat × K)} {kids : List Nat}
    {item : Nat × K} (h : NodeAt map n items kids) (hi : items[i]? = some item) :
    GcArray.get map.slots (n * nodeCap + i) = some item.1 :=
  h.slots_run.get_eq (by simp [hi])

variable {items : List (Nat × K)} {kids : List Nat}

theorem NodeAt.nkeyAt_eq {n i : Nat}
    {item : Nat × K} (h : NodeAt map n items kids) (hi : items[i]? = some item) :
    map.nkeyAt (n * nodeCap + i) = some item.2 := by
  rw [nkeyAt, h.nkeys_run.get_eq (x := some item.2) (by simp [hi])]
  rfl

theorem NodeAt.kid_eq {n i : Nat} {kid : Nat}
    (h : NodeAt map n items kids) (hi : kids[i]? = some kid) :
    GcArray.get map.kids (n * nodeKids + i) = some kid :=
  h.kids_run.get_eq hi

theorem new_arrays : (new : TreeMap K V).Arrays := by
  constructor <;> simp [new]

/-- Doubling the capacity keeps the nodes there are. -/
theorem growNodes_eq_some (h : map.Arrays) (hfull : map.nodes = map.lens.length) :
    ∃ map', map.growNodes = some map' ∧ map'.Arrays ∧ map.nodes < map'.lens.length ∧
      map'.nodes = map.nodes ∧ map'.log = map.log ∧ map'.root = map.root ∧
      map'.height = map.height ∧ Keeps map map' (· < map.nodes) := by
  have hslots := h.length_slots
  have hnkeys := h.length_nkeys
  have hkids := h.length_kids
  simp only [nodeCap, nodeKids] at hslots hnkeys hkids
  let cap := if map.nodes = 0 then 1 else map.nodes * 2
  have hcap : map.nodes < cap := by simp only [cap]; split <;> omega
  obtain ⟨lens, hlens⟩ : ∃ lens, copyFrom (List.replicate cap 0) 0 map.lens 0 map.nodes =
      some lens := ⟨_, copyFrom_of_le (by simp; omega) (by omega)⟩
  obtain ⟨slots, hslots'⟩ : ∃ slots, copyFrom (List.replicate (cap * nodeCap) 0) 0
      map.slots 0 (map.nodes * nodeCap) = some slots :=
    ⟨_, copyFrom_of_le (by simp [nodeCap]; omega) (by simp only [nodeCap]; omega)⟩
  obtain ⟨nkeys, hnkeys'⟩ : ∃ nkeys, copyFrom (List.replicate (cap * nodeCap) none) 0
      map.nkeys 0 (map.nodes * nodeCap) = some nkeys :=
    ⟨_, copyFrom_of_le (by simp [nodeCap]; omega) (by simp only [nodeCap]; omega)⟩
  obtain ⟨kids, hkids', hklen, hkeep⟩ : ∃ kids, (if cap > 1 then
      copyFrom (List.replicate (cap * nodeKids) 0) 0 map.kids 0 map.kids.length
      else some map.kids) = some kids ∧
      kids.length = (if 1 < cap then cap * nodeKids else 0) ∧
      ∀ {j : Nat} {x : Nat}, map.kids[j]? = some x → kids[j]? = some x := by
    by_cases hone : cap > 1
    · have hfits : map.kids.length ≤ cap * 32 := by
        rw [hkids]
        split <;> omega
      obtain ⟨kids, hcopy⟩ : ∃ kids, copyFrom (List.replicate (cap * nodeKids) 0) 0
          map.kids 0 map.kids.length = some kids :=
        ⟨_, copyFrom_of_le (by simp [nodeKids, nodeCap]; omega) (by omega)⟩
      refine ⟨kids, by rw [if_pos hone, hcopy], ?_, ?_⟩
      · rw [if_pos (by omega), length_of_copyFrom_eq_some hcopy, length_replicate]
      · intro j x hj
        have hlt := (List.getElem?_eq_some_iff.mp hj).1
        rw [getElem?_of_copyFrom_eq_some hcopy, if_pos (by omega)]
        simpa using hj
    · refine ⟨map.kids, by rw [if_neg hone], ?_, id⟩
      have hsmall : ¬ 1 < map.lens.length := by omega
      rw [if_neg (by omega), hkids, if_neg hsmall]
  have hl₁ := length_of_copyFrom_eq_some hlens
  have hl₂ := length_of_copyFrom_eq_some hslots'
  have hl₃ := length_of_copyFrom_eq_some hnkeys'
  rw [length_replicate] at hl₁ hl₂ hl₃
  refine ⟨{ map with lens, slots, nkeys, kids }, ?_, ?_, by simp only; omega, rfl, rfl, rfl,
    rfl, ?_⟩
  · simp only [growNodes, bind_eq_bind]
    rw [hlens, bind_some, hslots', bind_some, hnkeys', bind_some]
    rw [hkids']
    rfl
  · constructor
    · simp only [hl₂, hl₁]
    · simp only [hl₃, hl₁]
    · simp only [hklen, hl₁]
    · simp only [hl₁]; omega
  · intro n items kids₀ hn hat
    have hat_le := hat.items_le
    simp only [nodeCap] at hat_le
    constructor
    · rw [getElem?_of_copyFrom_eq_some hlens, if_pos (by omega)]
      simpa using hat.len_eq
    · refine hat.slots_run.congr fun i hi => ?_
      rw [length_map] at hi
      rw [getElem?_of_copyFrom_eq_some hslots', if_pos (by simp only [nodeCap]; omega)]
      simp
    · refine hat.nkeys_run.congr fun i hi => ?_
      rw [length_map] at hi
      rw [getElem?_of_copyFrom_eq_some hnkeys', if_pos (by simp only [nodeCap]; omega)]
      simp
    · exact fun i x hi => hkeep (hat.kids_run hi)
    · exact hat.items_le
    · exact hat.kids_le

/-- A new node is empty, and takes the next number. -/
theorem newNode_eq_some (h : map.Arrays) :
    ∃ map', map.newNode = some (map.nodes, map') ∧ map'.Arrays ∧
      map'.nodes = map.nodes + 1 ∧ map'.log = map.log ∧ map'.root = map.root ∧
      map'.height = map.height ∧ NodeAt map' map.nodes [] [] ∧
      Keeps map map' (· < map.nodes) := by
  obtain ⟨roomy, hroomy, harrays, hlt, hnodes, hlog, hroot, hheight, hkeeps⟩ :
      ∃ roomy, (if map.nodes = map.lens.length then map.growNodes else some map) =
          some roomy ∧ roomy.Arrays ∧ map.nodes < roomy.lens.length ∧
        roomy.nodes = map.nodes ∧ roomy.log = map.log ∧ roomy.root = map.root ∧
        roomy.height = map.height ∧ Keeps map roomy (· < map.nodes) := by
    by_cases hfull : map.nodes = map.lens.length
    · rw [if_pos hfull]
      exact growNodes_eq_some h hfull
    · rw [if_neg hfull]
      have := h.nodes_le
      exact ⟨map, rfl, h, by omega, rfl, rfl, rfl, rfl, fun _ _ _ _ hat => hat⟩
  refine ⟨{ roomy with lens := roomy.lens.set map.nodes 0, nodes := map.nodes + 1 },
    ?_, ?_, rfl, hlog, hroot, hheight, ?_, ?_⟩
  · simp only [newNode, hroomy, bind_eq_bind, bind_some]
    rw [GcArray.set_of_lt hlt]
    rfl
  · constructor
    · simpa using harrays.length_slots
    · simpa using harrays.length_nkeys
    · simpa using harrays.length_kids
    · simp only [length_set]; omega
  · exact ⟨List.getElem?_set_self hlt, run_nil _ _, run_nil _ _, run_nil _ _,
      Nat.zero_le _, Nat.zero_le _⟩
  · intro n items kids hn hat
    refine (hkeeps hn hat).congr ?_ (fun _ _ => rfl) (fun _ _ => rfl) (fun _ _ => rfl)
    exact List.getElem?_set_ne (Nat.ne_of_gt hn)

theorem NodeAt.lt_length {n : Nat} (h : NodeAt map n items kids) : n < map.lens.length :=
  (List.getElem?_eq_some_iff.mp h.len_eq).1

/-- `insert_slot` puts an item at `pos` of a node with room. -/
theorem insertSlot_eq_some (h : map.Arrays) {n pos : Nat}
    (hat : NodeAt map n items kids) (hroom : items.length < nodeCap)
    (hpos : pos ≤ items.length) (e : Nat) (key : K) :
    ∃ map', map.insertSlot n pos e key = some map' ∧ map'.Arrays ∧
      map'.nodes = map.nodes ∧ map'.log = map.log ∧ map'.root = map.root ∧
      map'.height = map.height ∧
      NodeAt map' n (items.take pos ++ (e, key) :: items.drop pos) kids ∧
      Keeps map map' (· ≠ n) := by
  have hlt := hat.lt_length
  have hslots := h.length_slots
  have hnkeys := h.length_nkeys
  simp only [nodeCap] at hslots hnkeys hroom
  obtain ⟨slots₁, slots₂, hs₁, hs₂, hslen, hsget⟩ := exists_shift
    map.slots (n * nodeCap + pos) (items.length - pos) (by simp only [nodeCap]; omega) e
  obtain ⟨nkeys₁, nkeys₂, hk₁, hk₂, hklen, hkget⟩ := exists_shift
    map.nkeys (n * nodeCap + pos) (items.length - pos) (by simp only [nodeCap]; omega) (some key)
  refine ⟨{ map with
    slots := slots₂, nkeys := nkeys₂, lens := map.lens.set n (items.length + 1) },
    ?_, ?_, rfl, rfl, rfl, rfl, ?_, ?_⟩
  · have hlen : GcArray.get map.lens n = some items.length := hat.len_eq
    simp only [insertSlot, hlen, bind_eq_bind, bind_some, hs₁, hs₂, hk₁, hk₂]
    rw [GcArray.set_of_lt hlt]
    rfl
  · constructor
    · simpa [hslen] using h.length_slots
    · simpa [hklen] using h.length_nkeys
    · simpa using h.length_kids
    · simpa using h.nodes_le
  · have hlen : (items.take pos ++ (e, key) :: items.drop pos).length = items.length + 1 := by
      simp
      omega
    constructor
    · rw [hlen]
      exact List.getElem?_set_self hlt
    · have := Run.shift hat.slots_run (x := e) (by simpa using hpos : pos ≤ _)
        (by simpa using hsget)
      simpa using this
    · have := Run.shift hat.nkeys_run (x := some key) (by simpa using hpos : pos ≤ _)
        (by simpa using hkget)
      simpa using this
    · exact hat.kids_run
    · rw [hlen]
      exact hroom
    · exact hat.kids_le
  · intro n' items' kids' hne hat'
    refine hat'.congr (List.getElem?_set_ne (Ne.symm hne)) ?_ ?_ (fun _ _ => rfl)
    · intro i hi
      simp only [nodeCap] at hi
      rw [hsget, if_neg (by simp only [nodeCap]; omega), if_neg (by simp only [nodeCap]; omega)]
    · intro i hi
      simp only [nodeCap] at hi
      rw [hkget, if_neg (by simp only [nodeCap]; omega), if_neg (by simp only [nodeCap]; omega)]

variable {p c right i : Nat}

/-- What a split does to one array of rows: the upper half of row `c` goes to
row `right`, and its middle element into row `p` at `i`. -/
theorem exists_splitRow {α : Type} {xs : List α} {parent child : List α} {mid : α}
    (hparent : Run xs (p * nodeCap) parent) (hchild : Run xs (c * nodeCap) child)
    (hp : p < right) (hc : c < right) (hne : p ≠ c) (hlen : (right + 1) * nodeCap ≤ xs.length)
    (hroom : parent.length < nodeCap) (hfull : child.length = nodeCap)
    (hi : i ≤ parent.length) (hmid : child[nodeCap / 2]? = some mid) :
    ∃ xs₁ xs₂ xs₃, copyFrom xs (right * nodeCap) xs (c * nodeCap + nodeCap / 2 + 1) (nodeCap / 2) =
        some xs₁ ∧
      copyFrom xs₁ (p * nodeCap + i + 1) xs₁ (p * nodeCap + i) (parent.length - i) = some xs₂ ∧
      GcArray.get xs₂ (c * nodeCap + nodeCap / 2) = some mid ∧
      GcArray.set xs₂ (p * nodeCap + i) mid = some xs₃ ∧
      xs₃.length = xs.length ∧
      Run xs₃ (p * nodeCap) (parent.take i ++ mid :: parent.drop i) ∧
      Run xs₃ (c * nodeCap) (child.take (nodeCap / 2)) ∧
      Run xs₃ (right * nodeCap) (child.drop (nodeCap / 2 + 1)) ∧
      ∀ n, n < right → n ≠ p → n ≠ c → ∀ j < nodeCap,
        xs₃[n * nodeCap + j]? = xs[n * nodeCap + j]? := by
  simp only [nodeCap, Nat.reduceDiv, Nat.reduceAdd] at *
  obtain ⟨xs₁, hxs₁⟩ : ∃ xs₁, copyFrom xs (right * 31) xs (c * 31 + 15 + 1) 15 = some xs₁ :=
    ⟨_, copyFrom_of_le (by omega) (by omega)⟩
  have hlen₁ := length_of_copyFrom_eq_some hxs₁
  have hget₁ : ∀ j : Nat, j < right * 31 → xs₁[j]? = xs[j]? := by
    intro j hj
    rw [getElem?_of_copyFrom_eq_some hxs₁, if_neg (by omega)]
  obtain ⟨xs₂, xs₃, hxs₂, hxs₃, hlen₃, hget₃⟩ := exists_shift
    xs₁ (p * 31 + i) (parent.length - i) (by omega) mid
  -- Outside the parent's row the shift changes nothing.
  have houter : ∀ j : Nat, j < p * 31 ∨ (p + 1) * 31 ≤ j → xs₃[j]? = xs₁[j]? := by
    intro j hj
    rw [hget₃, if_neg (by omega), if_neg (by omega)]
  have hupper : Run xs₁ (right * 31) (child.drop 16) := by
    have hlength : (child.drop 16).length = 15 := by simp [hfull]
    refine @Run.copy _ xs _ _ _ _ _ (hchild.drop 16) ?_
    rw [hlength]
    exact hxs₁
  refine ⟨xs₁, xs₂, xs₃, hxs₁, hxs₂, ?_, hxs₃, by omega, ?_, ?_, ?_, ?_⟩
  · have hmid₂ := getElem?_of_copyFrom_eq_some hxs₂ (c * 31 + 15)
    rw [if_neg (by omega), hget₁ _ (by omega)] at hmid₂
    exact hmid₂.trans (hchild hmid)
  · exact (hparent.congr fun j hj => hget₁ _ (by omega)).shift hi hget₃
  · refine (hchild.take 15).congr fun j hj => ?_
    rw [length_take] at hj
    rw [houter _ (by omega), hget₁ _ (by omega)]
  · refine hupper.congr fun j hj => ?_
    rw [length_drop] at hj
    exact houter _ (by omega)
  · intro n hn hnp hnc j hj
    rw [houter _ (by omega), hget₁ _ (by omega)]

/-- What a split does to the children: those after the middle go to row `right`,
unless the split node is a leaf, and `right` itself into row `p` after `i`. -/
theorem exists_splitKids {xs : List Nat} {parent child : List Nat} {leaf : Bool}
    (hparent : Run xs (p * nodeKids) parent) (hchild : Run xs (c * nodeKids) child)
    (hp : p < right) (hc : c < right) (hne : p ≠ c) (hlen : (right + 1) * nodeKids ≤ xs.length)
    (hroom : parent.length < nodeKids)
    (hfull : child.length = if leaf then 0 else nodeKids)
    (hi : i < parent.length) :
    ∃ xs₁ xs₂ xs₃, (if leaf then some xs else
        copyFrom xs (right * nodeKids) xs (c * nodeKids + nodeCap / 2 + 1)
          (nodeCap / 2 + 1)) = some xs₁ ∧
      copyFrom xs₁ (p * nodeKids + i + 2) xs₁ (p * nodeKids + i + 1)
        (parent.length - 1 - i) = some xs₂ ∧
      GcArray.set xs₂ (p * nodeKids + i + 1) right = some xs₃ ∧
      xs₃.length = xs.length ∧
      Run xs₃ (p * nodeKids) (parent.take (i + 1) ++ right :: parent.drop (i + 1)) ∧
      Run xs₃ (c * nodeKids) (child.take (nodeCap / 2 + 1)) ∧
      Run xs₃ (right * nodeKids) (child.drop (nodeCap / 2 + 1)) ∧
      ∀ n, n < right → n ≠ p → n ≠ c → ∀ j < nodeKids,
        xs₃[n * nodeKids + j]? = xs[n * nodeKids + j]? := by
  simp only [nodeKids, nodeCap, Nat.reduceDiv, Nat.reduceAdd] at *
  obtain ⟨xs₁, hxs₁, hlen₁, hget₁, hupper⟩ : ∃ xs₁, (if leaf then some xs else
      copyFrom xs (right * 32) xs (c * 32 + 15 + 1) 16) = some xs₁ ∧
      xs₁.length = xs.length ∧ (∀ j : Nat, j < right * 32 → xs₁[j]? = xs[j]?) ∧
      Run xs₁ (right * 32) (child.drop 16) := by
    cases leaf with
    | true =>
      have hnil : child = [] := eq_nil_of_length_eq_zero (by simpa using hfull)
      exact ⟨xs, rfl, rfl, fun _ _ => rfl, by rw [hnil]; exact run_nil _ _⟩
    | false =>
      have hlength : (child.drop 16).length = 16 := by simp [hfull]
      obtain ⟨xs₁, hxs₁⟩ : ∃ xs₁, copyFrom xs (right * 32) xs (c * 32 + 15 + 1) 16 = some xs₁ :=
        ⟨_, copyFrom_of_le (by omega) (by omega)⟩
      refine ⟨xs₁, by simpa using hxs₁, length_of_copyFrom_eq_some hxs₁, ?_, ?_⟩
      · intro j hj
        rw [getElem?_of_copyFrom_eq_some hxs₁, if_neg (by omega)]
      · refine @Run.copy _ xs _ _ _ _ _ (hchild.drop 16) ?_
        rw [hlength]
        exact hxs₁
  have hchild_le : child.length ≤ 32 := by
    rw [hfull]
    split <;> omega
  obtain ⟨xs₂, xs₃, hxs₂, hxs₃, hlen₃, hget₃⟩ := exists_shift
    xs₁ (p * 32 + i + 1) (parent.length - 1 - i) (by omega) right
  have houter : ∀ j : Nat, j < p * 32 ∨ (p + 1) * 32 ≤ j → xs₃[j]? = xs₁[j]? := by
    intro j hj
    rw [hget₃, if_neg (by omega), if_neg (by omega)]
  refine ⟨xs₁, xs₂, xs₃, hxs₁, hxs₂, hxs₃, by omega, ?_, ?_, ?_, ?_⟩
  · refine (hparent.congr fun j hj => hget₁ _ (by omega)).shift (by omega) ?_
    rw [show parent.length - (i + 1) = parent.length - 1 - i by omega]
    exact hget₃
  · refine (hchild.take 16).congr fun j hj => ?_
    rw [length_take] at hj
    rw [houter _ (by omega), hget₁ _ (by omega)]
  · refine hupper.congr fun j hj => ?_
    rw [length_drop] at hj
    exact houter _ (by omega)
  · intro n hn hnp hnc j hj
    rw [houter _ (by omega), hget₁ _ (by omega)]

/-- Splitting the full child `i` of `p` around its middle item: `p` gains the
item and the new node, which takes the child's upper half. -/
theorem splitChild_eq_some (h : map.Arrays) {p c i : Nat} {items citems : List (Nat × K)}
    {kids ckids : List Nat} {leaf : Bool} {mid : Nat × K}
    (hp : NodeAt map p items kids) (hc : NodeAt map c citems ckids)
    (hpn : p < map.nodes) (hcn : c < map.nodes) (hne : p ≠ c)
    (hroom : items.length < nodeCap) (hkids : kids.length = items.length + 1)
    (hi : kids[i]? = some c) (hfull : citems.length = nodeCap)
    (hleaf : ckids.length = if leaf then 0 else nodeKids)
    (hmid : citems[nodeCap / 2]? = some mid) :
    ∃ map', map.splitChild p i leaf = some map' ∧ map'.Arrays ∧
      map'.nodes = map.nodes + 1 ∧ map'.log = map.log ∧ map'.root = map.root ∧
      map'.height = map.height ∧
      NodeAt map' p (items.take i ++ mid :: items.drop i)
        (kids.take (i + 1) ++ map.nodes :: kids.drop (i + 1)) ∧
      NodeAt map' c (citems.take (nodeCap / 2)) (ckids.take (nodeCap / 2 + 1)) ∧
      NodeAt map' map.nodes (citems.drop (nodeCap / 2 + 1)) (ckids.drop (nodeCap / 2 + 1)) ∧
      Keeps map map' (fun n => n < map.nodes ∧ n ≠ p ∧ n ≠ c) := by
  have hik := (List.getElem?_eq_some_iff.mp hi).1
  obtain ⟨fresh, hfresh, harrays, hnodes, hlog, hroot, hheight, hright, hkeeps⟩ :=
    newNode_eq_some h
  have hp' := hkeeps hpn hp
  have hc' := hkeeps hcn hc
  have hrlt := hright.lt_length
  have hslots := harrays.length_slots
  have hnkeys := harrays.length_nkeys
  have hkidslen := harrays.length_kids
  have hpos : 0 < map.nodes := by omega
  rw [if_pos (by omega)] at hkidslen
  have hnkid : (map.nodes + 1) * nodeKids ≤ fresh.kids.length := by
    rw [hkidslen]
    exact Nat.mul_le_mul_right _ hrlt
  have hnslot : (map.nodes + 1) * nodeCap ≤ fresh.slots.length := by
    rw [hslots]
    exact Nat.mul_le_mul_right _ hrlt
  have hnkey : (map.nodes + 1) * nodeCap ≤ fresh.nkeys.length := by
    rw [hnkeys]
    exact Nat.mul_le_mul_right _ hrlt
  obtain ⟨slots₁, slots₂, slots₃, hs₁, hs₂, hsmid, hs₃, hslen, hsp, hsc, hsr, hskeep⟩ :=
    exists_splitRow hp'.slots_run hc'.slots_run hpn hcn hne hnslot
      (by simpa using hroom) (by simpa using hfull) (i := i) (by simp; omega)
      (by simp [hmid] : _ = some mid.1)
  obtain ⟨nkeys₁, nkeys₂, nkeys₃, hk₁, hk₂, hkmid, hk₃, hklen, hkp, hkc, hkr, hkkeep⟩ :=
    exists_splitRow hp'.nkeys_run hc'.nkeys_run hpn hcn hne hnkey
      (by simpa using hroom) (by simpa using hfull) (i := i) (by simp; omega)
      (by simp [hmid] : _ = some (some mid.2))
  obtain ⟨kids₁, kids₂, kids₃, hd₁, hd₂, hd₃, hdlen, hdp, hdc, hdr, hdkeep⟩ :=
    exists_splitKids hp'.kids_run hc'.kids_run hpn hcn hne hnkid
      (by rw [nodeKids]; omega) hleaf hik
  rw [hkids, Nat.add_sub_cancel] at hd₂
  rw [length_map] at hs₂ hk₂
  have hplt := hp'.lt_length
  have hclt := hc'.lt_length
  let lens := ((fresh.lens.set c (nodeCap / 2)).set map.nodes (nodeCap / 2)).set p
    (items.length + 1)
  -- The three lengths the split writes, and every other length.
  have hlens_p : lens[p]? = some (items.length + 1) :=
    List.getElem?_set_self (by simpa using hplt)
  have hlens_right : lens[map.nodes]? = some (nodeCap / 2) := by
    rw [List.getElem?_set_ne (by omega), List.getElem?_set_self (by simpa using hrlt)]
  have hlens_c : lens[c]? = some (nodeCap / 2) := by
    rw [List.getElem?_set_ne hne, List.getElem?_set_ne (by omega), List.getElem?_set_self hclt]
  have hlens_other : ∀ n < map.nodes, n ≠ p → n ≠ c → lens[n]? = fresh.lens[n]? := by
    intro n hn hnp hnc
    rw [List.getElem?_set_ne (Ne.symm hnp), List.getElem?_set_ne (by omega),
      List.getElem?_set_ne (Ne.symm hnc)]
  refine ⟨{ fresh with slots := slots₃, nkeys := nkeys₃, kids := kids₃, lens },
    ?_, ?_, hnodes, hlog, hroot, hheight, ?_, ?_, ?_, ?_⟩
  · have hkid := hp'.kid_eq hi
    have hlen : GcArray.get ((fresh.lens.set c (nodeCap / 2)).set map.nodes (nodeCap / 2)) p =
        some items.length := by
      rw [get_eq_some_iff, List.getElem?_set_ne (by omega), List.getElem?_set_ne (Ne.symm hne)]
      exact hp'.len_eq
    unfold splitChild
    dsimp only []
    rw [bind_of_eq_some hfresh, bind_of_eq_some hkid, bind_of_eq_some hs₁, bind_of_eq_some hk₁,
      bind_of_eq_some hd₁, bind_of_eq_some (GcArray.set_of_lt hclt _),
      bind_of_eq_some (GcArray.set_of_lt (by simpa using hrlt) _), bind_of_eq_some hlen,
      bind_of_eq_some hs₂, bind_of_eq_some hk₂, bind_of_eq_some hsmid, bind_of_eq_some hs₃,
      hkmid, join_some, bind_of_eq_some rfl, bind_of_eq_some hk₃, bind_of_eq_some hd₂,
      bind_of_eq_some hd₃, bind_of_eq_some (GcArray.set_of_lt (by simpa using hplt) _)]
    rfl
  · constructor
    · simpa [lens, hslen] using harrays.length_slots
    · simpa [lens, hklen] using harrays.length_nkeys
    · simpa [lens, hdlen] using harrays.length_kids
    · simpa [lens] using harrays.nodes_le
  · have hlen : (items.take i ++ mid :: items.drop i).length = items.length + 1 := by
      simp
      omega
    constructor
    · rw [hlen]
      exact hlens_p
    · simpa using hsp
    · simpa using hkp
    · exact hdp
    · omega
    · simp only [length_append, length_cons, length_take, length_drop]
      rw [nodeKids]
      omega
  · have hlen : (citems.take (nodeCap / 2)).length = nodeCap / 2 := by
      rw [length_take]
      omega
    constructor
    · rw [hlen]
      exact hlens_c
    · simpa using hsc
    · simpa using hkc
    · exact hdc
    · omega
    · have := hc.kids_le
      rw [length_take]
      omega
  · have hlen : (citems.drop (nodeCap / 2 + 1)).length = nodeCap / 2 := by
      rw [length_drop, hfull]
      rfl
    constructor
    · rw [hlen]
      exact hlens_right
    · simpa using hsr
    · simpa using hkr
    · exact hdr
    · omega
    · have := hc.kids_le
      rw [length_drop]
      omega
  · rintro n items' kids' ⟨hn, hnp, hnc⟩ hat
    exact (hkeeps hn hat).congr (hlens_other n hn hnp hnc) (hskeep n hn hnp hnc)
      (hkkeep n hn hnp hnc) (hdkeep n hn hnp hnc)

end Wado.TreeMap
