/-
`TreeMap<K, V>`: an entry log, and a B-tree over it in key order whose nodes
hold entry indices.  Every node is a fixed-stride run in a few shared arrays.
-/
import Wado.EntryLogAssoc

namespace Wado

/-- Entries a node holds at most.  Odd, so a full node splits around its middle
entry into two halves of `nodeCap / 2`. -/
def nodeCap : Nat := 31

def nodeKids : Nat := nodeCap + 1

/-- Node `n` holds `lens[n]` entry indices, in key order, from
`slots[n * nodeCap]`, and above the leaves one more child than that from
`kids[n * nodeKids]`.  `nkeys[s]` is the key of entry `slots[s]`.  A `root` of
`none` is the source's `NO_NODE`; every leaf is `height` levels below it. -/
structure TreeMap (K V : Type) where
  log : EntryLog K V
  slots : List Nat
  nkeys : List (Option K)
  kids : List Nat
  lens : List Nat
  nodes : Nat
  root : Option Nat
  height : Nat
deriving Repr

namespace TreeMap

variable {K V : Type}

def new : TreeMap K V :=
  ⟨EntryLog.new, [], [], [], [], 0, none, 0⟩

def len (map : TreeMap K V) : Nat :=
  map.log.size

/-- The key at slot `at_`, a trap where the slot was never written. -/
def nkeyAt (map : TreeMap K V) (at_ : Nat) : Option K :=
  (GcArray.get map.nkeys at_).join

/-- `search_node`'s bisection of the slots from `base`, between `lo` and `hi`. -/
def bisect [Ord K] (map : TreeMap K V) (base : Nat) (key : K) (lo hi : Nat) : Option Int := do
  if lo < hi then
    let mid := (lo + hi) / 2
    match compare key (← map.nkeyAt (base + mid)) with
    | .lt => bisect map base key lo mid
    | .gt => bisect map base key (mid + 1) hi
    | .eq => return (mid : Int)
  else
    return -1 - (lo : Int)
termination_by hi - lo

/-- The slot of node `n` holding `key`, or `-1 - slot` for the slot it would
take. -/
def searchNode [Ord K] (map : TreeMap K V) (n : Nat) (key : K) : Option Int := do
  map.bisect (n * nodeCap) key 0 (← GcArray.get map.lens n)

/-- `find_index` from node `n`, `below` levels above the leaves. -/
def findFrom [Ord K] (map : TreeMap K V) (key : K) : Nat → Nat → Option Int
  | below, n => do
    let pos ← map.searchNode n key
    if pos ≥ 0 then
      let e ← GcArray.get map.slots (n * nodeCap + pos.toNat)
      return if ← GcArray.get map.log.alive e then (e : Int) else -1
    match below with
    | 0 => return -1
    | below + 1 =>
      let n ← GcArray.get map.kids (n * nodeKids + (-1 - pos).toNat)
      map.findFrom key below n

/-- The entry index of `key`, or -1 if the key is missing or its entry is dead. -/
def findIndex [Ord K] (map : TreeMap K V) (key : K) : Option Int :=
  match map.root with
  | none => some (-1)
  | some n => map.findFrom key map.height n

/-- Doubles the node capacity.  `kids` starts once there is room for a second
node, the first that can sit below another. -/
def growNodes (map : TreeMap K V) : Option (TreeMap K V) := do
  let cap := if map.nodes = 0 then 1 else map.nodes * 2
  let lens ← GcArray.copyFrom (List.replicate cap 0) 0 map.lens 0 map.nodes
  let slots ← GcArray.copyFrom (List.replicate (cap * nodeCap) 0) 0 map.slots 0
    (map.nodes * nodeCap)
  let nkeys ← GcArray.copyFrom (List.replicate (cap * nodeCap) none) 0 map.nkeys 0
    (map.nodes * nodeCap)
  let kids ← (if cap > 1 then
      GcArray.copyFrom (List.replicate (cap * nodeKids) 0) 0 map.kids 0 map.kids.length
    else
      some map.kids)
  return { map with lens, slots, nkeys, kids }

def newNode (map : TreeMap K V) : Option (Nat × TreeMap K V) := do
  let n := map.nodes
  let map ← (if n = map.lens.length then map.growNodes else some map)
  return (n, { map with lens := ← GcArray.set map.lens n 0, nodes := n + 1 })

def insertSlot (map : TreeMap K V) (n pos e : Nat) (key : K) : Option (TreeMap K V) := do
  let base := n * nodeCap
  let len ← GcArray.get map.lens n
  let slots ← GcArray.copyFrom map.slots (base + pos + 1) map.slots (base + pos) (len - pos)
  let nkeys ← GcArray.copyFrom map.nkeys (base + pos + 1) map.nkeys (base + pos) (len - pos)
  let slots ← GcArray.set slots (base + pos) e
  let nkeys ← GcArray.set nkeys (base + pos) (some key)
  let lens ← GcArray.set map.lens n (len + 1)
  return { map with slots, nkeys, lens }

/-- Splits the full child `i` of node `p`, which has room for one more entry:
the child's middle entry moves up into `p`, and its upper half into a new node
after it. -/
def splitChild (map : TreeMap K V) (p i : Nat) (leaf : Bool) : Option (TreeMap K V) := do
  let half := nodeCap / 2
  let (right, map) ← map.newNode
  let c ← GcArray.get map.kids (p * nodeKids + i)
  let cb := c * nodeCap
  let slots ← GcArray.copyFrom map.slots (right * nodeCap) map.slots (cb + half + 1) half
  let nkeys ← GcArray.copyFrom map.nkeys (right * nodeCap) map.nkeys (cb + half + 1) half
  let kids ← (if leaf then
      some map.kids
    else
      GcArray.copyFrom map.kids (right * nodeKids) map.kids (c * nodeKids + half + 1)
        (half + 1))
  let lens ← GcArray.set map.lens c half
  let lens ← GcArray.set lens right half
  let pb := p * nodeCap
  let plen ← GcArray.get lens p
  let slots ← GcArray.copyFrom slots (pb + i + 1) slots (pb + i) (plen - i)
  let nkeys ← GcArray.copyFrom nkeys (pb + i + 1) nkeys (pb + i) (plen - i)
  let slots ← GcArray.set slots (pb + i) (← GcArray.get slots (cb + half))
  let nkeys ← GcArray.set nkeys (pb + i) (some (← (GcArray.get nkeys (cb + half)).join))
  let kb := p * nodeKids
  let kids ← GcArray.copyFrom kids (kb + i + 2) kids (kb + i + 1) (plen - i)
  let kids ← GcArray.set kids (kb + i + 1) right
  let lens ← GcArray.set lens p (plen + 1)
  return { map with slots, nkeys, kids, lens }

/-- A root, with room for one more entry. -/
def makeRootRoom (map : TreeMap K V) : Option (TreeMap K V) :=
  match map.root with
  | none => do
    let (n, map) ← map.newNode
    return { map with root := some n }
  | some root => do
    if (← GcArray.get map.lens root) < nodeCap then
      return map
    let (top, map) ← map.newNode
    let map := { map with kids := ← GcArray.set map.kids (top * nodeKids) root }
    let map ← map.splitChild top 0 (map.height = 0)
    return { map with root := some top, height := map.height + 1 }

/-- The slot `at_` holds the key being placed: its entry if that one is live,
else -1 with the slot handed to `e`. -/
def claim (map : TreeMap K V) (at_ e : Nat) : Option (Int × TreeMap K V) := do
  let old ← GcArray.get map.slots at_
  if ← GcArray.get map.log.alive old then
    return ((old : Int), map)
  return (-1, { map with slots := ← GcArray.set map.slots at_ e })

/-- `place` from node `n`, which has room, `below` levels above the leaves. -/
def placeFrom [Ord K] (map : TreeMap K V) (key : K) (e : Nat) :
    Nat → Nat → Option (Int × TreeMap K V)
  | below, n => do
    let found ← map.searchNode n key
    if found ≥ 0 then
      return ← map.claim (n * nodeCap + found.toNat) e
    let pos := (-1 - found).toNat
    match below with
    | 0 => return (-1, ← map.insertSlot n pos e key)
    | below + 1 =>
      let child ← GcArray.get map.kids (n * nodeKids + pos)
      if (← GcArray.get map.lens child) = nodeCap then
        let map ← map.splitChild n pos (below = 0)
        match compare key (← map.nkeyAt (n * nodeCap + pos)) with
        | .lt => map.placeFrom key e below (← GcArray.get map.kids (n * nodeKids + pos))
        | .gt => map.placeFrom key e below (← GcArray.get map.kids (n * nodeKids + (pos + 1)))
        | .eq => map.claim (n * nodeCap + pos) e
      else
        map.placeFrom key e below child

attribute [grind =] placeFrom

/-- Puts `key` in the tree for entry `e`, which the caller appends, unless a
live entry holds it already: that entry's index, else -1.  One descent,
splitting each full node on the way down so a leaf always has room. -/
def place [Ord K] (map : TreeMap K V) (key : K) (e : Nat) : Option (Int × TreeMap K V) := do
  let map ← map.makeRootRoom
  map.placeFrom key e map.height (← map.root)

/-- `place_last` from node `n`, which has room, `below` levels above the leaves. -/
def placeLastFrom (map : TreeMap K V) (e : Nat) : Nat → Nat → Option (TreeMap K V)
  | 0, n => do
    map.insertSlot n (← GcArray.get map.lens n) e (← map.log.keyAt e)
  | below + 1, n => do
    let pos ← GcArray.get map.lens n
    let child ← GcArray.get map.kids (n * nodeKids + pos)
    if (← GcArray.get map.lens child) = nodeCap then
      let map ← map.splitChild n pos (below = 0)
      map.placeLastFrom e below (← GcArray.get map.kids (n * nodeKids + (pos + 1)))
    else
      map.placeLastFrom e below child

/-- Puts entry `e`, whose key orders after every key in the tree, last. -/
def placeLast (map : TreeMap K V) (e : Nat) : Option (TreeMap K V) := do
  let map ← map.makeRootRoom
  map.placeLastFrom e map.height (← map.root)

def push (map : TreeMap K V) (key : K) (value : V) : Option (TreeMap K V) := do
  return { map with log := ← map.log.push key value }

/-- The implementation behind `map[key] = value`. -/
def insert [Ord K] (map : TreeMap K V) (key : K) (value : V) : Option (TreeMap K V) := do
  let (existing, map) ← map.place key map.log.count
  if existing ≥ 0 then
    return { map with log := ← map.log.setValue existing.toNat value }
  map.push key value

/-- Inserts only if `key` is absent, and reports whether it was inserted. -/
def tryInsert [Ord K] (map : TreeMap K V) (key : K) (value : V) : Option (Bool × TreeMap K V) := do
  let (existing, map) ← map.place key map.log.count
  if existing ≥ 0 then
    return (false, map)
  return (true, ← map.push key value)

/-- The value already stored under `key`, or `value` inserted and returned. -/
def getOrInsert [Ord K] (map : TreeMap K V) (key : K) (value : V) : Option (V × TreeMap K V) := do
  let (existing, map) ← map.place key map.log.count
  if existing ≥ 0 then
    return (← map.log.readValue existing.toNat, map)
  return (value, ← map.push key value)

def containsKey [Ord K] (map : TreeMap K V) (key : K) : Option Bool := do
  return decide ((← map.findIndex key) ≥ 0)

def get [Ord K] (map : TreeMap K V) (key : K) : Option (Option V) := do
  map.log.valueAt (← map.findIndex key)

/-- Adds the entry at slot `at_` to `out`, renumbered, unless it was dropped. -/
def collectSlot (map : TreeMap K V) (renumbered : List Int) (at_ : Nat) (out : List Nat) :
    Option (List Nat) := do
  let e ← GcArray.get renumbered (← GcArray.get map.slots at_)
  return if e ≥ 0 then out ++ [e.toNat] else out

/-- The live entries below node `n`, renumbered, in key order, after `out`. -/
def collectInOrder (map : TreeMap K V) (renumbered : List Int) :
    Nat → Nat → List Nat → Option (List Nat)
  | 0, n, out => do
    (List.range (← GcArray.get map.lens n)).foldlM
      (fun out i => map.collectSlot renumbered (n * nodeCap + i) out) out
  | below + 1, n, out => do
    let len ← GcArray.get map.lens n
    let out ← (List.range len).foldlM
      (fun out i => do
        let out ← map.collectInOrder renumbered below
          (← GcArray.get map.kids (n * nodeKids + i)) out
        map.collectSlot renumbered (n * nodeCap + i) out) out
    map.collectInOrder renumbered below (← GcArray.get map.kids (n * nodeKids + len)) out

def clearTree (map : TreeMap K V) : TreeMap K V :=
  { map with
    slots := [], nkeys := [], kids := [], lens := [], nodes := 0, root := none, height := 0 }

/-- Drops the dead entries, and rebuilds the tree over the live ones from its
own key order, comparing no keys. -/
def compact (map : TreeMap K V) : Option (TreeMap K V) := do
  let (log, renumbered) ← map.log.compact
  let order ← map.collectInOrder renumbered map.height (← map.root) []
  order.foldlM placeLast { map.clearTree with log }

/-- Removes a key from the map and returns true if the key was present. -/
def remove [Ord K] (map : TreeMap K V) (key : K) : Option (Bool × TreeMap K V) := do
  let index ← map.findIndex key
  if index < 0 then
    return (false, map)
  let (log, full) ← map.log.kill index.toNat
  let map := { map with log }
  if full then
    return (true, ← map.compact)
  return (true, map)

def entries (map : TreeMap K V) : Option (List (K × V)) :=
  map.log.entries

/-- Removes all key-value pairs from the map. -/
def clear (map : TreeMap K V) : TreeMap K V :=
  { map.clearTree with log := map.log.clear }

/-- One operation, and what it returns. -/
def step [Ord K] (map : TreeMap K V) : MapOp K V → Option (MapAnswer V × TreeMap K V)
  | .assign key value => do
    return (.unit, ← map.insert key value)
  | .tryInsert key value => do
    let (inserted, map) ← map.tryInsert key value
    return (.bool inserted, map)
  | .getOrInsert key value => do
    let (value, map) ← map.getOrInsert key value
    return (.value value, map)
  | .remove key => do
    let (removed, map) ← map.remove key
    return (.bool removed, map)
  | .clear => some (.unit, map.clear)

def eq [BEq K] [BEq V] (map other : TreeMap K V) : Option Bool := map.log.eq other.log

def cmp [Ord K] [Ord V] (map other : TreeMap K V) : Option Ordering := map.log.cmp other.log

end TreeMap

end Wado
