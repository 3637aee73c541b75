/-
The entry log `TreeMap` and `HashMap` keep in insertion order.  A removal only
marks an entry dead; `compact` drops the dead and renumbers the rest.  The log
is read as a list of rows, a dead row being a key without its value.
-/
import Mathlib.Data.List.Range
import Wado.GcArray

namespace Wado

variable {K V : Type}

/-- Entries in insertion order, one array per field.  A slot of `keys` or
`values` nothing was written to is `none`, and reading it traps. -/
structure EntryLog (K V : Type) where
  keys : List (Option K)
  values : List (Option V)
  alive : List Bool
  count : Nat
  size : Nat
  deletedCount : Nat
deriving Repr

namespace EntryLog

def new : EntryLog K V :=
  ⟨[], [], [], 0, 0, 0⟩

/-- Room for `cap` entries, the `count` there are kept. -/
def grow (log : EntryLog K V) (cap : Nat) : Option (EntryLog K V) := do
  let keys ← GcArray.copyFrom (List.replicate cap none) 0 log.keys 0 log.count
  let values ← GcArray.copyFrom (List.replicate cap none) 0 log.values 0 log.count
  let alive ← GcArray.copyFrom (List.replicate cap false) 0 log.alive 0 log.count
  return { log with keys, values, alive }

/-- Room for one more entry, doubling the capacity where there is none. -/
def makeRoom (log : EntryLog K V) : Option (EntryLog K V) :=
  if log.count = log.keys.length then log.grow (max 4 (log.count * 2)) else some log

/-- Appends a live entry as index `count`. -/
def push (log : EntryLog K V) (key : K) (value : V) : Option (EntryLog K V) := do
  let e := log.count
  let log ← log.makeRoom
  let keys ← GcArray.set log.keys e (some key)
  let values ← GcArray.set log.values e (some value)
  let alive ← GcArray.set log.alive e true
  return { log with keys, values, alive, count := e + 1, size := log.size + 1 }

/-- Marks the live entry `e` dead and releases its value, and reports whether
the dead now outnumber the live enough to `compact`. -/
def kill (log : EntryLog K V) (e : Nat) : Option (EntryLog K V × Bool) := do
  guard (log.alive[e]? = some true)
  let alive ← GcArray.set log.alive e false
  let values ← GcArray.set log.values e none
  let deletedCount := log.deletedCount + 1
  let size := log.size - 1
  return ({ log with alive, values, deletedCount, size },
    decide (deletedCount > size ∧ deletedCount > 4))

/-- The arrays `compact` fills, and how many live entries it has moved. -/
structure Compacting (K V : Type) where
  renumbered : List Int
  keys : List (Option K)
  values : List (Option V)
  live : Nat

def compactStep (log : EntryLog K V) (c : Compacting K V) (i : Nat) : Option (Compacting K V) := do
  if (← GcArray.get log.alive i) then
    let renumbered ← GcArray.set c.renumbered i (c.live : Int)
    let keys ← GcArray.set c.keys c.live (← GcArray.get log.keys i)
    let values ← GcArray.set c.values c.live (← GcArray.get log.values i)
    return ⟨renumbered, keys, values, c.live + 1⟩
  else
    return c

/-- Drops the dead entries, keeping the rest in order.  Answers each old
index's new one, -1 for a dropped entry. -/
def compact (log : EntryLog K V) : Option (EntryLog K V × List Int) := do
  let c ← (List.range log.count).foldlM log.compactStep
    ⟨List.replicate log.count (-1), List.replicate log.size none, List.replicate log.size none, 0⟩
  return (⟨c.keys, c.values, List.replicate log.size true, log.size, log.size, 0⟩, c.renumbered)

def clear (_ : EntryLog K V) : EntryLog K V :=
  ⟨[], [], [], 0, 0, 0⟩

/-- The key of entry `e`, a trap where the slot was never written. -/
def keyAt (log : EntryLog K V) (e : Nat) : Option K :=
  (GcArray.get log.keys e).join

/-- The write behind `self.log.values[e] = value`. -/
def setValue (log : EntryLog K V) (e : Nat) (value : V) : Option (EntryLog K V) := do
  return { log with values := ← GcArray.set log.values e (some value) }

/-- The read behind `self.log.values[e]`. -/
def readValue (log : EntryLog K V) (e : Nat) : Option V :=
  (GcArray.get log.values e).join

/-- The value of entry `e`, which a lookup answered, or null for its miss. -/
def valueAt (log : EntryLog K V) (e : Int) : Option (Option V) :=
  if e < 0 then some none else (log.readValue e.toNat).map some

/-- The first live entry from `i` on, `fuel` being how many are left. -/
def nextLiveFrom (log : EntryLog K V) : Nat → Nat → Option Nat
  | 0, i => some i
  | fuel + 1, i => do
    if (← GcArray.get log.alive i) then return i
    else nextLiveFrom log fuel (i + 1)

/-- The first live entry from `i` on, or `count` for none.  A log nothing was
removed from has no dead entry to skip. -/
def nextLive (log : EntryLog K V) (i : Nat) : Option Nat :=
  if log.deletedCount > 0 then log.nextLiveFrom (log.count - i) i else some i

/-- One `next` of the entries iterator at `index`: the pair it yields with the
index it goes on from, or null at the end. -/
def entriesNext (log : EntryLog K V) (index : Nat) : Option (Option ((K × V) × Nat)) := do
  let i ← log.nextLive index
  if i ≥ log.count then return none
  return some ((← log.keyAt i, ← log.readValue i), i + 1)

/-- What the iterator yields from `index` on, in at most `fuel` calls. -/
def entriesFrom (log : EntryLog K V) : Nat → Nat → Option (List (K × V))
  | 0, _ => none
  | fuel + 1, index => do
    match ← log.entriesNext index with
    | none => return []
    | some (pair, index) => return pair :: (← entriesFrom log fuel index)

/-- The sequence `entries` yields. -/
def entries (log : EntryLog K V) : Option (List (K × V)) :=
  log.entriesFrom (log.count + 1) 0

/-- The loop of `eq`, from entry `i` of one log and `j` of the other. -/
def eqFrom [BEq K] [BEq V] (log other : EntryLog K V) : Nat → Nat → Nat → Option Bool
  | 0, _, _ => none
  | fuel + 1, i, j => do
    if i < log.count then
      if (← log.keyAt i) != (← other.keyAt j) then return false
      if (← log.readValue i) != (← other.readValue j) then return false
      eqFrom log other fuel (← log.nextLive (i + 1)) (← other.nextLive (j + 1))
    else return true

def eq [BEq K] [BEq V] (log other : EntryLog K V) : Option Bool := do
  if log.size ≠ other.size then return false
  log.eqFrom other (log.count + 1) (← log.nextLive 0) (← other.nextLive 0)

def cmpFrom [Ord K] [Ord V] (log other : EntryLog K V) : Nat → Nat → Nat → Option Ordering
  | 0, _, _ => none
  | fuel + 1, i, j => do
    if i < log.count ∧ j < other.count then
      let byKey := compare (← log.keyAt i) (← other.keyAt j)
      if byKey ≠ .eq then return byKey
      let byValue := compare (← log.readValue i) (← other.readValue j)
      if byValue ≠ .eq then return byValue
      cmpFrom log other fuel (← log.nextLive (i + 1)) (← other.nextLive (j + 1))
    else return compare log.size other.size

def cmp [Ord K] [Ord V] (log other : EntryLog K V) : Option Ordering := do
  log.cmpFrom other (log.count + 1) (← log.nextLive 0) (← other.nextLive 0)

end EntryLog

end Wado
