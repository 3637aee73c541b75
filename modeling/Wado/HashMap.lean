/-
`HashMap<K, V>`: an entry log, and an open-addressing table of entry indices
over it, probed linearly.  Each entry keeps its key's 32-bit fingerprint, which
picks its home slot, filters the key comparisons, and rebuilds the table
without rehashing a key.
-/
import Mathlib.Data.BitVec
import Wado.EntryLogAssoc
import Wado.LinearProbe

namespace Wado

/-- One call an `impl Hash` makes on the hasher it is given. -/
inductive HashWrite where
  | writeU64 (x : BitVec 64)
  | writeBytes (bytes : List (BitVec 8))
deriving Repr, DecidableEq

/-- `Hash`: the words and bytes that make up a key, in the order it feeds them. -/
class Hash (K : Type) where
  hash : K → List HashWrite

/-- Equal keys feed the hasher the same. -/
class LawfulHash (K : Type) [BEq K] [Hash K] : Prop where
  hash_eq : ∀ {a b : K}, (a == b) = true → Hash.hash a = Hash.hash b

/-- `impl Hash for u64`. -/
instance : Hash (BitVec 64) where
  hash x := [.writeU64 x]

instance : LawfulHash (BitVec 64) where
  hash_eq h := by rw [eq_of_beq h]

structure HashSeed where
  k0 : BitVec 64
  k1 : BitVec 64
deriving Repr, DecidableEq

def noEntry : Int := -1

def minSlots : Nat := 8

def mul : BitVec 64 := 0x9E3779B97F4A7C15

def finish : BitVec 64 := 0xBF58476D1CE4E5B9

/-- The 128-bit product of `a` and `b` with its halves folded together. -/
def foldedMultiply (a b : BitVec 64) : BitVec 64 :=
  let wide := a.setWidth 128 * b.setWidth 128
  let lo := wide.extractLsb' 0 64
  let hi := wide.extractLsb' 64 64
  lo ^^^ hi

structure SeededHasher where
  state : BitVec 64
  key : BitVec 64

namespace SeededHasher

def writeU64 (h : SeededHasher) (x : BitVec 64) : SeededHasher :=
  { h with state := foldedMultiply (h.state ^^^ x) h.key }

/-- Up to eight bytes as a word, the first one lowest. -/
def littleEndian (bytes : List (BitVec 8)) : BitVec 64 :=
  bytes.foldr (fun b w => w <<< 8 ||| b.setWidth 64) 0

/-- The state after every eight bytes and then the rest. -/
def foldBytes (key s : BitVec 64) : List (BitVec 8) → BitVec 64
  | b0 :: b1 :: b2 :: b3 :: b4 :: b5 :: b6 :: b7 :: rest =>
    let w := littleEndian [b0, b1, b2, b3, b4, b5, b6, b7]
    foldBytes key (foldedMultiply (s ^^^ w) key) rest
  | [] => s
  | rest => foldedMultiply (s ^^^ littleEndian rest) key

def writeBytes (h : SeededHasher) (bytes : List (BitVec 8)) : SeededHasher :=
  let s := foldedMultiply (h.state ^^^ BitVec.ofNat 64 bytes.length) h.key
  { h with state := foldBytes h.key s bytes }

def write (h : SeededHasher) : HashWrite → SeededHasher
  | .writeU64 x => h.writeU64 x
  | .writeBytes bytes => h.writeBytes bytes

end SeededHasher

/-- `i32::ctz` of a non-negative `n`, 32 for zero. -/
def ctz (n : Nat) : Nat :=
  go 32 n
where
  go : Nat → Nat → Nat
    | 0, _ => 0
    | fuel + 1, n => if n % 2 = 1 then 0 else go fuel (n / 2) + 1

/-- A map that iterates in insertion order, found by hashing its keys.  `fps[e]`
is the fingerprint of entry `e`'s key.  `table` holds entry indices, `noEntry`
where empty. -/
structure HashMap (K V : Type) where
  log : EntryLog K V
  fps : List (BitVec 32)
  table : List Int
  shift : Nat
  seed : HashSeed
deriving Repr

namespace HashMap

variable {K V : Type} [BEq K] [Hash K]

def withSeed (seed : HashSeed) : HashMap K V where
  log := EntryLog.new
  fps := []
  table := []
  shift := 32
  seed := seed

def len (map : HashMap K V) : Nat :=
  map.log.size

/-- A key's fingerprint under `seed`. -/
@[irreducible]
def fingerprint (seed : HashSeed) (key : K) : BitVec 32 :=
  let h : SeededHasher := { state := seed.k0, key := seed.k1 ^^^ mul ||| 1 }
  let h := (Hash.hash key).foldl SeededHasher.write h
  (foldedMultiply h.state finish >>> 32).setWidth 32

/-- The home slot of a fingerprint.  A shift by 32 or more is by its remainder. -/
def home (shift : Nat) (fp : BitVec 32) : Nat :=
  (fp >>> (shift % 32)).toNat

/-- What `find_slot` does at slot `s`: answers it, or passes on. -/
def findSlotAt (map : HashMap K V) (key : K) (fp : BitVec 32) (s : Nat) : Option (Option Int) := do
  let e ← GcArray.get map.table s
  if e = noEntry then
    return some (-1 - (s : Int))
  if (← GcArray.get map.fps e.toNat) = fp then
    if (← map.log.keyAt e.toNat) == key then
      return some (s : Int)
  return none

/-- The slot holding `key`'s entry, live or dead, or `-1 - slot` for the empty
slot it would take. -/
def findSlot (map : HashMap K V) (key : K) (fp : BitVec 32) : Option Int :=
  LinearProbe.probe (map.findSlotAt key fp) (map.table.length - 1) map.table.length
    (home map.shift fp)

/-- The entry index of `key`, or -1 if the key is missing or its entry is dead. -/
def findIndex (map : HashMap K V) (key : K) : Option Int := do
  if map.log.count = 0 then
    return -1
  let s ← map.findSlot key (fingerprint map.seed key)
  if s < 0 then
    return -1
  let e ← GcArray.get map.table s.toNat
  return if ← GcArray.get map.log.alive e.toNat then e else -1

/-- The first empty slot of `table` from the home of `fp` on. -/
def freeSlot (table : List Int) (shift : Nat) (fp : BitVec 32) : Option Nat :=
  LinearProbe.probe
    (fun s => do
      if (← GcArray.get table s) = noEntry then
        return some s
      return none)
    (table.length - 1) table.length (home shift fp)

/-- Puts entry `e` in `table` if it is live. -/
def rebuildStep (map : HashMap K V) (shift : Nat) (table : List Int) (e : Nat) :
    Option (List Int) := do
  if ← GcArray.get map.log.alive e then
    let s ← freeSlot table shift (← GcArray.get map.fps e)
    GcArray.set table s (e : Int)
  else
    return table

/-- A table of `slots`, a power of two, over the live entries. -/
def rebuildTable (map : HashMap K V) (slots : Nat) : Option (HashMap K V) := do
  guard (slots &&& (slots - 1) = 0)
  let shift := 32 - ctz slots
  let table ← (List.range map.log.count).foldlM (map.rebuildStep shift)
    (List.replicate slots noEntry)
  return { map with table, shift }

/-- Doubles the table where it would be less than twice the entries. -/
def growTable (map : HashMap K V) : Option (HashMap K V) :=
  if (map.log.count + 1) * 2 > map.table.length then
    map.rebuildTable (max minSlots (map.table.length * 2))
  else
    some map

/-- Records `fp` as the fingerprint of the entry appended next. -/
def pushFingerprint (map : HashMap K V) (fp : BitVec 32) : Option (HashMap K V) := do
  let e := map.log.count
  let fps ← if e = map.fps.length then
      GcArray.copyFrom (List.replicate (max 4 (e * 2)) 0) 0 map.fps 0 e
    else
      some map.fps
  return { map with fps := ← GcArray.set fps e fp }

/-- Points `key`'s slot at the entry the caller appends next, unless a live
entry holds it already: that entry's index, else -1. -/
def place (map : HashMap K V) (key : K) : Option (Int × HashMap K V) := do
  let e := map.log.count
  let map ← map.growTable
  let fp := fingerprint map.seed key
  let s ← map.findSlot key fp
  if s ≥ 0 then
    let old ← GcArray.get map.table s.toNat
    if ← GcArray.get map.log.alive old.toNat then
      return (old, map)
    let map := { map with table := ← GcArray.set map.table s.toNat (e : Int) }
    return (-1, ← map.pushFingerprint fp)
  else
    let map := { map with table := ← GcArray.set map.table (-1 - s).toNat (e : Int) }
    return (-1, ← map.pushFingerprint fp)

def push (map : HashMap K V) (key : K) (value : V) : Option (HashMap K V) := do
  return { map with log := ← map.log.push key value }

/-- The implementation behind `map[key] = value`. -/
def insert (map : HashMap K V) (key : K) (value : V) : Option (HashMap K V) := do
  let (existing, map) ← map.place key
  if existing ≥ 0 then
    return { map with log := ← map.log.setValue existing.toNat value }
  map.push key value

/-- Inserts only if `key` is absent, and reports whether it was inserted. -/
def tryInsert (map : HashMap K V) (key : K) (value : V) : Option (Bool × HashMap K V) := do
  let (existing, map) ← map.place key
  if existing ≥ 0 then
    return (false, map)
  return (true, ← map.push key value)

/-- The value already stored under `key`, or `value` inserted and returned. -/
def getOrInsert (map : HashMap K V) (key : K) (value : V) : Option (V × HashMap K V) := do
  let (existing, map) ← map.place key
  if existing ≥ 0 then
    return (← map.log.readValue existing.toNat, map)
  return (value, ← map.push key value)

def containsKey (map : HashMap K V) (key : K) : Option Bool := do
  return decide ((← map.findIndex key) ≥ 0)

def get (map : HashMap K V) (key : K) : Option (Option V) := do
  map.log.valueAt (← map.findIndex key)

/-- Moves the fingerprint of entry `e` to where the entry went. -/
def renumberStep (renumbered : List Int) (fps : List (BitVec 32)) (e : Nat) :
    Option (List (BitVec 32)) := do
  let to_ ← GcArray.get renumbered e
  if to_ ≥ 0 then
    GcArray.set fps to_.toNat (← GcArray.get fps e)
  else
    return fps

/-- Drops the dead entries and rebuilds the table over the rest. -/
def compact (map : HashMap K V) : Option (HashMap K V) := do
  let (log, renumbered) ← map.log.compact
  let fps ← (List.range renumbered.length).foldlM (renumberStep renumbered) map.fps
  rebuildTable { map with log, fps } map.table.length

/-- Removes a key from the map and returns true if the key was present. -/
def remove (map : HashMap K V) (key : K) : Option (Bool × HashMap K V) := do
  let index ← map.findIndex key
  if index < 0 then
    return (false, map)
  let (log, full) ← map.log.kill index.toNat
  let map := { map with log }
  if full then
    return (true, ← map.compact)
  return (true, map)

def entries (map : HashMap K V) : Option (List (K × V)) :=
  map.log.entries

/-- Removes all key-value pairs from the map.  The seed stays. -/
def clear (map : HashMap K V) : HashMap K V :=
  { map with log := map.log.clear, fps := [], table := [], shift := 32 }

/-- One operation, and what it returns. -/
def step (map : HashMap K V) : MapOp K V → Option (MapAnswer V × HashMap K V)
  | .assign key value => do
    return (.unit, ← map.insert key value)
  | .tryInsert key value => do
    let (inserted, map) ← map.tryInsert key value
    return (.bool inserted, map)
  | .getOrInsert key value => do
    let (value, map) ← map.getOrInsert key value
    return (.value value, map)
  | .remove key => do
    let (removed, map) ← map.remove key
    return (.bool removed, map)
  | .clear => some (.unit, map.clear)

def eq [BEq V] (map other : HashMap K V) : Option Bool := map.log.eq other.log

def cmp [Ord K] [Ord V] (map other : HashMap K V) : Option Ordering := map.log.cmp other.log

end HashMap

end Wado
