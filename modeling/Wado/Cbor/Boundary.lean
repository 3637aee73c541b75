/-
The readers that `core:serde` and the collections derive for types, over the
accesses of CBOR.  Each notes a container that it has read to its end.
-/
import Wado.Cbor.IntRead
import Wado.Cbor.ItemSkip

namespace Wado

namespace Cbor

open CborDeserializer

/-- The loop of `List`, up to the array's end. -/
def drainSeq (element : Reader Value) : Nat → CborSeqAccess →
    Except DeserializeError (List Value × CborSeqAccess)
  | 0, seq => .error seq.de.eof
  | fuel + 1, seq => do
    let (next, seq) ← seq.nextElement element
    match next with
    | none => return ([], seq)
    | some v =>
      let (items, seq) ← drainSeq element fuel seq
      return (v :: items, seq)

def readList (element : Reader Value) : Reader Value := fun self => do
  let seq ← self.beginSeq
  let (items, seq) ← drainSeq element (loopFuel seq.opened seq.de) seq
  let de ← seq.close
  return (.seq items, note self .elements items.length de)

/-- The elements of a tuple, one for each of its types. -/
def readElements : List (Reader Value) → CborSeqAccess →
    Except DeserializeError (List Value × CborSeqAccess)
  | [], seq => .ok ([], seq)
  | element :: elements, seq => do
    let (next, seq) ← seq.nextElement element
    match next with
    | none => .error ⟨.eof, -1⟩
    | some v =>
      let (items, seq) ← readElements elements seq
      return (v :: items, seq)

def readTuple (elements : List (Reader Value)) : Reader Value := fun self => do
  let seq ← self.beginSeq
  let (items, seq) ← readElements elements seq
  let de ← seq.close
  return (.seq items, note self .elements items.length de)

/-- Inserts a decoded entry, refusing a repeated key. -/
def insertDecoded (entries : List (Value × Value)) (key value : Value) :
    Except DeserializeError (List (Value × Value)) :=
  if entries.any fun entry => entry.1.same key then .error ⟨.duplicateField, -1⟩
  else .ok (entries ++ [(key, value)])

/-- The loop of the maps, up to the map's end. -/
def drainMap (key value : Reader Value) : Nat → List (Value × Value) → CborMapAccess →
    Except DeserializeError (List (Value × Value) × CborMapAccess)
  | 0, _, map => .error map.de.eof
  | fuel + 1, entries, map => do
    let (next, map) ← map.nextKey key
    match next with
    | none => return (entries, map)
    | some k =>
      let (v, map) ← map.nextValue value
      drainMap key value fuel (← insertDecoded entries k v) map

def readMap (key value : Reader Value) : Reader Value := fun self => do
  let map ← self.beginMap
  let (entries, map) ← drainMap key value (loopFuel map.opened map.de) [] map
  return (.map entries, note self .elements entries.length map.de)

/-- A field of a struct, with the default that it declares. -/
structure FieldReader where
  name : String
  read : Reader Value
  fallback : Option Value

/-- The loop of a struct over the entries of its map, `delivered` of which it has
taken.  An entry that is no field is skipped. -/
def drainStruct (fields : List FieldReader) : Nat → Nat → List (Option Value) → CborMapAccess →
    Except DeserializeError (Nat × List (Option Value) × CborMapAccess)
  | 0, _, _, sd => .error sd.de.eof
  | fuel + 1, delivered, slots, sd => do
    let (index, sd) ← sd.nextField (fields.map (·.name))
    match index with
    | none => return (delivered, slots, sd)
    | some index =>
      match index.bind fun i => (fields[i]?).map fun field => (i, field) with
      | none => drainStruct fields fuel (delivered + 1) slots (← sd.skip)
      | some (i, field) =>
        if (slots[i]?.join).isSome then .error ⟨.duplicateField, -1⟩
        else
          let (v, sd) ← sd.nextValue field.read
          drainStruct fields fuel (delivered + 1) (slots.set i (some v)) sd

/-- The fields of a struct from their slots, an empty one taking its default. -/
def fromSlots : List FieldReader → List (Option Value) →
    Except DeserializeError (List (String × Value))
  | field :: fields, slot :: slots => do
    match slot.or field.fallback with
    | some v => return (field.name, v) :: (← fromSlots fields slots)
    | none => .error ⟨.missingField, -1⟩
  | _, _ => .ok []

def readStruct (fields : List FieldReader) : Reader Value := fun self => do
  let sd ← self.beginMap
  let slots := List.replicate fields.length none
  let (delivered, slots, sd) ← drainStruct fields (loopFuel sd.opened sd.de) 0 slots sd
  return (.struct (← fromSlots fields slots), note self .elements delivered sd.de)

/-- A variant by its cases, a unit case having no reader. -/
def readVariant (cases : List (String × Option (Reader Value))) : Reader Value := fun self => do
  let va ← self.beginVariant
  match cases.find? fun case => case.1 = va.variant with
  | none => .error ⟨.unknownVariant, -1⟩
  | some (name, none) => do
    let de ← va.close
    return (.variant name none, note self (.variant false) 0 de)
  | some (name, some read) => do
    let (v, va) ← va.payload read
    let de ← va.close
    return (.variant name (some v), note self (.variant true) 1 de)

def readOption (read : Reader Value) : Reader Value := fun self => do
  let (absent, self) ← self.isNull
  if absent then return (.null, self) else read self

def readUnit : Reader Value := fun self => do
  let (absent, self) ← self.isNull
  if absent then return (.null, self) else .error ⟨.unexpectedType, -1⟩

/-- A scalar's reader, as a value's. -/
def readScalar {α : Type} (read : Reader α) (value : α → Value) : Reader Value := fun self => do
  let (v, self) ← read self
  return (value v, self)

/-- Reads a whole input. -/
def fromBytes (read : Reader Value) (input : List UInt8) (strict : Bool) (maxDepth : Int) :
    Except DeserializeError (Value × CborDeserializer) := do
  let (v, de) ← read ⟨input, 0, 0, maxDepth, strict, []⟩
  if de.rest ≠ [] then .error ⟨.trailingData, de.pos⟩ else return (v, de)

end Cbor

end Wado

/-
The boundaries of containers: what a container's head declares, when a reading of
it agrees with the skipper, and the readers that keep to items.
-/

namespace Wado

namespace Cbor

open ExceptSteps

namespace CborDeserializer

/-- How many steps there are before a break. -/
def countUntilBreak (step : CborDeserializer → Except DeserializeError CborDeserializer) :
    Nat → CborDeserializer → Except DeserializeError Nat
  | 0, self => .error self.eof
  | fuel + 1, self => do
    if (← self.peekByte) = breakByte then return 0
    return (← countUntilBreak step fuel (← step self)) + 1

/-- Skips an element of an array, or a pair of a map. -/
def skipEntry (major : Nat) (depth : Int) (self : CborDeserializer) :
    Except DeserializeError CborDeserializer :=
  if major = majorMap then do (← self.skipItem depth).skipItem depth else self.skipItem depth

/-- How many elements or pairs the head of an item declares: the count of a
definite container, the items before the break of an indefinite one, and none
where the item is no container. -/
def declaredEntries (depth : Int) (self : CborDeserializer) : Except DeserializeError Nat := do
  let (head, self) ← self.readUntagged fun _ => true
  if head.major ≠ majorArray ∧ head.major ≠ majorMap then return 0
  else if head.indef then
    countUntilBreak (skipEntry head.major (level depth)) (self.rest.length + 1) self
  else return head.arg

end CborDeserializer

namespace ContainerRead

/-- The deserializer at the container's start. -/
def start (read : ContainerRead) (maxDepth : Int) : CborDeserializer :=
  ⟨read.rest, read.pos, read.depth, maxDepth, true, []⟩

/-- The container delivered what its head declares, and the skipper stops where its
reading stopped. -/
def Agrees (maxDepth : Int) (read : ContainerRead) : Prop :=
  (read.start maxDepth).declaredEntries read.depth = .ok read.delivered ∧
    ((read.start maxDepth).skipItem read.depth).map CborDeserializer.pos = .ok read.stop

instance (maxDepth : Int) (read : ContainerRead) : Decidable (read.Agrees maxDepth) :=
  inferInstanceAs (Decidable (_ ∧ _))

/-- What a head has to be for its container to be read as it declares: a definite
count is an `i64`, and a variant is a map where its case has a payload and a text
where it has none. -/
def fits (kind : ContainerKind) (head : Head) : Bool :=
  match kind with
  | .elements => head.indef || decide (head.arg < 2 ^ 63)
  | .variant payload => decide (head.major = majorMap) == payload

/-- The head of the container fits its reading. -/
def Counted (maxDepth : Int) (read : ContainerRead) : Prop :=
  ((read.start maxDepth).readUntagged fun _ => true).map (fun got => fits read.kind got.1) =
    .ok true

instance (maxDepth : Int) (read : ContainerRead) : Decidable (read.Counted maxDepth) :=
  inferInstanceAs (Decidable (_ = _))

end ContainerRead

/-- An entry of a container: an element of an array, or a pair of a map. -/
def Entry (maxDepth depth : Int) (major : Nat) (bytes : List UInt8) : Prop :=
  if major = majorMap then
    ∃ key value, bytes = key ++ value ∧ Item maxDepth depth key ∧ Item maxDepth depth value
  else Item maxDepth depth bytes

variable {maxDepth depth : Int} {bytes : List UInt8}

theorem entry_array :
    Entry maxDepth depth majorArray bytes ↔ Item maxDepth depth bytes := by
  rw [Entry, if_neg (by decide)]

theorem entry_map :
    Entry maxDepth depth majorMap bytes ↔
      ∃ key value, bytes = key ++ value ∧ Item maxDepth depth key ∧ Item maxDepth depth value := by
  rw [Entry, if_pos rfl]

theorem Entry.startsItem {major : Nat}
    (h : Entry maxDepth depth major bytes) : StartsItem bytes := by
  unfold Entry at h
  split_ifs at h with hmap
  · obtain ⟨key, value, rfl, hkey, _⟩ := h
    obtain ⟨b, tail, rfl, hb⟩ := hkey.startsItem
    exact ⟨b, tail ++ value, rfl, hb⟩
  · exact h.startsItem

variable {parts : List (List UInt8)}

/-- A container is the item that its head and its entries make. -/
theorem Item.container {head : Head} {tags : List UInt8}
    (htags : Untagged (fun _ => true) head tags)
    (hmajor : head.major = majorArray ∨ head.major = majorMap) (hlevel : level depth ≤ maxDepth)
    (hcount : head.indef = false → parts.length = head.arg)
    (hparts : ∀ part ∈ parts, Entry maxDepth (level depth) head.major part) :
    Item maxDepth depth (tags ++ (parts.flatten ++ closing head.indef)) := by
  rcases hmajor with hmajor | hmajor
  · rw [hmajor] at hparts
    exact .array htags hmajor hlevel hcount fun part hpart => entry_array.mp (hparts part hpart)
  · rw [hmajor] at hparts
    obtain ⟨entries, rfl, hkeys, hvalues⟩ :=
      CborDeserializer.map_entries_parts fun part hpart => entry_map.mp (hparts part hpart)
    rw [List.length_map] at hcount
    rw [← List.flatMap_def]
    exact .map htags hmajor hlevel hcount hkeys hvalues

namespace CborDeserializer

variable {depth : Int} {self : CborDeserializer}

theorem skipEntry_of_entry {major : Nat} {part next : List UInt8} (hrest : self.rest = part ++ next)
    (h : Entry self.maxDepth depth major part) :
    self.skipEntry major depth = .ok (self.after part.length) := by
  unfold Entry at h
  unfold skipEntry
  split_ifs at h ⊢ with hmap
  · obtain ⟨key, value, rfl, hkey, hvalue⟩ := h
    rw [List.append_assoc] at hrest
    have hfirst := skipItem_eq_ok.mpr ⟨key, _, hrest, hkey, rfl⟩
    rw [bind_of_eq_ok hfirst, List.length_append, ← after_after]
    exact skipItem_eq_ok.mpr ⟨value, next, rest_after_append hrest, hvalue, rfl⟩
  · exact skipItem_eq_ok.mpr ⟨part, next, hrest, h, rfl⟩

theorem countUntilBreak_of_entries {major fuel : Nat} {next : List UInt8}
    (hrest : self.rest = parts.flatten ++ breakByte :: next)
    (hparts : ∀ part ∈ parts, Entry self.maxDepth depth major part)
    (hfuel : parts.flatten.length < fuel) :
    countUntilBreak (skipEntry major depth) fuel self = .ok parts.length := by
  induction parts generalizing fuel self with
  | nil =>
    cases fuel with
    | zero => exact absurd hfuel (Nat.not_lt_zero _)
    | succ fuel =>
      rw [countUntilBreak, bind_of_eq_ok (peekByte_of_rest hrest), if_pos rfl]
      rfl
  | cons part parts ih =>
    obtain ⟨hpart, hparts'⟩ := List.forall_mem_cons.mp hparts
    obtain ⟨b, tail, rfl, hfirst⟩ := hpart.startsItem
    cases fuel with
    | zero => exact absurd hfuel (Nat.not_lt_zero _)
    | succ fuel =>
      rw [List.flatten_cons, List.length_append, List.length_cons] at hfuel
      rw [List.flatten_cons, List.append_assoc] at hrest
      have hnext := ih (rest_after_append hrest) hparts' (by omega : parts.flatten.length < fuel)
      rw [countUntilBreak, bind_of_eq_ok (peekByte_of_rest hrest), if_neg hfirst,
        bind_of_eq_ok (skipEntry_of_entry hrest hpart), bind_of_eq_ok hnext]
      rfl

/-- A container declares its entries. -/
theorem declaredEntries_container {head : Head} {tags next : List UInt8}
    (hrest : self.rest = tags ++ (parts.flatten ++ closing head.indef) ++ next)
    (htags : Untagged (fun _ => true) head tags)
    (hmajor : head.major = majorArray ∨ head.major = majorMap)
    (hcount : head.indef = false → parts.length = head.arg)
    (hparts : ∀ part ∈ parts, Entry self.maxDepth (level depth) head.major part) :
    self.declaredEntries depth = .ok parts.length := by
  rw [List.append_assoc] at hrest
  have hread := readUntagged_eq_ok.mpr ⟨tags, _, hrest, htags, rfl⟩
  have hcontainer : ¬ (head.major ≠ majorArray ∧ head.major ≠ majorMap) := by
    rintro ⟨harray, hmap⟩
    exact hmajor.elim harray hmap
  rw [declaredEntries, bind_of_eq_ok hread]
  dsimp only
  rw [if_neg hcontainer]
  cases hindef : head.indef with
  | true =>
    have hrest' := rest_after_append hrest
    rw [hindef, List.append_assoc] at hrest'
    apply countUntilBreak_of_entries hrest' hparts
    rw [hrest', List.length_append]
    omega
  | false =>
    rw [hcount hindef]
    rfl

end CborDeserializer

end Cbor

end Wado
