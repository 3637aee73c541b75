/-
The values of the serde data model, and what the two CBOR serializers write for
them.
-/
import Wado.Cbor.Scalar

namespace Wado

namespace Cbor

/-- A value as `Serialize` hands it to a serializer.  A variant with no payload
is a unit variant; an absent option is `null`. -/
inductive Value where
  | int (t : IntTy) (n : Int)
  | bool (b : Bool)
  | text (s : String)
  | bytes (bytes : List UInt8)
  | null
  | seq (elems : List Value)
  | map (entries : List (Value × Value))
  | struct (fields : List (String × Value))
  | variant (name : String) (payload : Option Value)

/-- A pair of encodings that a map writes. -/
abbrev Encoded := List UInt8 × List UInt8

namespace Value

mutual

/-- Equality of values, the entries of a map in order. -/
def same : Value → Value → Bool
  | int t n, int t' n' => t = t' ∧ n = n'
  | bool b, bool b' => b = b'
  | text s, text s' => s = s'
  | bytes b, bytes b' => b = b'
  | null, null => true
  | seq elems, seq elems' => sameElems elems elems'
  | map entries, map entries' => sameEntries entries entries'
  | struct fields, struct fields' => sameFields fields fields'
  | variant name none, variant name' none => name = name'
  | variant name (some payload), variant name' (some payload') =>
    name = name' && same payload payload'
  | _, _ => false

def sameElems : List Value → List Value → Bool
  | [], [] => true
  | v :: elems, v' :: elems' => same v v' && sameElems elems elems'
  | _, _ => false

def sameEntries : List (Value × Value) → List (Value × Value) → Bool
  | [], [] => true
  | (k, v) :: entries, (k', v') :: entries' =>
    same k k' && same v v' && sameEntries entries entries'
  | _, _ => false

def sameFields : List (String × Value) → List (String × Value) → Bool
  | [], [] => true
  | (name, v) :: fields, (name', v') :: fields' =>
    name = name' && same v v' && sameFields fields fields'
  | _, _ => false

end

attribute [grind =] same

mutual

/-- What `CborSerializer` writes. -/
def serialize : Value → List UInt8
  | int t n => t.write n
  | bool b => writeBool b
  | text s => writeText s
  | bytes b => writeBytes b
  | null => [initNull]
  | seq elems => writeHead majorArray elems.length ++ serializeElems elems
  | map entries => writeHead majorMap entries.length ++ serializeEntries entries
  | struct fields => writeHead majorMap fields.length ++ serializeFields fields
  | variant name none => writeText name
  | variant name (some payload) =>
    writeHead majorMap 1 ++ writeText name ++ serialize payload

def serializeElems : List Value → List UInt8
  | [] => []
  | v :: elems => serialize v ++ serializeElems elems

def serializeEntries : List (Value × Value) → List UInt8
  | [] => []
  | (k, v) :: entries => serialize k ++ serialize v ++ serializeEntries entries

def serializeFields : List (String × Value) → List UInt8
  | [] => []
  | (name, v) :: fields => writeText name ++ serialize v ++ serializeFields fields

end

attribute [grind =] serialize

/-- Whether one key's encoding comes before another's, or is it. -/
def keyLe (a b : Encoded) : Bool := ! (b.1 < a.1)

/-- A map of encoded entries, in the bytewise order of the keys. -/
def emitSortedMap (entries : List Encoded) : List UInt8 :=
  writeHead majorMap entries.length ++
    (entries.mergeSort keyLe).flatMap fun entry => entry.1 ++ entry.2

mutual

/-- What `CanonicalCborSerializer` writes. -/
def canonical : Value → List UInt8
  | int t n => t.write n
  | bool b => writeBool b
  | text s => writeText s
  | bytes b => writeBytes b
  | null => [initNull]
  | seq elems => writeHead majorArray elems.length ++ canonicalElems elems
  | map entries => emitSortedMap (canonicalEntries entries)
  | struct fields => emitSortedMap (canonicalFields fields)
  | variant name none => writeText name
  | variant name (some payload) =>
    writeHead majorMap 1 ++ writeText name ++ canonical payload

def canonicalElems : List Value → List UInt8
  | [] => []
  | v :: elems => canonical v ++ canonicalElems elems

def canonicalEntries : List (Value × Value) → List Encoded
  | [] => []
  | (k, v) :: entries => (canonical k, canonical v) :: canonicalEntries entries

def canonicalFields : List (String × Value) → List Encoded
  | [] => []
  | (name, v) :: fields => (writeText name, canonical v) :: canonicalFields fields

end

attribute [grind =] canonical

end Value

end Cbor

end Wado

/-
The skipper of CBOR items, which reads nothing but their boundaries.
-/

namespace Wado

namespace Cbor

namespace CborDeserializer

/-- Takes a step a number of times. -/
def skipCount (step : CborDeserializer → Except DeserializeError CborDeserializer) :
    Nat → CborDeserializer → Except DeserializeError CborDeserializer
  | 0, self => .ok self
  | i + 1, self => do skipCount step i (← step self)

/-- Takes steps up to a break, and passes over it.  A step takes a byte or more,
so that `fuel` above the bytes left is enough. -/
def skipUntilBreak (step : CborDeserializer → Except DeserializeError CborDeserializer) :
    Nat → CborDeserializer → Except DeserializeError CborDeserializer
  | 0, self => .error self.eof
  | fuel + 1, self => do
    if (← self.peekByte) = breakByte then return self.after 1
    skipUntilBreak step fuel (← step self)

/-- Steps over the elements or the pairs of a container, its head read. -/
def skipEntries (step : CborDeserializer → Except DeserializeError CborDeserializer)
    (head : Head) (self : CborDeserializer) : Except DeserializeError CborDeserializer :=
  if head.indef then skipUntilBreak step (self.rest.length + 1) self
  else skipCount step head.arg self

def skipStringRaw (arg : Nat) (indef : Bool) (major : Nat) (self : CborDeserializer) :
    Except DeserializeError CborDeserializer :=
  if ¬ indef then self.advance arg
  else do
    let chunk := fun (_ : Unit) (len : Nat) (self : CborDeserializer) => do
      return ((), ← self.advance len)
    let (_, self) ← readChunks major chunk (self.rest.length + 1) () self
    return self

/-- Skips an item of at most `fuel` levels. -/
def skipItemWithin : Nat → Int → CborDeserializer → Except DeserializeError CborDeserializer
  | 0, _, self => .error self.eof
  | fuel + 1, depth, self => do
    let (head, self) ← self.readUntagged fun _ => true
    if head.major = majorUint ∨ head.major = majorNint then return self
    else if head.major = majorSimple then
      if head.indef then .error ⟨.malformedInput, (self.pos : Int) - 1⟩ else return self
    else if head.major = majorBytes ∨ head.major = majorText then
      self.skipStringRaw head.arg head.indef head.major
    else
      let inner ← deeper depth self.maxDepth self.pos
      if head.major = majorArray then skipEntries (skipItemWithin fuel inner) head self
      else
        skipEntries (fun self => do skipItemWithin fuel inner (← skipItemWithin fuel inner self))
          head self

/-- A level takes a byte or more, so that the bytes left bound the levels. -/
def skipItem (depth : Int) (self : CborDeserializer) : Except DeserializeError CborDeserializer :=
  skipItemWithin (self.rest.length + 1) depth self

end CborDeserializer

end Cbor

end Wado

/-
Reading CBOR containers: the accesses that a deserializer opens, and the readers
that `core:serde` derives over them.
-/

namespace Wado

namespace Cbor

/-- A `u64` as an `i64`. -/
def asI64 (n : Nat) : Int := if n < 2 ^ 63 then n else (n : Int) - 2 ^ 64

/-- An opened container: how many elements are left of a definite one, as the
`i64` the head's count becomes, and the level its elements are at. -/
structure Opened where
  remaining : Int
  indef : Bool
  depth : Int

namespace CborDeserializer

def beginContainer (wantMajor : Nat) : Reader Opened := fun self => do
  let (head, self) ← self.readUntagged (· = tagSelfDescribed)
  if head.major ≠ wantMajor then .error ⟨.unexpectedType, self.pos⟩
  else
    let depth ← self.innerDepth
    return (⟨if head.indef then -1 else asI64 head.arg, head.indef, depth⟩, self)

/-- Whether a container has ended, consuming an indefinite one's break. -/
def containerStep (remaining : Int) (indef : Bool) : Reader Bool := fun self =>
  if indef then do
    if (← self.peekByte) = breakByte then return (true, self.after 1)
    return (false, self)
  else .ok (remaining ≤ 0, self)

end CborDeserializer

/-- How many steps a container's loop can take: its count and one more, or the
bytes left where it has none. -/
def loopFuel (opened : Opened) (de : CborDeserializer) : Nat :=
  (if opened.indef then de.rest.length else opened.remaining.toNat) + 1

structure CborSeqAccess where
  de : CborDeserializer
  opened : Opened
  /-- Whether the array's end was seen already. -/
  done : Bool

namespace CborSeqAccess

def atEnd (self : CborSeqAccess) : Except DeserializeError (Bool × CborSeqAccess) := do
  let (ended, de) ← self.de.containerStep self.opened.remaining self.opened.indef
  if ended then return (ended, { self with de, done := true })
  else if ¬ self.opened.indef then
    return (ended, { self with
      de, opened := { self.opened with remaining := self.opened.remaining - 1 } })
  else return (ended, { self with de })

def nextElement {α : Type} (element : Reader α) (self : CborSeqAccess) :
    Except DeserializeError (Option α × CborSeqAccess) := do
  let (ended, self) ← self.atEnd
  if ended then return (none, self)
  else
    let (v, de) ← element { self.de with depth := self.opened.depth }
    return (some v, { self with de })

/-- Closes the array: a reader of a fixed number of elements has not seen its
end. -/
def close (self : CborSeqAccess) : Except DeserializeError CborDeserializer :=
  if self.done then .ok self.de
  else if self.opened.indef then do
    if (← self.de.peekByte) ≠ breakByte then .error ⟨.invalidValue, self.de.pos⟩
    else return self.de.after 1
  else if self.opened.remaining > 0 then .error ⟨.invalidValue, self.de.pos⟩
  else .ok self.de

end CborSeqAccess

/-- A map's or a struct's access. -/
structure CborMapAccess where
  de : CborDeserializer
  opened : Opened

namespace CborMapAccess

/-- The end of the entries, or one entry taken off a definite count. -/
def nextEntry (self : CborMapAccess) : Except DeserializeError (Bool × CborMapAccess) := do
  let (ended, de) ← self.de.containerStep self.opened.remaining self.opened.indef
  if ended then return (ended, { self with de })
  else if ¬ self.opened.indef then
    return (ended, { self with
      de, opened := { self.opened with remaining := self.opened.remaining - 1 } })
  else return (ended, { self with de })

def nextKey {α : Type} (key : Reader α) (self : CborMapAccess) :
    Except DeserializeError (Option α × CborMapAccess) := do
  let (ended, self) ← self.nextEntry
  if ended then return (none, self)
  else
    let (k, de) ← key { self.de with depth := self.opened.depth }
    return (some k, { self with de })

def nextValue {α : Type} (value : Reader α) (self : CborMapAccess) :
    Except DeserializeError (α × CborMapAccess) := do
  let (v, de) ← value { self.de with depth := self.opened.depth }
  return (v, { self with de })

/-- The bytes of a struct's key.  A text string of definite length is read in
place and not checked to be UTF-8. -/
def entryKey (self : CborMapAccess) : Except DeserializeError (List UInt8 × CborMapAccess) := do
  let head ← self.de.peekByte
  if head.toNat >>> 5 = majorText ∧ head.toNat &&& 0x1f ≤ ai8Byte then
    let (arg, de) ← (self.de.after 1).readArg (head.toNat &&& 0x1f)
    if arg > de.rest.length then .error de.eof
    else return (de.rest.take arg, { self with de := de.after arg })
  else
    let (key, de) ← self.de.deserializeString
    return (utf8 key, { self with de })

/-- The index of the next field among the `names`, absent where the entry is no
field. -/
def nextField (names : List String) (self : CborMapAccess) :
    Except DeserializeError (Option (Option Nat) × CborMapAccess) := do
  let (ended, self) ← self.nextEntry
  if ended then return (none, self)
  else
    let (key, self) ← self.entryKey
    return (some (names.findIdx? fun name => utf8 name = key), self)

def skip (self : CborMapAccess) : Except DeserializeError CborMapAccess := do
  return { self with de := ← self.de.skipItem self.opened.depth }

end CborMapAccess

structure CborVariantAccess where
  de : CborDeserializer
  depth : Int
  variant : String
  isMap : Bool
  indef : Bool

namespace CborVariantAccess

def payload {α : Type} (value : Reader α) (self : CborVariantAccess) :
    Except DeserializeError (α × CborVariantAccess) := do
  let (v, de) ← value { self.de with depth := self.depth }
  return (v, { self with de })

/-- Closes the variant: an indefinite map ends after its one pair. -/
def close (self : CborVariantAccess) : Except DeserializeError CborDeserializer :=
  if self.isMap ∧ self.indef then do
    if (← self.de.peekByte) ≠ breakByte then .error ⟨.malformedInput, self.de.pos⟩
    else return self.de.after 1
  else .ok self.de

end CborVariantAccess

namespace CborDeserializer

def beginSeq (self : CborDeserializer) : Except DeserializeError CborSeqAccess := do
  let (opened, de) ← self.beginContainer majorArray
  return ⟨de, opened, false⟩

/-- Opens a map, or a struct. -/
def beginMap (self : CborDeserializer) : Except DeserializeError CborMapAccess := do
  let (opened, de) ← self.beginContainer majorMap
  return ⟨de, opened⟩

def beginVariant (self : CborDeserializer) : Except DeserializeError CborVariantAccess := do
  let (head, self) ← self.readUntagged (· = tagSelfDescribed)
  if head.major = majorText then
    let (name, self) ← self.readTextBody head.arg head.indef
    return ⟨self, self.depth, name, false, false⟩
  else if head.major = majorMap then
    if ¬ head.indef ∧ head.arg ≠ 1 then .error ⟨.malformedInput, self.pos⟩
    else
      let depth ← self.innerDepth
      let (key, self) ← self.deserializeString
      return ⟨self, depth, key, true, head.indef⟩
  else .error ⟨.unexpectedType, self.pos⟩

end CborDeserializer

end Cbor

end Wado
