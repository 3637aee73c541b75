/-
The scalars of CBOR: how `core:cbor` writes integers and strings, and reads them
back from any encoding.
-/
import Wado.Cbor.Head

namespace Wado.Cbor

/-- The bytes of a string. -/
def utf8 (s : String) : List UInt8 := s.toByteArray.data.toList

def tryFromUtf8 (bytes : List UInt8) : Option String :=
  String.fromUTF8? ⟨bytes.toArray⟩

def u64Max : Nat := 2 ^ 64 - 1
def i128Max : Nat := 2 ^ 127 - 1

def writeText (s : String) : List UInt8 :=
  writeHead majorText (utf8 s).length ++ utf8 s

def writeBytes (bytes : List UInt8) : List UInt8 :=
  writeHead majorBytes bytes.length ++ bytes

/-- Strips at most `n` leading zero bytes. -/
def stripZeros : Nat → List UInt8 → List UInt8
  | n + 1, b :: bytes => if b = 0 then stripZeros n bytes else b :: bytes
  | _, bytes => bytes

/-- A `u128` magnitude under a tag, as the shortest byte string of one byte or
more. -/
def writeBignum (tag mag : Nat) : List UInt8 :=
  let hi := mag / 2 ^ 64
  let lo := mag % 2 ^ 64
  let bytes := stripZeros 15 (pushBe hi 8 ++ pushBe lo 8)
  writeHead majorTag tag ++ writeHead majorBytes bytes.length ++ bytes

def writeIntI64 (v : Int) : List UInt8 :=
  if v ≥ 0 then writeHead majorUint v.toNat else writeHead majorNint (-1 - v).toNat

def writeIntI128 (v : Int) : List UInt8 :=
  if v ≥ 0 then
    let mag := v.toNat
    if mag ≤ u64Max then writeHead majorUint mag else writeBignum tagBignumPos mag
  else
    let mag := (-1 - v).toNat
    if mag ≤ u64Max then writeHead majorNint mag else writeBignum tagBignumNeg mag

def writeIntU128 (v : Int) : List UInt8 :=
  if v.toNat ≤ u64Max then writeHead majorUint v.toNat else writeBignum tagBignumPos v.toNat

def writeBool (v : Bool) : List UInt8 :=
  if v then [initTrue] else [initFalse]

/-- The integer types of the data model. -/
inductive IntTy where
  | i8 | i16 | i32 | i64 | u8 | u16 | u32 | u64 | i128 | u128
deriving DecidableEq, Repr

namespace IntTy

def min : IntTy → Int
  | i8 => -2 ^ 7
  | i16 => -2 ^ 15
  | i32 => -2 ^ 31
  | i64 => -2 ^ 63
  | i128 => -2 ^ 127
  | u8 | u16 | u32 | u64 | u128 => 0

attribute [grind =] min

def max : IntTy → Int
  | i8 => 2 ^ 7 - 1
  | i16 => 2 ^ 15 - 1
  | i32 => 2 ^ 31 - 1
  | i64 => 2 ^ 63 - 1
  | i128 => 2 ^ 127 - 1
  | u8 => 2 ^ 8 - 1
  | u16 => 2 ^ 16 - 1
  | u32 => 2 ^ 32 - 1
  | u64 => 2 ^ 64 - 1
  | u128 => 2 ^ 128 - 1

attribute [grind =] max

/-- An integer of a type, by the serializer's method for it. -/
def write : IntTy → Int → List UInt8
  | i8, v | i16, v | i32, v | i64, v => writeIntI64 v
  | u8, v | u16, v | u32, v | u64, v => writeHead majorUint v.toNat
  | i128, v => writeIntI128 v
  | u128, v => writeIntU128 v

end IntTy

namespace CborDeserializer

def readDefiniteText (len : Nat) (self : CborDeserializer) :
    Except DeserializeError (String × CborDeserializer) :=
  if len > self.rest.length then .error self.eof
  else
    match tryFromUtf8 (self.rest.take len) with
    | some s => .ok (s, self.after len)
    | none => .error ⟨.malformedInput, self.pos⟩

def appendBytes (out : List UInt8) (len : Nat) (self : CborDeserializer) :
    Except DeserializeError (List UInt8 × CborDeserializer) :=
  if len > self.rest.length then .error self.eof
  else .ok (out ++ self.rest.take len, self.after len)

/-- The chunks of an indefinite string of a major type, `chunk` taking in one of
a given length.  A chunk takes a byte or more, so that `fuel` above the bytes left
is enough. -/
def readChunks {α : Type} (major : Nat)
    (chunk : α → Nat → CborDeserializer → Except DeserializeError (α × CborDeserializer)) :
    Nat → α → CborDeserializer → Except DeserializeError (α × CborDeserializer)
  | 0, _, self => .error self.eof
  | fuel + 1, out, self => do
    if (← self.peekByte) = breakByte then return (out, self.after 1)
    let (head, self) ← self.readHead
    if head.major ≠ major ∨ head.indef then .error ⟨.malformedInput, self.pos⟩
    else
      let (out, self) ← chunk out head.arg self
      readChunks major chunk fuel out self

attribute [grind =] readChunks

def appendText (s : String) (len : Nat) (self : CborDeserializer) :
    Except DeserializeError (String × CborDeserializer) := do
  let (chunk, self) ← self.readDefiniteText len
  return (s ++ chunk, self)

/-- A text string's body, its head read. -/
def readTextBody (arg : Nat) (indef : Bool) (self : CborDeserializer) :
    Except DeserializeError (String × CborDeserializer) :=
  if ¬ indef then self.readDefiniteText arg
  else readChunks majorText appendText (self.rest.length + 1) "" self

/-- A byte string's body, its head read. -/
def readBytesBody (arg : Nat) (indef : Bool) (self : CborDeserializer) :
    Except DeserializeError (List UInt8 × CborDeserializer) :=
  if ¬ indef then self.appendBytes [] arg
  else readChunks majorBytes appendBytes (self.rest.length + 1) [] self

/-- The low and the high word of at most 16 big-endian bytes. -/
def bignumWords : List UInt8 → Nat → Nat → Nat × Nat
  | [], lo, hi => (lo, hi)
  | b :: bytes, lo, hi =>
    let pr := bytes.length
    if pr < 8 then bignumWords bytes (lo ||| b.toNat <<< (pr * 8)) hi
    else bignumWords bytes lo (hi ||| b.toNat <<< ((pr - 8) * 8))

def readBignumMag (self : CborDeserializer) : Except DeserializeError (Nat × CborDeserializer) := do
  let (head, self) ← self.readHead
  if head.major ≠ majorBytes then .error ⟨.malformedInput, self.pos⟩
  else
    let (bytes, self) ← self.readBytesBody head.arg head.indef
    if bytes.length > 16 then .error ⟨.overflow, self.pos⟩
    else
      let (lo, hi) := bignumWords bytes 0 0
      return (hi * 2 ^ 64 + lo, self)

def readSignedI128 (self : CborDeserializer) :
    Except DeserializeError (Int × CborDeserializer) := do
  let (head, self) ← self.readUntagged isPassthroughTag
  if head.major = majorUint then return ((head.arg : Int), self)
  else if head.major = majorNint then return (-1 - (head.arg : Int), self)
  else if head.major = majorTag ∧ head.arg = tagBignumPos then
    let (mag, self) ← self.readBignumMag
    if mag ≤ i128Max then return ((mag : Int), self) else .error ⟨.overflow, self.pos⟩
  else if head.major = majorTag ∧ head.arg = tagBignumNeg then
    let (mag, self) ← self.readBignumMag
    if mag ≤ i128Max then return (-1 - (mag : Int), self) else .error ⟨.overflow, self.pos⟩
  else .error ⟨.unexpectedType, self.pos⟩

def readUnsignedU128 (self : CborDeserializer) :
    Except DeserializeError (Int × CborDeserializer) := do
  let (head, self) ← self.readUntagged isPassthroughTag
  if head.major = majorUint then return ((head.arg : Int), self)
  else if head.major = majorNint then .error ⟨.overflow, self.pos⟩
  else if head.major = majorTag ∧ head.arg = tagBignumPos then
    let (mag, self) ← self.readBignumMag
    return ((mag : Int), self)
  else if head.major = majorTag ∧ head.arg = tagBignumNeg then .error ⟨.overflow, self.pos⟩
  else .error ⟨.unexpectedType, self.pos⟩

/-- An `i32` or `i64`, `max` being its largest value.  A definite head of major
type 0 or 1 is decoded at once. -/
def deserializeSigned (max : Nat) : Reader Int := fun self => do
  let start := self.pos
  let b ← self.peekByte
  let major := b.toNat >>> 5
  let ai := b.toNat &&& 0x1f
  if ai ≤ ai8Byte ∧ (major = majorUint ∨ major = majorNint) then
    let (arg, self) ← (self.after 1).readArg ai
    if arg ≤ max then
      return (if major = majorUint then (arg : Int) else -1 - (arg : Int), self)
    else .error ⟨.overflow, start⟩
  else
    let (v, self) ← self.readSignedI128
    if -1 - (max : Int) ≤ v ∧ v ≤ max then return (v, self) else .error ⟨.overflow, start⟩

def deserializeI32 : Reader Int := deserializeSigned (2 ^ 31 - 1)

def deserializeI64 : Reader Int := deserializeSigned (2 ^ 63 - 1)

def deserializeU32 : Reader Int := fun self => do
  let start := self.pos
  let b ← self.peekByte
  let major := b.toNat >>> 5
  let ai := b.toNat &&& 0x1f
  if ai ≤ ai8Byte ∧ major = majorUint then
    let (arg, self) ← (self.after 1).readArg ai
    if arg ≤ 2 ^ 32 - 1 then return ((arg : Int), self) else .error ⟨.overflow, start⟩
  else
    let (v, self) ← self.readUnsignedU128
    if v > 2 ^ 32 - 1 then .error ⟨.overflow, start⟩ else return (v, self)

/-- Every head's argument is a `u64`, so that the fast path checks none. -/
def deserializeU64 : Reader Int := fun self => do
  let start := self.pos
  let b ← self.peekByte
  let major := b.toNat >>> 5
  let ai := b.toNat &&& 0x1f
  if ai ≤ ai8Byte ∧ major = majorUint then
    let (arg, self) ← (self.after 1).readArg ai
    return ((arg : Int), self)
  else
    let (v, self) ← self.readUnsignedU128
    if v > u64Max then .error ⟨.overflow, start⟩ else return (v, self)

/-- A narrower integer, read by `wide` and refused out of its range. -/
def deserializeNarrow (t : IntTy) (wide : Reader Int) : Reader Int := fun self => do
  let (v, self) ← wide self
  if v < t.min ∨ v > t.max then .error ⟨.overflow, -1⟩ else return (v, self)

def deserializeInt : IntTy → Reader Int
  | .i8 => deserializeNarrow .i8 deserializeI32
  | .i16 => deserializeNarrow .i16 deserializeI32
  | .i32 => deserializeI32
  | .i64 => deserializeI64
  | .u8 => deserializeNarrow .u8 deserializeU32
  | .u16 => deserializeNarrow .u16 deserializeU32
  | .u32 => deserializeU32
  | .u64 => deserializeU64
  | .i128 => readSignedI128
  | .u128 => readUnsignedU128

def deserializeBool : Reader Bool := fun self => do
  let b ← self.peekByte
  if b = initFalse then return (false, self.after 1)
  else if b = initTrue then return (true, self.after 1)
  else
    let (head, self) ← self.readUntagged isPassthroughTag
    if head.major = majorSimple ∧ head.ai = simpleFalse then return (false, self)
    else if head.major = majorSimple ∧ head.ai = simpleTrue then return (true, self)
    else .error ⟨.unexpectedType, self.pos⟩

/-- A text string.  One of definite length is read at once. -/
def deserializeString : Reader String := fun self => do
  let b ← self.peekByte
  if b.toNat >>> 5 = majorText ∧ b.toNat &&& 0x1f ≤ ai8Byte then
    let (len, self) ← (self.after 1).readArg (b.toNat &&& 0x1f)
    self.readDefiniteText len
  else
    let (head, self) ← self.readUntagged isPassthroughTag
    if head.major = majorText then self.readTextBody head.arg head.indef
    else .error ⟨.unexpectedType, self.pos⟩

/-- A byte string under any tags. -/
def deserializeBytes : Reader (List UInt8) := fun self => do
  let (head, self) ← self.readUntagged fun _ => true
  if head.major = majorBytes then self.readBytesBody head.arg head.indef
  else .error ⟨.unexpectedType, self.pos⟩

/-- The loop of `isNull`, which leaves the input as `saved` where there is no
null. -/
def isNullFrom (saved : CborDeserializer) : Nat → CborDeserializer →
    Except DeserializeError (Bool × CborDeserializer)
  | 0, self => .error self.eof
  | fuel + 1, self => do
    let b ← self.peekByte
    if b.toNat >>> 5 = majorTag then
      let (head, self) ← self.readHead
      if isPassthroughTag head.arg then isNullFrom saved fuel self
      else return (false, saved)
    else if b = initNull ∨ b = initUndefined then return (true, self.after 1)
    else return (false, saved)

def isNull : Reader Bool := fun self => isNullFrom self (self.rest.length + 1) self

end CborDeserializer

end Wado.Cbor
