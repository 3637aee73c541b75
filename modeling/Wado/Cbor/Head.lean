/-
The heads of CBOR items, as `core:cbor` writes and reads them.  Machine integers
are numbers, a `u64` below 2^64; a buffer is the bytes appended to it.  An error
is its kind and its offset: its text and its path decide nothing.
-/
import Mathlib.Data.Nat.Bitwise
import Mathlib.Tactic.Ring

namespace Wado.Cbor

inductive DeserializeErrorKind where
  | unexpectedType
  | missingField
  | unknownVariant
  | duplicateField
  | invalidValue
  | overflow
  | malformedInput
  | trailingData
  | eof
  | custom
  | depthLimitExceeded
deriving DecidableEq, Repr

structure DeserializeError where
  kind : DeserializeErrorKind
  /-- The offset into the input, or -1 where the failure has none. -/
  offset : Int
deriving DecidableEq, Repr

def majorUint : Nat := 0
def majorNint : Nat := 1
def majorBytes : Nat := 2
def majorText : Nat := 3
def majorArray : Nat := 4
def majorMap : Nat := 5
def majorTag : Nat := 6
def majorSimple : Nat := 7

def ai1Byte : Nat := 24
def ai2Byte : Nat := 25
def ai4Byte : Nat := 26
def ai8Byte : Nat := 27
def aiIndefinite : Nat := 31

def simpleFalse : Nat := 20
def simpleTrue : Nat := 21
def simpleNull : Nat := 22
def simpleUndefined : Nat := 23

def initFalse : UInt8 := 0xf4
def initTrue : UInt8 := 0xf5
def initNull : UInt8 := 0xf6
def initUndefined : UInt8 := 0xf7
def breakByte : UInt8 := 0xff

def tagBignumPos : Nat := 2
def tagBignumNeg : Nat := 3
def tagUuid : Nat := 37
def tagSelfDescribed : Nat := 55799

def isPassthroughTag (tag : Nat) : Bool :=
  tag = 0 ∨ tag = 1 ∨ tag = 21 ∨ tag = 22 ∨ tag = 23 ∨ tag = tagUuid ∨ tag = tagSelfDescribed

/-- The low `nbytes` of a value, the most significant first. -/
def pushBe (value : Nat) : Nat → List UInt8
  | 0 => []
  | i + 1 => UInt8.ofNat (value >>> (i * 8)) :: pushBe value i

/-- A major type and its argument in the shortest form. -/
def writeHead (major arg : Nat) : List UInt8 :=
  let mt := major <<< 5
  if arg < 24 then [UInt8.ofNat (mt ||| arg)]
  else if arg ≤ 0xff then [UInt8.ofNat (mt ||| 24), UInt8.ofNat arg]
  else if arg ≤ 0xffff then UInt8.ofNat (mt ||| 25) :: pushBe arg 2
  else if arg ≤ 0xffffffff then UInt8.ofNat (mt ||| 26) :: pushBe arg 4
  else UInt8.ofNat (mt ||| 27) :: pushBe arg 8

inductive ContainerKind where
  /-- An array, a map or a struct. -/
  | elements
  /-- A variant, and whether its case was read with a payload. -/
  | variant (payload : Bool)
deriving DecidableEq, Repr

/-- A container that was read to its end: where it started, how many elements or
pairs it delivered, and where the reading stopped. -/
structure ContainerRead where
  rest : List UInt8
  pos : Nat
  depth : Int
  kind : ContainerKind
  delivered : Nat
  stop : Nat
deriving DecidableEq, Repr

/-- A deserializer, `rest` being its input from `pos` on.  No function reads
`reads`. -/
structure CborDeserializer where
  rest : List UInt8
  pos : Nat
  /-- The nesting level of the item being read. -/
  depth : Int
  maxDepth : Int
  strict : Bool
  /-- The containers read to their end, the innermost first. -/
  reads : List ContainerRead
deriving DecidableEq, Repr

structure Head where
  major : Nat
  ai : Nat
  arg : Nat
  indef : Bool
deriving DecidableEq, Repr

/-- What reads the next `α` of an input. -/
abbrev Reader (α : Type) :=
  CborDeserializer → Except DeserializeError (α × CborDeserializer)

namespace CborDeserializer

/-- The deserializer with `n` more bytes read. -/
def after (n : Nat) (self : CborDeserializer) : CborDeserializer :=
  { self with rest := self.rest.drop n, pos := self.pos + n }

def eof (self : CborDeserializer) : DeserializeError := ⟨.eof, self.pos⟩

def nextByte (self : CborDeserializer) : Except DeserializeError (UInt8 × CborDeserializer) :=
  match self.rest with
  | [] => .error self.eof
  | b :: _ => .ok (b, self.after 1)

def peekByte (self : CborDeserializer) : Except DeserializeError UInt8 :=
  match self.rest with
  | [] => .error self.eof
  | b :: _ => .ok b

/-- The next `n` bytes as a `u64`, `n` being at most 8. -/
def readBe (n : Nat) (self : CborDeserializer) : Except DeserializeError (Nat × CborDeserializer) :=
  if n > self.rest.length then .error self.eof
  else .ok ((self.rest.take n).foldl (fun v b => v <<< 8 ||| b.toNat) 0, self.after n)

/-- A head's argument, its initial byte read. -/
def readArg (ai : Nat) (self : CborDeserializer) :
    Except DeserializeError (Nat × CborDeserializer) :=
  if ai = ai1Byte then do
    let (b, self) ← self.nextByte
    return (b.toNat, self)
  else if ai = ai2Byte then self.readBe 2
  else if ai = ai4Byte then self.readBe 4
  else if ai = ai8Byte then self.readBe 8
  else .ok (ai, self)

def readHead (self : CborDeserializer) : Except DeserializeError (Head × CborDeserializer) := do
  let (ib, self) ← self.nextByte
  let major := ib.toNat >>> 5
  let ai := ib.toNat &&& 0x1f
  if ai1Byte ≤ ai ∧ ai ≤ ai8Byte then
    let (v, self) ← self.readArg ai
    return (⟨major, ai, v, false⟩, self)
  else if ai = aiIndefinite then
    if major = majorUint ∨ major = majorNint ∨ major = majorTag then
      .error ⟨.malformedInput, (self.pos : Int) - 1⟩
    else return (⟨major, ai, 0, true⟩, self)
  else if 28 ≤ ai ∧ ai ≤ 30 then .error ⟨.malformedInput, (self.pos : Int) - 1⟩
  else return (⟨major, ai, ai, false⟩, self)

/-- Reads heads until one that is no tag `passes` lets pass.  A head takes a byte
or more, so that `fuel` above the bytes left is enough. -/
def untagged (passes : Nat → Bool) : Nat → CborDeserializer →
    Except DeserializeError (Head × CborDeserializer)
  | 0, self => .error self.eof
  | fuel + 1, self => do
    let (head, self) ← self.readHead
    if head.major = majorTag ∧ passes head.arg then untagged passes fuel self
    else return (head, self)

attribute [grind =] untagged

/-- The loop of every reader that looks through tags. -/
def readUntagged (passes : Nat → Bool) (self : CborDeserializer) :
    Except DeserializeError (Head × CborDeserializer) :=
  untagged passes (self.rest.length + 1) self

/-- Passes over `n` bytes. -/
def advance (n : Nat) (self : CborDeserializer) : Except DeserializeError CborDeserializer :=
  if n > self.rest.length then .error self.eof else .ok (self.after n)

/-- The limit on nesting that `deeper` enforces: one level more, as an `i32`. -/
def deeper (depth maxDepth : Int) (offset : Nat) : Except DeserializeError Int :=
  let next := (depth + 1 + 2 ^ 31) % 2 ^ 32 - 2 ^ 31
  if next > maxDepth then .error ⟨.depthLimitExceeded, offset⟩ else .ok next

/-- Notes that the container opened at `start` was read to its end. -/
def note (start : CborDeserializer) (kind : ContainerKind) (delivered : Nat)
    (self : CborDeserializer) : CborDeserializer :=
  { self with
    reads := self.reads ++ [⟨start.rest, start.pos, start.depth, kind, delivered, self.pos⟩] }

def innerDepth (self : CborDeserializer) : Except DeserializeError Int :=
  deeper self.depth self.maxDepth self.pos

end CborDeserializer

end Wado.Cbor
