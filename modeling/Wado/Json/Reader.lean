/-
The reader of JSON, as `core:json` has it: its scanners, its readers and its skipper.  An
error is its kind and its offset: its text decides nothing.
-/
import Wado.Cbor.Head

namespace Wado.Json

open Cbor (DeserializeErrorKind DeserializeError)

def quote : UInt8 := 0x22
def plus : UInt8 := 0x2b
def comma : UInt8 := 0x2c
def minus : UInt8 := 0x2d
def point : UInt8 := 0x2e
def slash : UInt8 := 0x2f
def zero : UInt8 := 0x30
def colon : UInt8 := 0x3a
def openBracket : UInt8 := 0x5b
def backslash : UInt8 := 0x5c
def closeBracket : UInt8 := 0x5d
def openBrace : UInt8 := 0x7b
def closeBrace : UInt8 := 0x7d

/-- The letters of literals, escapes and exponents. -/
def letter (c : Char) : UInt8 := UInt8.ofNat c.toNat

attribute [grind =] quote minus openBracket openBrace letter

section Bytes

/-- The set of `' '`, `'\t'`, `'\n'` and `'\r'`, a bit each. -/
def wsSet : Nat := 1 <<< 32 ||| 1 <<< 9 ||| 1 <<< 10 ||| 1 <<< 13

def isJsonWs (b : UInt8) : Bool := (wsSet >>> b.toNat) &&& 1 ≠ 0

def jsonWsEnd (b : UInt8) : Bool := b ≠ 0x20 ∧ (b > 0x20 ∨ ¬ isJsonWs b)

/-- The decimal value of a digit, and more than 9 of any other byte. -/
def digitValue (b : UInt8) : UInt32 := b.toUInt32 - 48

def isHexdigit (b : UInt8) : Bool :=
  0x30 ≤ b ∧ b ≤ 0x39 ∨ 0x41 ≤ b ∧ b ≤ 0x46 ∨ 0x61 ≤ b ∧ b ≤ 0x66

def hexDigitValue (b : UInt8) : Nat :=
  if b ≤ 0x39 then b.toNat - 0x30 else if b ≤ 0x46 then b.toNat - 0x37 else b.toNat - 0x57

def isCharStart (b : UInt8) : Bool := b &&& 0xc0 ≠ 0x80

def utf8SecondByteOk (b0 b1 : UInt8) : Bool :=
  if isCharStart b1 then false
  else if b0 = 0xe0 then b1 ≥ 0xa0
  else if b0 = 0xed then b1 < 0xa0
  else if b0 = 0xf0 then b1 ≥ 0x90
  else if b0 = 0xf4 then b1 ≤ 0x8f
  else true

/-- The length of the UTF-8 sequence at the start of `bytes`, 0 where it is malformed and
-1 where it is cut short. -/
def utf8SequenceLen (bytes : List UInt8) : Int :=
  match bytes with
  | [] => -1
  | b0 :: rest =>
    if b0 < 0x80 then 1
    else if b0 < 0xc2 then 0
    else if b0 < 0xe0 then
      match rest with
      | [] => -1
      | b1 :: _ => if ¬ utf8SecondByteOk b0 b1 then 0 else 2
    else if b0 < 0xf0 then
      match rest with
      | [] => -1
      | b1 :: rest =>
        if ¬ utf8SecondByteOk b0 b1 then 0
        else
          match rest with
          | [] => -1
          | b2 :: _ => if isCharStart b2 then 0 else 3
    else if b0 < 0xf5 then
      match rest with
      | [] => -1
      | b1 :: rest =>
        if ¬ utf8SecondByteOk b0 b1 then 0
        else
          match rest with
          | [] => -1
          | b2 :: rest =>
            if isCharStart b2 then 0
            else
              match rest with
              | [] => -1
              | b3 :: _ => if isCharStart b3 then 0 else 4
    else 0

attribute [grind =] utf8SequenceLen

/-- The UTF-8 bytes of a scalar value. -/
def encodeUtf8 (code : Nat) : List UInt8 :=
  if code < 0x80 then [UInt8.ofNat code]
  else if code < 0x800 then
    [UInt8.ofNat (0xc0 + code / 0x40), UInt8.ofNat (0x80 + code % 0x40)]
  else if code < 0x10000 then
    [UInt8.ofNat (0xe0 + code / 0x1000), UInt8.ofNat (0x80 + code / 0x40 % 0x40),
      UInt8.ofNat (0x80 + code % 0x40)]
  else
    [UInt8.ofNat (0xf0 + code / 0x40000), UInt8.ofNat (0x80 + code / 0x1000 % 0x40),
      UInt8.ofNat (0x80 + code / 0x40 % 0x40), UInt8.ofNat (0x80 + code % 0x40)]

end Bytes

/-- A deserializer, `rest` being its input from `pos` on. -/
structure JsonDeserializer where
  rest : List UInt8
  pos : Nat
  maxDepth : Int
  depth : Int
  firstEntry : Bool
deriving DecidableEq, Repr

/-- A run of string bytes that stand for themselves: how many, the byte after them, and
whether they are UTF-8. -/
structure StringRunScan where
  len : Nat
  stop : Option UInt8
  valid : Bool
deriving DecidableEq, Repr

structure ScannedNumber where
  neg : Bool
  /-- The first significant digits, as many as are kept. -/
  digits : UInt64
  intDigits : Nat
  fracDigits : Nat
  fracLeadZeros : Nat
  exp : Int
  hasFracOrExp : Bool
  /-- A digit other than zero stands past the ones kept. -/
  inexact : Bool
  mantissaStart : Nat
  mantissaEnd : Nat
deriving DecidableEq, Repr

/-- What reads the next `α` of an input. -/
abbrev Reader (α : Type) := JsonDeserializer → Except DeserializeError (α × JsonDeserializer)

/-- What passes over a part of an input. -/
abbrev Skipper := JsonDeserializer → Except DeserializeError JsonDeserializer

namespace JsonDeserializer

/-- The deserializer with `n` more bytes read. -/
def after (n : Nat) (self : JsonDeserializer) : JsonDeserializer :=
  { self with rest := self.rest.drop n, pos := self.pos + n }

def fail {α : Type} (kind : DeserializeErrorKind) (self : JsonDeserializer) :
    Except DeserializeError α :=
  .error ⟨kind, self.pos⟩

/-- The error of a token that stops short: the end of the input, or the byte there. -/
def tokenStopError {α : Type} (self : JsonDeserializer) : Except DeserializeError α :=
  if self.rest = [] then self.fail .eof else self.fail .malformedInput

section Tokens

/-- The length of a run of whitespace, four bytes at a time. -/
def whitespaceRun : List UInt8 → Nat
  | b0 :: b1 :: b2 :: b3 :: rest =>
    if jsonWsEnd b0 then 0
    else if jsonWsEnd b1 then 1
    else if jsonWsEnd b2 then 2
    else if jsonWsEnd b3 then 3
    else whitespaceRun rest + 4
  | b :: rest => if jsonWsEnd b then 0 else whitespaceRun rest + 1
  | [] => 0

def peekAfterWhitespaceRun (start : Nat) (self : JsonDeserializer) :
    Option UInt8 × JsonDeserializer :=
  let self := self.after (start + whitespaceRun (self.rest.drop start))
  (self.rest.head?, self)

def peekAfterWhitespace (self : JsonDeserializer) : Option UInt8 × JsonDeserializer :=
  match self.rest with
  | [] => (none, self)
  | b :: rest =>
    if jsonWsEnd b then (some b, self)
    else
      match rest with
      | [] => (none, self.after 1)
      | next :: _ =>
        if jsonWsEnd next then (some next, self.after 1)
        else self.peekAfterWhitespaceRun 2

def expectChar (c : UInt8) : Skipper := fun self =>
  let (b, self) := self.peekAfterWhitespace
  if b = some c then .ok (self.after 1) else self.tokenStopError

/-- A literal whose first byte was seen. -/
def expectLiteral (literal : String) : Skipper := fun self =>
  if (literal.toList.map letter) <+: self.rest then .ok (self.after literal.length)
  else self.fail .malformedInput

def expectTrue : Skipper := expectLiteral "true"
def expectFalse : Skipper := expectLiteral "false"
def expectNull : Skipper := expectLiteral "null"

end Tokens

section Strings

/-- The run after `len` bytes of it.  A step takes a byte or more. -/
def scanStringRunFrom : Nat → Nat → Bool → List UInt8 → StringRunScan
  | 0, len, valid, _ => ⟨len, none, valid⟩
  | _ + 1, len, valid, [] => ⟨len, none, valid⟩
  | fuel + 1, len, valid, b :: rest =>
    if b - 0x20 < 0x60 then
      if b = quote ∨ b = backslash then ⟨len, some b, valid⟩
      else scanStringRunFrom fuel (len + 1) valid rest
    else if b < 0x20 then ⟨len, some b, valid⟩
    else
      let advance := utf8SequenceLen (b :: rest)
      if advance ≤ 0 then scanStringRunFrom fuel (len + 1) false rest
      else scanStringRunFrom fuel (len + advance.toNat) valid ((b :: rest).drop advance.toNat)

attribute [grind =] scanStringRunFrom

def scanStringRun (self : JsonDeserializer) : StringRunScan :=
  scanStringRunFrom (self.rest.length + 1) 0 true self.rest

/-- The bytes of a scanned run, which have to be UTF-8. -/
def takeScannedRun (scan : StringRunScan) (self : JsonDeserializer) :
    Except DeserializeError (List UInt8) :=
  if ¬ scan.valid then self.fail .malformedInput else .ok (self.rest.take scan.len)

/-- Four hexadecimal digits. -/
def readHex4 : Reader Nat := fun self =>
  match self.rest with
  | a :: b :: c :: d :: _ =>
    if isHexdigit a ∧ isHexdigit b ∧ isHexdigit c ∧ isHexdigit d then
      .ok (((hexDigitValue a * 16 + hexDigitValue b) * 16 + hexDigitValue c) * 16 +
        hexDigitValue d, self.after 4)
    else self.fail .malformedInput
  | _ => self.fail .eof

attribute [grind =] readHex4

/-- The low surrogate after a high one: none where no second escape follows. -/
def readLowSurrogate : Reader (Option Nat) := fun self =>
  if [backslash, letter 'u'] <+: self.rest then do
    let (lo, self) ← (self.after 2).readHex4
    return (if 0xdc00 ≤ lo ∧ lo ≤ 0xdfff then some lo else none, self)
  else .ok (none, self)

/-- The scalar of a `\uXXXX` escape or of a pair of them, `self` being at the `u`. -/
def readUnicodeEscape : Reader Nat := fun self => do
  let start := self.after 1
  let (hi, self) ← start.readHex4
  if 0xdc00 ≤ hi ∧ hi ≤ 0xdfff then start.fail .malformedInput
  else if 0xd800 ≤ hi ∧ hi ≤ 0xdbff then
    match ← self.readLowSurrogate with
    | (some lo, self) => .ok (0x10000 + ((hi - 0xd800) <<< 10) + (lo - 0xdc00), self)
    | (none, _) => start.fail .malformedInput
  else .ok (hi, self)

/-- The byte that an escape of one letter stands for. -/
def simpleEscape (esc : UInt8) : Option UInt8 :=
  if esc = quote ∨ esc = backslash ∨ esc = slash then some esc
  else if esc = letter 'n' then some 0x0a
  else if esc = letter 'r' then some 0x0d
  else if esc = letter 't' then some 0x09
  else if esc = letter 'b' then some 0x08
  else if esc = letter 'f' then some 0x0c
  else none

/-- The scalar of the escape whose backslash `self` is at. -/
def readEscape : Reader Nat := fun self =>
  let self := self.after 1
  match self.rest with
  | [] => self.fail .eof
  | esc :: _ =>
    match simpleEscape esc with
    | some decoded => .ok (decoded.toNat, self.after 1)
    | none =>
      if esc = letter 'u' then self.readUnicodeEscape else self.fail .malformedInput

/-- The rest of a string from a stop of its run on, `result` being read. -/
def readStringFrom : Nat → List UInt8 → Option UInt8 → Reader (List UInt8)
  | 0, _, _, self => self.fail .eof
  | fuel + 1, result, stop, self =>
    if stop = some backslash then do
      let (c, self) ← self.readEscape
      let chunk := self.scanStringRun
      let text ← (self.takeScannedRun chunk)
      readStringFrom fuel (result ++ encodeUtf8 c ++ text) chunk.stop (self.after chunk.len)
    else if stop ≠ some quote then self.tokenStopError
    else .ok (result, self.after 1)

attribute [grind =] readStringFrom

/-- The string whose quote was passed. -/
def readStringBody : Reader (List UInt8) := fun self => do
  let scan := self.scanStringRun
  let text ← self.takeScannedRun scan
  if scan.stop = some quote then return (text, self.after (scan.len + 1))
  readStringFrom (self.rest.length + 1) text scan.stop (self.after scan.len)

def readJsonString : Reader (List UInt8) := fun self =>
  match self.peekAfterWhitespace with
  | (none, self) => self.fail .eof
  | (some b, self) =>
    if b ≠ quote then self.fail .unexpectedType else (self.after 1).readStringBody

/-- The loop of `skipString`, its quote passed. -/
def skipStringFrom : Nat → Skipper
  | 0, self => self.fail .eof
  | fuel + 1, self => do
    let scan := self.scanStringRun
    if ¬ scan.valid then self.fail .malformedInput
    else
      let self := self.after scan.len
      if scan.stop = some quote then return self.after 1
      else if scan.stop ≠ some backslash then self.tokenStopError
      else
        let (_, self) ← self.readEscape
        skipStringFrom fuel self

attribute [grind =] skipStringFrom

/-- Skips the string whose quote `self` is at. -/
def skipString : Skipper := fun self => skipStringFrom (self.rest.length + 1) (self.after 1)

end Strings

section Numbers

/-- The digits that are kept of a number. -/
def digitsMax : Nat := 19

def exponentSaturation : Int := 1000000000000000

def pushExponentDigit (exponent : Int) (digit : UInt32) : Int :=
  if exponent ≥ exponentSaturation then exponent else exponent * 10 + digit.toNat

/-- The digits from here on, at most `cap`, folded into `digits`, and how many they are. -/
def accumulate : Nat → UInt64 → List UInt8 → UInt64 × Nat
  | cap + 1, digits, b :: rest =>
    if digitValue b > 9 then (digits, 0)
    else
      let (digits, n) := accumulate cap (digits * 10 + (digitValue b).toUInt64) rest
      (digits, n + 1)
  | _, digits, _ => (digits, 0)

attribute [grind =] accumulate

/-- Whether a digit from here on is not zero, and how many digits there are. -/
def dropDigits : Bool → List UInt8 → Bool × Nat
  | inexact, b :: rest =>
    if digitValue b > 9 then (inexact, 0)
    else
      let (inexact, n) := dropDigits (inexact ∨ b ≠ zero) rest
      (inexact, n + 1)
  | inexact, [] => (inexact, 0)

attribute [grind =] dropDigits

/-- A run of digits: the ones kept, how many of them and how many in all. -/
structure DigitRun where
  digits : UInt64
  kept : Nat
  len : Nat
  inexact : Bool

/-- Keeps at most `cap` digits, and passes over those after them. -/
def digitRun (cap : Nat) (digits : UInt64) (inexact : Bool) (rest : List UInt8) : DigitRun :=
  let (digits, kept) := accumulate cap digits rest
  if kept = cap ∨ rest.drop kept = [] then
    let (inexact, dropped) := dropDigits inexact (rest.drop kept)
    ⟨digits, kept, kept + dropped, inexact⟩
  else ⟨digits, kept, kept, inexact⟩

/-- The sign of a number whose first byte is `lead`, and the first byte after it. -/
def scanSign (lead : UInt8) : Reader (Bool × UInt8) := fun self =>
  if lead = minus then
    let self := self.after 1
    match self.rest with
    | [] => self.fail .eof
    | first :: _ => .ok ((true, first), self)
  else .ok ((false, lead), self)

/-- Passes over a leading zero, which no digit follows. -/
def scanLeadingZero (first : UInt8) : Skipper := fun self =>
  if digitValue first > 9 then self.fail .unexpectedType
  else if first = zero then
    if (self.after 1).rest.head?.any fun b => digitValue b ≤ 9 then self.fail .malformedInput
    else .ok (self.after 1)
  else .ok self

/-- The fraction of a number, or none of it. -/
structure Fraction where
  run : DigitRun
  leadZeros : Nat
  present : Bool

def scanFraction (int : DigitRun) : Reader Fraction := fun self =>
  if self.rest.head? = some point then
    let self := self.after 1
    let leadZeros := if int.digits = 0 then (self.rest.takeWhile (· = zero)).length else 0
    let run := digitRun (digitsMax - int.kept) int.digits int.inexact (self.rest.drop leadZeros)
    let self' := self.after (leadZeros + run.len)
    if leadZeros + run.len = 0 then self'.tokenStopError
    else .ok (⟨run, leadZeros, true⟩, self')
  else .ok (⟨⟨int.digits, 0, 0, int.inexact⟩, 0, false⟩, self)

/-- The digits of an exponent, and how many. -/
def exponentDigits : Int → List UInt8 → Int × Nat
  | exp, b :: rest =>
    if digitValue b > 9 then (exp, 0)
    else
      let (exp, n) := exponentDigits (pushExponentDigit exp (digitValue b)) rest
      (exp, n + 1)
  | exp, [] => (exp, 0)

attribute [grind =] exponentDigits

/-- The exponent of a number, or none. -/
def scanExponent : Reader (Option Int) := fun self =>
  if self.rest.head? = some (letter 'e') ∨ self.rest.head? = some (letter 'E') then
    let self := self.after 1
    let neg := self.rest.head? = some minus
    let self := if neg ∨ self.rest.head? = some plus then self.after 1 else self
    let (exp, n) := exponentDigits 0 self.rest
    if n = 0 then self.tokenStopError
    else .ok (some (if neg then -exp else exp), self.after n)
  else .ok (none, self)

/-- Scans the number at `self`, `lead` being its first byte. -/
def scanNumberInto (lead : Option UInt8) : Reader ScannedNumber := fun self =>
  match lead with
  | none => self.fail .eof
  | some lead => do
    let ((neg, first), start) ← self.scanSign lead
    let self ← start.scanLeadingZero first
    let int := digitRun digitsMax 0 false self.rest
    let self := self.after int.len
    let (frac, point) ← self.scanFraction int
    let (exp, last) ← point.scanExponent
    return ({
      neg
      digits := frac.run.digits
      intDigits := self.pos - start.pos
      fracDigits := frac.run.kept
      fracLeadZeros := frac.leadZeros
      exp := exp.getD 0
      hasFracOrExp := frac.present ∨ exp.isSome
      inexact := frac.run.inexact
      mantissaStart := start.pos
      mantissaEnd := point.pos }, last)

def skipNumber : Skipper := fun self => do
  let (_, self) ← self.scanNumberInto self.rest.head?
  return self

/-- The number at `self`, rounded to an `f64`, which may not be infinite.  `infinite` tells
that of a scanned number and of the bytes of its digits. -/
def parseFloatBits (infinite : ScannedNumber → List UInt8 → Bool) (lead : Option UInt8) :
    Reader ScannedNumber := fun self => do
  let (n, last) ← self.scanNumberInto lead
  let digits := (self.rest.drop (n.mantissaStart - self.pos)).take (n.mantissaEnd - n.mantissaStart)
  if infinite n digits then self.fail .overflow else return (n, last)

end Numbers

section Skipping

/-- Skips elements to the closing bracket, the first at `self`. -/
def skipElements (skip : Skipper) : Nat → Skipper
  | 0, self => self.fail .eof
  | fuel + 1, self => do
    match (← skip self).peekAfterWhitespace with
    | (none, self) => self.fail .eof
    | (some b, self) =>
      if b = closeBracket then return self.after 1
      else if b = comma then skipElements skip fuel (self.after 1)
      else self.fail .malformedInput

attribute [grind =] skipElements

def skipArrayBody (skip : Skipper) : Skipper := fun self =>
  let (b, self) := self.peekAfterWhitespace
  if b = some closeBracket then .ok (self.after 1)
  else skipElements skip (self.rest.length + 1) self

/-- Skips a member's key and its colon. -/
def skipKey : Skipper := fun self => do
  let (lead, self) := self.peekAfterWhitespace
  if lead ≠ some quote then
    if lead = none then self.fail .eof else self.fail .unexpectedType
  else (← self.skipString).expectChar colon

/-- Skips members to the closing brace, the first at `self`. -/
def skipMembers (skip : Skipper) : Nat → Skipper
  | 0, self => self.fail .eof
  | fuel + 1, self => do
    match (← skip (← self.skipKey)).peekAfterWhitespace with
    | (none, self) => self.fail .eof
    | (some b, self) =>
      if b = closeBrace then return self.after 1
      else if b = comma then skipMembers skip fuel (self.after 1)
      else self.fail .malformedInput

attribute [grind =] skipMembers

def skipObjectBody (skip : Skipper) : Skipper := fun self =>
  let (b, self) := self.peekAfterWhitespace
  if b = some closeBrace then .ok (self.after 1)
  else skipMembers skip (self.rest.length + 1) self

/-- Skips a value of at most `fuel` levels. -/
def skipValueWithin : Nat → Int → Skipper
  | 0, _, self => self.fail .eof
  | fuel + 1, depth, self =>
    match self.peekAfterWhitespace with
    | (none, self) => self.fail .eof
    | (some b, self) =>
      if b = quote then self.skipString
      else if b = letter 't' then self.expectTrue
      else if b = letter 'f' then self.expectFalse
      else if b = letter 'n' then self.expectNull
      else if b = openBracket then do
        let self := self.after 1
        let inner ← Cbor.CborDeserializer.deeper depth self.maxDepth self.pos
        self.skipArrayBody (skipValueWithin fuel inner)
      else if b = openBrace then do
        let self := self.after 1
        let inner ← Cbor.CborDeserializer.deeper depth self.maxDepth self.pos
        self.skipObjectBody (skipValueWithin fuel inner)
      else if b = minus ∨ 0x30 ≤ b ∧ b ≤ 0x39 then self.skipNumber
      else self.fail .malformedInput

attribute [grind =] skipValueWithin

/-- A level takes a byte, so that the bytes left bound the levels. -/
def skipValue (depth : Int) : Skipper := fun self =>
  skipValueWithin (self.rest.length + 1) depth self

end Skipping

section Reading

/-- Consumes a container's opening byte and descends into it. -/
def openContainer (c : UInt8) : Skipper := fun self => do
  let self ← self.expectChar c
  let depth ← Cbor.CborDeserializer.deeper self.depth self.maxDepth self.pos
  return { self with depth, firstEntry := true }

/-- Consumes a container's closing byte and ascends out of it. -/
def closeContainer (c : UInt8) : Skipper := fun self => do
  let self ← self.expectChar c
  return { self with
    depth := (self.depth - 1 + 2 ^ 31) % 2 ^ 32 - 2 ^ 31
    firstEntry := false }

/-- The head of an entry: whether there is one, the comma before it consumed. -/
def entryHead (close : UInt8) : Reader Bool := fun self =>
  match self.peekAfterWhitespace with
  | (none, self) => self.fail .eof
  | (some b, self) =>
    if b = close then .ok (false, self)
    else if self.firstEntry then .ok (true, { self with firstEntry := false })
    else if b ≠ comma then self.fail .malformedInput
    else .ok (true, { self with firstEntry := false }.after 1)

/-- The next element of an array, passed to `element`: whether there was one. -/
def nextElement (element : Skipper) : Reader Bool := fun self => do
  let (more, self) ← self.entryHead closeBracket
  if ¬ more then return (false, self)
  return (true, ← element self)

/-- The next key of an object, and the colon after it. -/
def nextKey : Reader (Option (List UInt8)) := fun self => do
  let (more, self) ← self.entryHead closeBrace
  if ¬ more then return (none, self)
  let (key, self) ← self.readJsonString
  return (some key, ← self.expectChar colon)

/-- Reads every element to the end of the array. -/
def visitElements (element : Skipper) : Nat → Skipper
  | 0, self => self.fail .eof
  | fuel + 1, self => do
    let (more, self) ← self.nextElement element
    if more then visitElements element fuel self else self.closeContainer closeBracket

def visitSeq (element : Skipper) : Skipper := fun self =>
  visitElements element (self.rest.length + 1) self

/-- Reads every member to the end of the object. -/
def visitMembers (value : Skipper) : Nat → Skipper
  | 0, self => self.fail .eof
  | fuel + 1, self => do
    let (key, self) ← self.nextKey
    if key.isSome then visitMembers value fuel (← value self)
    else self.closeContainer closeBrace

def visitMap (value : Skipper) : Skipper := fun self =>
  visitMembers value (self.rest.length + 1) self

def isNull : Reader Bool := fun self => do
  let (b, self) := self.peekAfterWhitespace
  if b = some (letter 'n') then return (true, ← self.expectNull) else return (false, self)

def deserializeBool : Reader Bool := fun self =>
  match self.peekAfterWhitespace with
  | (none, self) => self.fail .eof
  | (some b, self) =>
    if b = letter 't' then do return (true, ← self.expectTrue)
    else if b = letter 'f' then do return (false, ← self.expectFalse)
    else self.fail .unexpectedType

def deserializeString : Reader (List UInt8) := readJsonString

/-- A value of any shape of at most `fuel` levels, read by the visitor of `IgnoredAny`,
which reads all there is and keeps nothing. -/
def ignoredAnyWithin (infinite : ScannedNumber → List UInt8 → Bool) : Nat → Skipper
  | 0, self => self.fail .eof
  | fuel + 1, self =>
    match self.peekAfterWhitespace with
    | (none, self) => self.fail .eof
    | (some b, self) =>
      if b = letter 'n' then do return (← self.isNull).2
      else if b = letter 't' ∨ b = letter 'f' then do return (← self.deserializeBool).2
      else if b = quote then do return (← self.deserializeString).2
      else if b = openBracket then do
        (← self.openContainer openBracket).visitSeq (ignoredAnyWithin infinite fuel)
      else if b = openBrace then do
        (← self.openContainer openBrace).visitMap (ignoredAnyWithin infinite fuel)
      else if b = minus ∨ 0x30 ≤ b ∧ b ≤ 0x39 then do
        return (← self.parseFloatBits infinite (some b)).2
      else self.fail .unexpectedType

/-- `deserialize_any` for `IgnoredAny`. -/
def ignoredAny (infinite : ScannedNumber → List UInt8 → Bool) : Skipper := fun self =>
  ignoredAnyWithin infinite (self.rest.length + 1) self

end Reading

end JsonDeserializer

end Wado.Json
