/-
URI references, as `core:uri` reads, resolves and writes them.  A text is its bytes, and
an offset into it a number.
-/
import Mathlib.Data.List.Basic

namespace Wado

namespace Uri

def hash : UInt8 := 0x23
def percent : UInt8 := 0x25
def plus : UInt8 := 0x2b
def hyphen : UInt8 := 0x2d
def dot : UInt8 := 0x2e
def slash : UInt8 := 0x2f
def zero : UInt8 := 0x30
def colon : UInt8 := 0x3a
def question : UInt8 := 0x3f
def atSign : UInt8 := 0x40
def openBracket : UInt8 := 0x5b
def closeBracket : UInt8 := 0x5d
def underscore : UInt8 := 0x5f
def tilde : UInt8 := 0x7e

section Bytes

def isUpper (c : UInt8) : Bool := 0x41 ≤ c ∧ c ≤ 0x5a
def isAsciiAlphabetic (c : UInt8) : Bool := isUpper c ∨ 0x61 ≤ c ∧ c ≤ 0x7a
def isAsciiDigit (c : UInt8) : Bool := 0x30 ≤ c ∧ c ≤ 0x39
def isAsciiAlphanumeric (c : UInt8) : Bool := isAsciiAlphabetic c ∨ isAsciiDigit c
def isHexdigit (c : UInt8) : Bool :=
  isAsciiDigit c ∨ 0x41 ≤ c ∧ c ≤ 0x46 ∨ 0x61 ≤ c ∧ c ≤ 0x66

def toAsciiLowercase (text : List UInt8) : List UInt8 :=
  text.map fun c => if isUpper c then c + 32 else c

def isUnreserved (c : UInt8) : Bool :=
  isAsciiAlphanumeric c ∨ c = hyphen ∨ c = dot ∨ c = underscore ∨ c = tilde

/-- The bytes of `!$&'()*+,;=`. -/
def subDelims : List UInt8 :=
  [0x21, 0x24, 0x26, 0x27, 0x28, 0x29, 0x2a, 0x2b, 0x2c, 0x3b, 0x3d]

def isSubDelim (c : UInt8) : Bool := c ∈ subDelims

/-- The offset of the first byte that is one of `stops`, or the length of the text. -/
def findAny (stops text : List UInt8) : Nat := (text.takeWhile fun c => c ∉ stops).length

/-- The offset of the first place where `part` stands. -/
def find (part : List UInt8) : List UInt8 → Option Nat
  | [] => if part = [] then some 0 else none
  | c :: text => if part <+: c :: text then some 0 else (find part text).map (· + 1)

/-- The offset of the last byte that is `c`. -/
def rfind (c : UInt8) (text : List UInt8) : Option Nat :=
  if c ∈ text then some (text.length - 1 - findAny [c] text.reverse) else none

end Bytes

structure UriError where
  offset : Nat
  message : String
deriving DecidableEq, Repr

def fail {α : Type} (offset : Nat) (message : String) : Except UriError α :=
  .error ⟨offset, message⟩

end Uri

/-- A URI reference. -/
structure Uri where
  scheme : Option (List UInt8)
  authority : Option (List UInt8)
  path : List UInt8
  query : Option (List UInt8)
  fragment : Option (List UInt8)
deriving DecidableEq, Repr

namespace Uri

section Checks

/-- The checks read a component's bytes `part`, which start at an offset of the text. -/
def checkSchemeFrom (start : Nat) : List UInt8 → Nat → Except UriError Unit
  | [], _ => .ok ()
  | c :: part, i =>
    if isAsciiAlphabetic c ∨ i > 0 ∧ (isAsciiDigit c ∨ c = plus ∨ c = hyphen ∨ c = dot) then
      checkSchemeFrom start part (i + 1)
    else fail (start + i) "invalid scheme"

def checkScheme (part : List UInt8) : Except UriError Unit :=
  if part = [] then fail 0 "invalid scheme" else checkSchemeFrom 0 part 0

/-- Every byte is unreserved, a sub-delimiter, part of a percent-encoding or one of
`extra`. -/
def check (extra : List UInt8) (component : String) : Nat → List UInt8 → Except UriError Unit
  | _, [] => .ok ()
  | i, c :: part =>
    if c = percent then
      match part with
      | a :: b :: part =>
        if isHexdigit a ∧ isHexdigit b then check extra component (i + 3) part
        else fail i "invalid percent-encoding"
      | _ => fail i "invalid percent-encoding"
    else if isUnreserved c ∨ isSubDelim c ∨ c ∈ extra then check extra component (i + 1) part
    else fail i ("invalid character in " ++ component)

/-- Four decimal octets, none above 255 or with a leading zero. -/
def isIpv4 (s : List UInt8) : Bool :=
  let octets := s.splitOn dot
  octets.length = 4 ∧ octets.all fun o =>
    ! (o = [] ∨ o.length > 3 ∨ o.length > 1 ∧ o.head? = some zero ∨ ¬ o.all isAsciiDigit ∨
      o.foldl (fun n c => n * 10 + (c - zero).toNat) 0 > 255)

/-- The pieces of a part up to its last, `i` of them read, or none where it holds anything
else. -/
def ipv6PiecesFrom (v4Last : Bool) : List (List UInt8) → Nat → Option Nat
  | [], i => some i
  | p :: pieces, i =>
    if pieces = [] ∧ v4Last ∧ dot ∈ p then if isIpv4 p then some (i + 2) else none
    else if p = [] ∨ p.length > 4 ∨ ¬ p.all isHexdigit then none
    else ipv6PiecesFrom v4Last pieces (i + 1)

/-- The 16-bit pieces of a part, an IPv4 address in the last place counting two. -/
def ipv6Pieces (part : List UInt8) (v4Last : Bool) : Option Nat :=
  if part = [] then some 0 else ipv6PiecesFrom v4Last (part.splitOn colon) 0

/-- Eight pieces, or fewer around one gap. -/
def isIpv6 (s : List UInt8) : Bool :=
  match find [colon, colon] s with
  | none => ipv6Pieces s true = some 8
  | some gap =>
    match ipv6Pieces (s.take gap) false, ipv6Pieces (s.drop (gap + 2)) true with
    | some before, some after => before + after ≤ 7
    | _, _ => false

def isIpFuture (s : List UInt8) : Bool :=
  match find [dot] s with
  | none => false
  | some i =>
    i ≥ 2 ∧ i + 1 < s.length ∧ (s.head? = some 0x76 ∨ s.head? = some 0x56) ∧
      ((s.take i).drop 1).all isHexdigit ∧
      (s.drop (i + 1)).all fun c => isUnreserved c ∨ isSubDelim c ∨ c = colon

def checkPort : Nat → List UInt8 → Except UriError Unit
  | _, [] => .ok ()
  | i, c :: part =>
    if isAsciiDigit c then checkPort (i + 1) part else fail i "invalid character in port"

/-- The userinfo of an authority, and where its host starts. -/
def checkUserinfo (start : Nat) (part : List UInt8) : Except UriError Nat :=
  let at_ := findAny [atSign] part
  if at_ < part.length then do
    check [colon] "userinfo" start (part.take at_)
    return at_ + 1
  else .ok 0

/-- The host at the start of `part`, and where it ends. -/
def checkHost (start : Nat) (part : List UInt8) : Except UriError Nat :=
  if part.head? = some openBracket then
    let close := findAny [closeBracket] part
    if close ≥ part.length then fail start "unclosed IP literal"
    else
      let literal := (part.take close).drop 1
      if ¬ (isIpv6 literal ∨ isIpFuture literal) then fail start "invalid IP literal"
      else if close + 1 < part.length ∧ part[close + 1]? ≠ some colon then
        fail (start + close + 1) "invalid character in host"
      else .ok (close + 1)
  else do
    let hostEnd := findAny [colon] part
    check [] "host" start (part.take hostEnd)
    return hostEnd

/-- `[ userinfo "@" ] host [ ":" port ]`, from `start` on. -/
def checkAuthority (start : Nat) (part : List UInt8) : Except UriError Unit := do
  let host ← checkUserinfo start part
  let hostEnd ← checkHost (start + host) (part.drop host)
  checkPort (start + host + hostEnd + 1) (part.drop (host + hostEnd + 1))

end Checks

def pathExtra : List UInt8 := [colon, atSign, slash]
def queryExtra : List UInt8 := [colon, atSign, slash, question]

/-- The bytes that end a scheme, or show that there is none. -/
def schemeStops : List UInt8 := [colon, slash, question, hash]

/-- The scheme of a reference, and the offset after it. -/
def readScheme (text : List UInt8) : Except UriError (Option (List UInt8) × Nat) := do
  let first := findAny schemeStops text
  if text[first]? = some colon then
    checkScheme (text.take first)
    return (some (toAsciiLowercase (text.take first)), first + 1)
  else return (none, 0)

/-- The authority at an offset of a reference, and the offset after it. -/
def readAuthority (text : List UInt8) (pos : Nat) : Except UriError (Option (List UInt8) × Nat) :=
    do
  let rest := text.drop pos
  if [slash, slash] <+: rest then
    let start := pos + 2
    let part := (text.drop start).take (findAny [slash, question, hash] (text.drop start))
    checkAuthority start part
    return (some part, start + part.length)
  else return (none, pos)

/-- The component after `mark`, up to one of `stops`, and the offset after it. -/
def readMarked (mark : UInt8) (stops : List UInt8) (component : String) (text : List UInt8)
    (pos : Nat) : Except UriError (Option (List UInt8) × Nat) := do
  if text[pos]? = some mark then
    let start := pos + 1
    let part := (text.drop start).take (findAny stops (text.drop start))
    check queryExtra component start part
    return (some part, start + part.length)
  else return (none, pos)

def reference (text : List UInt8) : Except UriError Uri := do
  let (scheme, pos) ← readScheme text
  let (authority, pos) ← readAuthority text pos
  let path := (text.drop pos).take (findAny [question, hash] (text.drop pos))
  check pathExtra "path" pos path
  let (query, pos) ← readMarked question [hash] "query" text (pos + path.length)
  let (fragment, _) ← readMarked hash [] "fragment" text pos
  return { scheme, authority, path, query, fragment }

def fromStr (input : List UInt8) : Except UriError Uri := reference input

/-- The reference as it is written. -/
def toStr (self : Uri) : List UInt8 :=
  (match self.scheme with | some scheme => scheme ++ [colon] | none => []) ++
  (match self.authority with | some authority => [slash, slash] ++ authority | none => []) ++
  self.path ++
  (match self.query with | some query => question :: query | none => []) ++
  (match self.fragment with | some fragment => hash :: fragment | none => [])

/-- The loop over a path's dot segments, every step of which takes bytes off the input. -/
def removeDotsFrom : Nat → List UInt8 → List UInt8 → List UInt8
  | 0, _, out => out
  | fuel + 1, input, out =>
    if input = [] then out
    else if [dot, dot, slash] <+: input then removeDotsFrom fuel (input.drop 3) out
    else if [dot, slash] <+: input ∨ [slash, dot, slash] <+: input then
      removeDotsFrom fuel (input.drop 2) out
    else if input = [slash, dot] then removeDotsFrom fuel [slash] out
    else if [slash, dot, dot, slash] <+: input ∨ input = [slash, dot, dot] then
      removeDotsFrom fuel (if input = [slash, dot, dot] then [slash] else input.drop 3)
        (out.take ((rfind slash out).getD 0))
    else if input = [dot] ∨ input = [dot, dot] then out
    else
      let start := if [slash] <+: input then 1 else 0
      let finish := start + findAny [slash] (input.drop start)
      removeDotsFrom fuel (input.drop finish) (out ++ input.take finish)

def removeDotSegments (path : List UInt8) : List UInt8 := removeDotsFrom path.length path []

/-- A path appended to the base's path after its last segment. -/
def merge (self : Uri) (path : List UInt8) : List UInt8 :=
  if self.authority.isSome ∧ self.path = [] then slash :: path
  else
    match rfind slash self.path with
    | some i => self.path.take (i + 1) ++ path
    | none => path

/-- A reference resolved against a base. -/
def resolve (self r : Uri) : Uri :=
  let t :=
    if r.scheme.isSome ∨ r.authority.isSome then { r with path := removeDotSegments r.path }
    else if r.path = [] then
      { r with path := self.path, query := if r.query = none then self.query else r.query }
    else if [slash] <+: r.path then { r with path := removeDotSegments r.path }
    else { r with path := removeDotSegments (self.merge r.path) }
  let t :=
    if r.scheme = none then
      { t with
        scheme := self.scheme
        authority := if r.authority = none then self.authority else t.authority }
    else t
  if t.authority = none ∧ [slash, slash] <+: t.path then { t with path := [slash, dot] ++ t.path }
  else t

end Uri

end Wado
