/-
The escapes of string, char and template literals: the encoder that picks one
for each character, and the decoder with its pending surrogate.
-/
import Wado.ExceptSteps
import Mathlib.Algebra.Order.Ring.Nat
import Mathlib.Tactic.SplitIfs

namespace Wado.Escape

open ExceptSteps

/-- The control characters of Unicode, C0, delete and C1. -/
def isControl (c : Char) : Bool :=
  decide (c.toNat < 0x20) || (decide (0x7f ≤ c.toNat) && decide (c.toNat < 0xa0))

/-- At least four uppercase hexadecimal digits. -/
def hexText (n : Nat) : List Char :=
  ((Nat.toDigits 16 n).map Char.toUpper).leftpad 4 '0'

def pushEscaped (c quote : Char) : List Char :=
  if c = quote then ['\\', c]
  else if c = '\\' then ['\\', '\\']
  else if c = '\n' then ['\\', 'n']
  else if c = '\r' then ['\\', 'r']
  else if c = '\t' then ['\\', 't']
  else if c = '\x00' then ['\\', '0']
  else if isControl c then ['\\', 'u', '\x7b'] ++ hexText c.toNat ++ ['\x7d']
  else [c]

/-- The text a string literal needs between its quotes. -/
def escapeString (s : List Char) : List Char :=
  s.flatMap fun c => pushEscaped c '\x22'

/-- The text a char literal needs between its quotes. -/
def escapeChar (c : Char) : List Char :=
  pushEscaped c '\x27'

/-- What one escape sequence denotes. -/
inductive Decoded where
  | char (c : Char)
  | surrogate (codeUnit : Nat)
deriving DecidableEq, Repr

def Decoded.toChar : Decoded → Except String Char
  | .char c => .ok c
  | .surrogate codeUnit =>
    .error s!"lone surrogate U+{String.ofList (hexText codeUnit)} is not a character"

def unpairedHigh : String :=
  "invalid surrogate pair: high surrogate not followed by low surrogate"

def isHighSurrogate (codeUnit : Nat) : Bool :=
  decide (0xd800 ≤ codeUnit) && decide (codeUnit ≤ 0xdbff)

def isLowSurrogate (codeUnit : Nat) : Bool :=
  decide (0xdc00 ≤ codeUnit) && decide (codeUnit ≤ 0xdfff)

def decodeSurrogatePair (high low : Nat) : Nat :=
  0x10000 + (high - 0xd800) <<< 10 + (low - 0xdc00)

/-- `char::from_u32` -/
def charFromU32 (n : Nat) : Option Char :=
  if n.isValidChar then some (Char.ofNat n) else none

/-- `Option::ok_or_else` -/
def okOrElse {α : Type} (error : String) : Option α → Except String α
  | some a => .ok a
  | none => .error error

/-- Joins the halves of a surrogate pair. -/
structure SurrogatePairer where
  pendingHigh : Option Nat
deriving DecidableEq, Repr

namespace SurrogatePairer

def pass (pairer : SurrogatePairer) (c : Char) : Except String Char :=
  match pairer.pendingHigh with
  | some _ => .error unpairedHigh
  | none => .ok c

/-- The character an escape completes, or none while a high half waits. -/
def push (pairer : SurrogatePairer) (decoded : Decoded) :
    Except String (Option Char × SurrogatePairer) :=
  match decoded with
  | .char c => do
    let c ← pairer.pass c
    return (some c, pairer)
  | .surrogate codeUnit =>
    if isHighSurrogate codeUnit then
      if pairer.pendingHigh.isSome then .error unpairedHigh
      else .ok (none, ⟨some codeUnit⟩)
    else
      match pairer.pendingHigh with
      | some high => do
        let c ← okOrElse "invalid surrogate pair"
          (charFromU32 (decodeSurrogatePair high codeUnit))
        return (some c, ⟨none⟩)
      | none => do
        let c ← decoded.toChar
        return (some c, pairer)

def finish (pairer : SurrogatePairer) : Except String Unit :=
  match pairer.pendingHigh with
  | some _ => .error unpairedHigh
  | none => .ok ()

end SurrogatePairer

/-- The escapes of one letter. -/
def namedEscape : Char → Option Char
  | 'n' => some '\n'
  | 't' => some '\t'
  | 'r' => some '\r'
  | '\\' => some '\\'
  | '\x22' => some '\x22'
  | '\x27' => some '\x27'
  | '/' => some '/'
  | 'b' => some '\x08'
  | 'f' => some '\x0c'
  | '0' => some '\x00'
  | _ => none

def isHexDigit (c : Char) : Bool :=
  c.isDigit || (decide ('a' ≤ c) && decide (c ≤ 'f')) || (decide ('A' ≤ c) && decide (c ≤ 'F'))

def hexValue (c : Char) : Nat :=
  if c.isDigit then c.toNat - '0'.toNat
  else if 'a' ≤ c then c.toNat - 'a'.toNat + 10
  else c.toNat - 'A'.toNat + 10

def hexNumber (hex : List Char) : Nat :=
  hex.foldl (fun n c => n * 16 + hexValue c) 0

/-- `from_str_radix` over hexadecimal digits, for an integer type below a bound. -/
def parseHex (bound : Nat) (hex : List Char) : Option Nat :=
  if hexNumber hex < bound then some (hexNumber hex) else none

/-- The digits up to the closing brace. -/
def bracedDigits (hex : List Char) : List Char → Except String (List Char × List Char)
  | [] => .error "unterminated unicode escape"
  | c :: chars =>
    if c = '\x7d' then .ok (hex, chars)
    else if isHexDigit c then bracedDigits (hex ++ [c]) chars
    else .error s!"invalid character in unicode escape: {c}"

/-- As many digits as asked for. -/
def digits : Nat → List Char → List Char → Except String (List Char × List Char)
  | 0, hex, chars => .ok (hex, chars)
  | n + 1, hex, c :: chars =>
    if isHexDigit c then digits n (hex ++ [c]) chars
    else .error "expected 4 hex digits after \\u"
  | _ + 1, _, [] => .error "expected 4 hex digits after \\u"

/-- The escape after `\u`, and what is left of the text. -/
def unescapeUnicode (chars : List Char) : Except String (Decoded × List Char) :=
  if chars.head? = some '\x7b' then do
    let (hex, rest) ← bracedDigits [] chars.tail
    if hex.isEmpty then .error "empty unicode escape"
    else
      match parseHex (2 ^ 32) hex with
      | none => .error s!"invalid unicode escape: \\u\x7b{String.ofList hex}\x7d"
      | some codePoint => do
        let c ← okOrElse s!"invalid unicode code point: U+{String.ofList (hexText codePoint)}"
          (charFromU32 codePoint)
        return (.char c, rest)
  else do
    let (hex, rest) ← digits 4 [] chars
    match parseHex (2 ^ 16) hex with
    | none => .error s!"invalid unicode escape: \\u{String.ofList hex}"
    | some codeUnit =>
      if isHighSurrogate codeUnit || isLowSurrogate codeUnit then
        .ok (.surrogate codeUnit, rest)
      else do
        let c ← okOrElse s!"invalid unicode code point: U+{String.ofList (hexText codeUnit)}"
          (charFromU32 codeUnit)
        return (.char c, rest)

/-- One escape sequence after its backslash. -/
def unescapeOne : List Char → Except String (Decoded × List Char)
  | [] => .error "unterminated escape sequence"
  | c :: chars =>
    match namedEscape c with
    | some decoded => .ok (.char decoded, chars)
    | none =>
      if c = 'u' then unescapeUnicode chars
      else if c = '\n' ∨ c = '\r' then
        .error
          "a backslash before a line break is not an escape: Wado has no line continuation"
      else .error s!"invalid escape sequence: \\{c}"

variable {hex chars out rest : List Char}

theorem bracedDigits_length
    (h : bracedDigits hex chars = .ok (out, rest)) : rest.length < chars.length := by
  induction chars generalizing hex with
  | nil => cases h
  | cons c chars ih =>
    rw [bracedDigits] at h
    split_ifs at h
    · cases h
      exact Nat.lt_succ_self _
    · exact Nat.lt_succ_of_lt (ih h)

theorem digits_length {n : Nat}
    (h : digits n hex chars = .ok (out, rest)) : rest.length ≤ chars.length := by
  induction n generalizing hex chars with
  | zero =>
    cases h
    exact Nat.le_refl _
  | succ n ih =>
    cases chars with
    | nil => cases h
    | cons c chars =>
      rw [digits] at h
      split_ifs at h
      exact Nat.le_succ_of_le (ih h)

variable {chars rest : List Char}

theorem unescapeUnicode_length {decoded : Decoded}
    (h : unescapeUnicode chars = .ok (decoded, rest)) : rest.length ≤ chars.length := by
  unfold unescapeUnicode at h
  split_ifs at h
  · obtain ⟨⟨hex, rest'⟩, hdigits, h⟩ := bind_eq_ok.mp h
    have hlt := bracedDigits_length hdigits
    rw [List.length_tail] at hlt
    dsimp only at h
    split_ifs at h
    split at h
    · cases h
    · obtain ⟨c, -, h⟩ := bind_eq_ok.mp h
      cases h
      omega
  · obtain ⟨⟨hex, rest'⟩, hdigits, h⟩ := bind_eq_ok.mp h
    have hle := digits_length hdigits
    dsimp only at h
    split at h
    · cases h
    · split_ifs at h
      · cases h
        exact hle
      · obtain ⟨c, -, h⟩ := bind_eq_ok.mp h
        cases h
        exact hle

theorem unescapeOne_length {decoded : Decoded}
    (h : unescapeOne chars = .ok (decoded, rest)) : rest.length < chars.length := by
  cases chars with
  | nil => cases h
  | cons c chars =>
    rw [unescapeOne] at h
    split at h
    · cases h
      exact Nat.lt_succ_self _
    · split_ifs at h
      exact Nat.lt_succ_of_le (unescapeUnicode_length h)

/-- The character after a backslash when the literal's kind lets it stand for itself. -/
def standing (standsForItself : Char → Bool) : List Char → Option (Char × List Char)
  | [] => none
  | c :: chars => if standsForItself c then some (c, chars) else none

theorem standing_length {standsForItself : Char → Bool} {c : Char}
    (h : standing standsForItself chars = some (c, rest)) : rest.length < chars.length := by
  cases chars with
  | nil => cases h
  | cons c' chars =>
    rw [standing] at h
    split_ifs at h
    cases h
    exact Nat.lt_succ_self _

/-- The text from a position on, a high half pending or not. -/
def unescapeFrom (standsForItself : Char → Bool) (pairer : SurrogatePairer) :
    List Char → Except String (List Char)
  | [] => do
    pairer.finish
    return []
  | ch :: chars =>
    if ch = '\\' then
      match _hself : standing standsForItself chars with
      | some (next, rest) => do
        let c ← pairer.pass next
        let result ← unescapeFrom standsForItself pairer rest
        return c :: result
      | none =>
        match _hone : unescapeOne chars with
        | .error e => .error e
        | .ok (decoded, rest) =>
          match pairer.push decoded with
          | .error e => .error e
          | .ok (c, pairer) => do
            let result ← unescapeFrom standsForItself pairer rest
            return c.toList ++ result
    else do
      let c ← pairer.pass ch
      let result ← unescapeFrom standsForItself pairer chars
      return c :: result
termination_by chars => chars.length
decreasing_by
  · exact Nat.lt_succ_of_lt (standing_length _hself)
  · exact Nat.lt_succ_of_lt (unescapeOne_length _hone)
  · exact Nat.lt_succ_self _

/-- The text a literal's raw content denotes. -/
def unescapeBody (raw : List Char) (standsForItself : Char → Bool) : Except String (List Char) :=
  unescapeFrom standsForItself ⟨none⟩ raw

def unescapeString (raw : List Char) : Except String (List Char) :=
  unescapeBody raw fun _ => false

def unescapeTemplateString (raw : List Char) : Except String (List Char) :=
  unescapeBody raw fun c =>
    decide (c = '\x7b') || decide (c = '\x7d') || decide (c = '$') || decide (c = '\x60')

def unescapeChar (raw : List Char) : Except String Char := do
  match ← unescapeString raw with
  | [c] => return c
  | [] => .error "empty char literal"
  | _ => .error "character literal must contain a single character"

end Wado.Escape
