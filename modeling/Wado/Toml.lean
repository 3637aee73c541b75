/-
TOML documents of one statement to a line, and Rust's debug form of a string.
-/
import Mathlib.Data.List.Basic
import Mathlib.Data.List.Nodup

namespace Toml

abbrev Text := List Char

/-- Why a text is not read: it is not TOML, or it uses what is not described here. -/
inductive Stop where
  | invalid
  | beyond
deriving DecidableEq, Repr

inductive Value where
  | string (s : Text)
  | integer (n : Nat)
  | boolean (b : Bool)
  | strings (items : List Text)
  | table (entries : List (Text × Text))
deriving DecidableEq, Repr

abbrev Table := List (Text × Value)

/-- The root table, and the tables of `[[name]]` headers, the latest first. -/
structure Document where
  root : Table
  arrays : List (Text × Table)
deriving DecidableEq, Repr

def keys {α : Type} (entries : List (Text × α)) : List Text := entries.map (·.1)

section Strings

/-- A control character that no basic string holds as itself. -/
def isControl (c : Char) : Bool := c.toNat < 0x20 ∧ c ≠ '\t' ∨ c.toNat = 0x7f

/-- The character an escape of one letter stands for. -/
def simpleEscape (c : Char) : Option Char :=
  if c = 'b' then some (Char.ofNat 8)
  else if c = 't' then some '\t'
  else if c = 'n' then some '\n'
  else if c = 'f' then some (Char.ofNat 12)
  else if c = 'r' then some '\r'
  else if c = '"' then some '"'
  else if c = '\\' then some '\\'
  else none

def hexDigit (c : Char) : Option Nat :=
  if c.isDigit then some (c.toNat - 48)
  else if 'a' ≤ c ∧ c ≤ 'f' then some (c.toNat - 87)
  else if 'A' ≤ c ∧ c ≤ 'F' then some (c.toNat - 55)
  else none

/-- Where the reader of a basic string is: among its characters, after a backslash, or
with so many hexadecimal digits of a character left to read. -/
inductive Mode where
  | plain
  | escape
  | scalar (left value : Nat)

def push (c : Char) (r : Except Stop (Text × Text)) : Except Stop (Text × Text) :=
  r.map fun (s, rest) => (c :: s, rest)

/-- The rest of a basic string, and what stands after its closing quote. -/
def readBasic : Mode → Text → Except Stop (Text × Text)
  | _, [] => .error .invalid
  | .plain, c :: rest =>
    if c = '"' then .ok ([], rest)
    else if c = '\\' then readBasic .escape rest
    else if isControl c then .error .invalid
    else push c (readBasic .plain rest)
  | .escape, c :: rest =>
    match simpleEscape c with
    | some x => push x (readBasic .plain rest)
    | none =>
      if c = 'u' then readBasic (.scalar 4 0) rest
      else if c = 'U' then readBasic (.scalar 8 0) rest
      -- later versions of TOML have these two
      else if c = 'e' ∨ c = 'x' then .error .beyond
      else .error .invalid
  | .scalar left value, c :: rest =>
    match hexDigit c with
    | none => .error .invalid
    | some digit =>
      let value := value * 16 + digit
      if left > 1 then readBasic (.scalar (left - 1) value) rest
      else if value.isValidChar then push (Char.ofNat value) (readBasic .plain rest)
      else .error .invalid

attribute [grind =] readBasic

/-- The string whose opening quote was read.  Three quotes open another kind. -/
def readString (rest : Text) : Except Stop (Text × Text) :=
  match rest with
  | '"' :: '"' :: _ => .error .beyond
  | _ => readBasic .plain rest

end Strings

section Values

def skip (rest : Text) : Text := rest.dropWhile fun c => c = ' ' ∨ c = '\t'

/-- The strings of an array whose bracket was read. -/
def readItems : Nat → Text → Except Stop (List Text × Text)
  | 0, _ => .error .beyond
  | fuel + 1, rest =>
    match skip rest with
    | ']' :: rest => .ok ([], rest)
    | '"' :: rest => do
      let (item, rest) ← readString rest
      match skip rest with
      | ']' :: rest => .ok ([item], rest)
      | ',' :: rest => do
        let (items, rest) ← readItems fuel rest
        .ok (item :: items, rest)
      | _ => .error .beyond
    | _ => .error .beyond

/-- One `"key" = "value"` of an inline table, its first quote read. -/
def readPair (rest : Text) : Except Stop ((Text × Text) × Text) := do
  let (key, rest) ← readString rest
  match skip rest with
  | '=' :: rest =>
    match skip rest with
    | '"' :: rest => do
      let (value, rest) ← readString rest
      .ok ((key, value), rest)
    | _ => .error .beyond
  | _ => .error .beyond

/-- The entries of an inline table whose brace was read. -/
def readPairs : Nat → Text → Except Stop (List (Text × Text) × Text)
  | 0, _ => .error .beyond
  | fuel + 1, rest =>
    match skip rest with
    | '"' :: rest => do
      let (entry, rest) ← readPair rest
      match skip rest with
      | '}' :: rest => .ok ([entry], rest)
      | ',' :: rest => do
        let (entries, rest) ← readPairs fuel rest
        .ok (entry :: entries, rest)
      | _ => .error .beyond
    | _ => .error .beyond

/-- A decimal without leading zeros. -/
def readInteger (rest : Text) : Except Stop (Value × Text) :=
  let digits := rest.takeWhile Char.isDigit
  let n := Nat.ofDigitChars 10 digits 0
  if Nat.toDigits 10 n = digits then .ok (.integer n, rest.dropWhile Char.isDigit)
  else .error .beyond

def readValue (rest : Text) : Except Stop (Value × Text) :=
  match rest with
  | '"' :: rest => do
    let (s, rest) ← readString rest
    .ok (.string s, rest)
  | '[' :: rest => do
    let (items, rest) ← readItems rest.length rest
    .ok (.strings items, rest)
  | '{' :: rest => do
    let (entries, rest) ← readPairs rest.length rest
    if (keys entries).Nodup then .ok (.table entries, rest) else .error .invalid
  | 't' :: 'r' :: 'u' :: 'e' :: rest => .ok (.boolean true, rest)
  | 'f' :: 'a' :: 'l' :: 's' :: 'e' :: rest => .ok (.boolean false, rest)
  | _ => readInteger rest

end Values

section Documents

def isBare (c : Char) : Bool := c.isAlphanum ∨ c = '_' ∨ c = '-'

/-- A row added to the table of the latest header, or to the root before any. -/
def Document.add (doc : Document) (key : Text) (value : Value) : Except Stop Document :=
  match doc with
  | ⟨root, []⟩ =>
    if key ∈ keys root then .error .invalid else .ok ⟨root ++ [(key, value)], []⟩
  | ⟨root, (name, table) :: arrays⟩ =>
    if key ∈ keys table then .error .invalid
    else .ok ⟨root, (name, table ++ [(key, value)]) :: arrays⟩

def readRow (doc : Document) (line : Text) : Except Stop Document :=
  let key := line.takeWhile isBare
  if key = [] then .error .beyond
  else
    match skip (line.dropWhile isBare) with
    | '=' :: rest => do
      let (value, rest) ← readValue (skip rest)
      if skip rest = [] then doc.add key value else .error .beyond
    | _ => .error .beyond

/-- A `[[name]]` header, its opening brackets read. -/
def readHeader (doc : Document) (rest : Text) : Except Stop Document :=
  let name := rest.takeWhile isBare
  if name = [] ∨ rest.dropWhile isBare ≠ [']', ']'] then .error .beyond
  else if name ∈ keys doc.root then .error .invalid
  else .ok ⟨doc.root, (name, []) :: doc.arrays⟩

def readLine (doc : Document) (line : Text) : Except Stop Document :=
  match line with
  | [] => .ok doc
  | '#' :: rest => if rest.any isControl then .error .beyond else .ok doc
  | '[' :: '[' :: rest => readHeader doc rest
  | _ => readRow doc line

attribute [grind =] readLine

def readLines (doc : Document) (lines : List Text) : Except Stop Document :=
  lines.foldlM readLine doc

def read (text : Text) : Except Stop Document := readLines ⟨[], []⟩ (text.splitOn '\n')

/-- The tables under a name, in order. -/
def Document.tables (doc : Document) (name : Text) : List Table :=
  ((doc.arrays.filter fun array => array.1 = name).map (·.2)).reverse

end Documents

end Toml

namespace EscapeDebug

/-- The characters that Rust's debug form of a string writes by their code: those that
are not printable, and those that extend a grapheme. -/
structure CharTable where
  unicode : Char → Bool
  control : ∀ c : Char, c.toNat < 0x20 ∨ c.toNat = 0x7f → unicode c = true
  printable : ∀ c : Char, 0x20 ≤ c.toNat → c.toNat < 0x7f → unicode c = false

/-- A character as the debug form of a string has it. -/
def escape (t : CharTable) (c : Char) : List Char :=
  if c.toNat = 0 then ['\\', '0']
  else if c = '\t' then ['\\', 't']
  else if c = '\r' then ['\\', 'r']
  else if c = '\n' then ['\\', 'n']
  else if c = '\\' then ['\\', '\\']
  else if c = '"' then ['\\', '"']
  else if t.unicode c then ['\\', 'u', '{'] ++ Nat.toDigits 16 c.toNat ++ ['}']
  else [c]

/-- `{:?}` of a string. -/
def debug (t : CharTable) (s : List Char) : List Char := '"' :: (s.flatMap (escape t) ++ ['"'])

end EscapeDebug
