/-
The lock file `wado.lock`: its values, its writer and its reader.
-/
import Mathlib.Data.List.Sort
import Wado.Toml

namespace Wado.Manifest

open Toml

/-- What the lock file asks of the TOML parser: a document of a text, or a message, and
the message for a document that has other types than the lock file's. -/
structure TomlParser where
  parse : Text → Except Text Document
  mismatch : Document → Text

/-- The parser reads TOML as it is defined. -/
structure TomlParser.Conforms (toml : TomlParser) : Prop where
  accepts : ∀ text doc, read text = .ok doc → toml.parse text = .ok doc
  refuses : ∀ text, read text = .error .invalid → ∃ message, toml.parse text = .error message

/-- A map from strings, in the order of insertion. -/
structure IndexMap (α : Type) where
  entries : List (Text × α)
  distinct : (keys entries).Nodup
deriving DecidableEq

namespace IndexMap

variable {α : Type}

def empty : IndexMap α := ⟨[], List.nodup_nil⟩

/-- A later value of a key takes the place of the earlier one. -/
def update (key : Text) (value : α) : List (Text × α) → List (Text × α)
  | [] => [(key, value)]
  | entry :: entries =>
    if entry.1 = key then (key, value) :: entries else entry :: update key value entries

theorem keys_update (key : Text) (value : α) (entries : List (Text × α)) :
    keys (update key value entries) =
      if key ∈ keys entries then keys entries else keys entries ++ [key] := by
  induction entries with
  | nil => rfl
  | cons entry entries ih =>
    by_cases heq : entry.1 = key
    · simp [update, keys, heq]
    · simp only [update, if_neg heq, keys, List.map_cons, List.mem_cons] at ih ⊢
      rw [ih]
      by_cases hmem : key ∈ entries.map (·.1)
      · simp [hmem]
      · simp [hmem, Ne.symm heq]

def insert (m : IndexMap α) (key : Text) (value : α) : IndexMap α :=
  ⟨update key value m.entries, by
    rw [keys_update]
    by_cases hmem : key ∈ keys m.entries
    · rw [if_pos hmem]
      exact m.distinct
    · rw [if_neg hmem]
      simpa [List.nodup_append] using ⟨m.distinct, fun a ha h => hmem (h ▸ ha)⟩⟩

def fromEntries (entries : List (Text × α)) : IndexMap α :=
  entries.foldl (fun m entry => m.insert entry.1 entry.2) empty

end IndexMap

/-- The digest of the first `extent` bytes of a file, or of the whole file. -/
structure LockedRemote where
  url : Text
  extent : Option UInt64
  integrity : Text
deriving DecidableEq

/-- A resolved package. -/
structure LockedPackage where
  id : Text
  version : Text
  resolvedRef : Option Text
  integrity : Option Text
  dev : Bool
  world : IndexMap Text
  deps : List Text
deriving DecidableEq

structure LockFile where
  version : UInt32
  depsHash : Text
  packages : List LockedPackage
  buildDependencies : List LockedPackage
  remotes : List LockedRemote
deriving DecidableEq

inductive LockFileError where
  | toml (message : Text)
  | invalidVersion (expected found : UInt32)
  | missingField (packageId field : Text)
deriving DecidableEq

section Writing

variable (t : EscapeDebug.CharTable)

def LockedPackage.le (a b : LockedPackage) : Bool :=
  ((compare a.id b.id).then (compare a.version b.version)).isLE

def LockedRemote.le (a b : LockedRemote) : Bool :=
  ((compare a.url b.url).then (compare a.extent b.extent)).isLE

def sortedPackages (packages : List LockedPackage) : List LockedPackage :=
  packages.mergeSort LockedPackage.le

def sortedRemotes (remotes : List LockedRemote) : List LockedRemote :=
  remotes.mergeSort LockedRemote.le

/-- `key = "value"` on a line. -/
def writeString (key : String) (value : Text) : Text :=
  key.toList ++ " = ".toList ++ EscapeDebug.debug t value ++ ['\n']

def writeOptional (key : String) : Option Text → Text
  | some value => writeString t key value
  | none => []

def writeExtent : Option UInt64 → Text
  | some extent => "extent = ".toList ++ Nat.toDigits 10 extent.toNat ++ ['\n']
  | none => []

def writeWorld (world : IndexMap Text) : Text :=
  if world.entries = [] then []
  else
    "world = ".toList ++ ['{', ' '] ++ ", ".toList.intercalate (world.entries.map fun (fq, path) =>
        EscapeDebug.debug t fq ++ " = ".toList ++ EscapeDebug.debug t path) ++
      [' ', '}', '\n']

def writeDeps (deps : List Text) : Text :=
  if deps = [] then "deps = []\n".toList
  else
    "deps = [".toList ++ ", ".toList.intercalate (deps.map (EscapeDebug.debug t)) ++ "]\n".toList

def writeLockedPackage (header : String) (pkg : LockedPackage) : Text :=
  ['\n'] ++ header.toList ++ ['\n'] ++ writeString t "id" pkg.id ++
    writeString t "version" pkg.version ++
    writeOptional t "resolved-ref" pkg.resolvedRef ++
    writeOptional t "integrity" pkg.integrity ++
    (if pkg.dev then "dev = true\n".toList else []) ++
    writeWorld t pkg.world ++
    writeDeps t pkg.deps

def writeRemote (remote : LockedRemote) : Text :=
  "\n[[remote]]\n".toList ++ writeString t "url" remote.url ++ writeExtent remote.extent ++
    writeString t "integrity" remote.integrity

def LockFile.toToml (lock : LockFile) : Text :=
  "# This file is auto-generated by wado. Do not edit manually.\n".toList ++
    ("version = ".toList ++ Nat.toDigits 10 lock.version.toNat ++ ['\n']) ++
    writeString t "deps-hash" lock.depsHash ++
    (sortedPackages lock.packages).flatMap (writeLockedPackage t "[[package]]") ++
    (sortedPackages lock.buildDependencies).flatMap
      (writeLockedPackage t "[[build-dependency]]") ++
    (sortedRemotes lock.remotes).flatMap (writeRemote t)

end Writing

section Reading

structure RawLockedPackage where
  id : Option Text
  version : Option Text
  resolvedRef : Option Text
  integrity : Option Text
  dev : Option Bool
  world : Option (IndexMap Text)
  deps : Option (List Text)

structure RawLockFile where
  version : Option UInt32
  depsHash : Option Text
  package : Option (List RawLockedPackage)
  buildDependency : Option (List RawLockedPackage)
  remote : Option (List LockedRemote)

/-- The value under `key`, taken by `take`: `none` where it has another type. -/
def optional {α : Type} (take : Value → Option α) (table : Table) (key : String) :
    Option (Option α) :=
  match table.lookup key.toList with
  | none => some none
  | some value => (take value).map some

def asString : Value → Option Text
  | .string s => some s
  | _ => none

def asBool : Value → Option Bool
  | .boolean b => some b
  | _ => none

def asU32 : Value → Option UInt32
  | .integer n => if n < UInt32.size then some (UInt32.ofNat n) else none
  | _ => none

def asU64 : Value → Option UInt64
  | .integer n => if n < UInt64.size then some (UInt64.ofNat n) else none
  | _ => none

def asWorld : Value → Option (IndexMap Text)
  | .table entries => some (IndexMap.fromEntries entries)
  | _ => none

def asStrings : Value → Option (List Text)
  | .strings items => some items
  | _ => none

def rawLockedPackage (table : Table) : Option RawLockedPackage := do
  let id ← optional asString table "id"
  let version ← optional asString table "version"
  let resolvedRef ← optional asString table "resolved-ref"
  let integrity ← optional asString table "integrity"
  let dev ← optional asBool table "dev"
  let world ← optional asWorld table "world"
  let deps ← optional asStrings table "deps"
  return { id, version, resolvedRef, integrity, dev, world, deps }

/-- A row of a remote: the two strings are required. -/
def rawLockedRemote (table : Table) : Option LockedRemote := do
  let url ← (← optional asString table "url")
  let extent ← optional asU64 table "extent"
  let integrity ← (← optional asString table "integrity")
  return { url, extent, integrity }

/-- The rows under `name`: an empty array stands for none of them. -/
def optionalRows {α : Type} (take : Table → Option α) (doc : Document) (name : String) :
    Option (Option (List α)) :=
  match doc.root.lookup name.toList with
  | some (.strings []) => some (some [])
  | some _ => none
  | none =>
    if doc.tables name.toList = [] then some none
    else ((doc.tables name.toList).mapM take).map some

def rawLockFile (doc : Document) : Option RawLockFile := do
  let version ← optional asU32 doc.root "version"
  let depsHash ← optional asString doc.root "deps-hash"
  let package ← optionalRows rawLockedPackage doc "package"
  let buildDependency ← optionalRows rawLockedPackage doc "build-dependency"
  let remote ← optionalRows rawLockedRemote doc "remote"
  return { version, depsHash, package, buildDependency, remote }

/-- A field that has to be there. -/
def required {α : Type} (packageId field : Text) : Option α → Except LockFileError α
  | some a => .ok a
  | none => .error (.missingField packageId field)

def convertLockedPackage (raw : RawLockedPackage) : Except LockFileError LockedPackage := do
  let id ← required "(unknown)".toList "id".toList raw.id
  let version ← required id "version".toList raw.version
  return {
    id, version
    resolvedRef := raw.resolvedRef
    integrity := raw.integrity
    dev := raw.dev.getD false
    world := raw.world.getD IndexMap.empty
    deps := raw.deps.getD [] }

def parseRaw (toml : TomlParser) (tomlStr : Text) : Except LockFileError RawLockFile :=
  match toml.parse tomlStr with
  | .error message => .error (.toml message)
  | .ok doc =>
    match rawLockFile doc with
    | some raw => .ok raw
    | none => .error (.toml (toml.mismatch doc))

def checkVersion (version : UInt32) : Except LockFileError Unit :=
  if version ≠ 1 then .error (.invalidVersion 1 version) else .ok ()

def LockFile.fromStr (toml : TomlParser) (tomlStr : Text) : Except LockFileError LockFile := do
  let raw ← parseRaw toml tomlStr
  let version ← required "(header)".toList "version".toList raw.version
  checkVersion version
  let depsHash ← required "(header)".toList "deps-hash".toList raw.depsHash
  let packages ← (raw.package.getD []).mapM convertLockedPackage
  let buildDependencies ← (raw.buildDependency.getD []).mapM convertLockedPackage
  return {
    version, depsHash, packages, buildDependencies
    remotes := raw.remote.getD [] }

end Reading

end Wado.Manifest
