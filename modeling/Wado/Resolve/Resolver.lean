/-
Resolving a manifest's dependencies into locked packages: the crawl of the dependency graph,
what the solver is asked and what is locked of its answer.
-/
import Mathlib.Data.List.Dedup
import Mathlib.Data.List.DropRight
import Wado.Manifest.LockFile
import Wado.ExceptSteps

namespace Wado.Resolve

open Toml
open Wado.Manifest (IndexMap LockedPackage)

theorem text_lawful : LawfulBEq Text := inferInstance

attribute [local instance] text_lawful

/-- What the crate `semver` gives: versions, requirements and which versions meet them. -/
structure Semver (V R : Type) where
  parse : Text → Option V
  display : V → Text
  parse_display : ∀ v, parse (display v) = some v
  order : V → V → Ordering
  /-- The version of the given three numbers. -/
  new : Nat → Nat → Nat → V
  parseReq : Text → Except Text R
  reqMatches : R → V → Bool

inductive VersionError where
  | invalidFormat (input reason : Text)
  | bareVersion (input : Text)
deriving DecidableEq

inductive GitPin where
  | version (requirement : Text)
  | ref (name : Text)
deriving DecidableEq

inductive DependencySource where
  | git (url : Text) (pin : GitPin) (directory : Option Text)
  | registry (registry : Option Text) (package version : Text)
  | path (path : Text)
  | workspace
deriving DecidableEq

/-- What the resolver reads of a manifest. -/
structure Manifest where
  /-- The version of `[package]`. -/
  packageVersion : Option Text
  /-- The entry of each world. -/
  world : IndexMap Text
  registries : IndexMap Text
  dependencies : IndexMap DependencySource
  devDependencies : IndexMap DependencySource
deriving DecidableEq

inductive ProviderError where
  | notFound (source message : Text)
  | networkError (url message : Text)
  | ioError (path message : Text)
  | invalidManifest (source message : Text)
deriving DecidableEq

structure RegistryPackageInfo where
  manifest : Manifest
  integrity : Text

structure GitTagInfo (V : Type) where
  version : V
  sha : Text

/-- The world outside the resolver. -/
structure DependencyProvider (V : Type) where
  listRegistryVersions : Text → Text → Except ProviderError (List V)
  fetchRegistryPackage : Text → Text → V → Except ProviderError RegistryPackageInfo
  listGitTags : Text → Except ProviderError (List (GitTagInfo V))
  resolveGitRef : Text → Text → Except ProviderError Text
  fetchGitManifest : Text → Text → Option Text → Except ProviderError Manifest
  loadPathManifest : Text → Except ProviderError Manifest

inductive ResolveError where
  | provider (e : ProviderError)
  | noRegistry (dep : Text)
  | invalidRequirement (dep requirement : Text) (reason : VersionError)
  | unsupportedSource (dep kind : Text)
  | noSolution (report : Text)
deriving DecidableEq

/-- How a resolution ends without locked packages: by an error, by an index that is not
there, or not within the steps that it is given. -/
inductive Halt where
  | error (e : ResolveError)
  | panic
  | steps
deriving DecidableEq

/-- A dependency edge: the child's lock id and the requirement on it. -/
abbrev Edge (R : Type) := Text × Option R

inductive Fetch where
  | registry (url package : Text)
  | git (url : Text) (pin : GitPin) (directory : Option Text)
deriving DecidableEq

structure VerData (R : Type) where
  edges : List (Edge R)
  world : IndexMap Text
  integrity : Option Text
  resolvedRef : Option Text

/-- A set of versions, as the solver's `Ranges`. -/
abbrev Ranges (V : Type) := V → Bool

/-- A package and version, and the constraints that it puts on others. -/
structure SolverRow (V : Type) where
  id : Text
  version : V
  constraints : List (Text × Ranges V)

/-- Selects a version of each package that the root needs, or reports that it cannot. -/
abbrev Solver (V : Type) := List (SolverRow V) → Text → V → Except Text (List (Text × V))

def root : Text := "@root".toList

def registryLockId (registryUrl package : Text) : Text :=
  "registry+".toList ++ registryUrl ++ ['/'] ++ package

def gitLockId (url key : Text) : Text := "git+".toList ++ url ++ ['/'] ++ key

def get {α : Type} (m : IndexMap α) (key : Text) : Option α := m.entries.lookup key

/-- The URL that a registry alias names. -/
def registryUrl (registries : IndexMap Text) (registry : Option Text) : Option Text :=
  get registries (registry.getD "default".toList)

/-- A path dependency's directory, seen from where the first manifest is. -/
def joinBase (base path : Text) : Text :=
  if base = [] then path else base.rdropWhile (· = '/') ++ ['/'] ++ path

/-- The state of a crawl.  The data of a version of a package are a row of `data`. -/
structure Crawl (V R : Type) where
  sources : Text → Option Fetch
  versions : Text → Option (List V)
  shas : Text → Option (V → Option Text)
  data : List ((Text × V) × VerData R)
  fetched : List (Text × V)
  queue : List (Edge R)

/-- A dependency table, the registries in scope and the directory it is read from. -/
structure Table where
  deps : IndexMap DependencySource
  registries : IndexMap Text
  base : Text

/-- A package that a dependency asks for: an edge and where to fetch it. -/
structure Request (R : Type) where
  id : Text
  req : Option R
  fetch : Fetch

def Request.edge {R : Type} (r : Request R) : Edge R := (r.id, r.req)

/-- What a dependency asks for: a package, or another table to flatten into its own. -/
inductive Asked (R : Type) where
  | package (request : Request R)
  | table (table : Table)

section Crawling

variable {V R : Type} [DecidableEq V] (semver : Semver V R) (provider : DependencyProvider V)

def ofProvider {α : Type} : Except ProviderError α → Except Halt α
  | .ok a => .ok a
  | .error e => .error (.error (.provider e))

/-- An index into a map, which has to be there. -/
def index {α : Type} : Option α → Except Halt α
  | some a => .ok a
  | none => .error .panic

/-- `VersionSpecifier::parse`: a requirement starts with its operator. -/
def parseSpecifier (s : Text) : Except VersionError R :=
  if s.head? = some '^' ∨ s.head? = some '~' ∨ s.head? = some '=' then
    match semver.parseReq s with
    | .ok req => .ok req
    | .error reason => .error (.invalidFormat s reason)
  else .error (.bareVersion s)

def parseReq (dep requirement : Text) : Except Halt R :=
  match parseSpecifier semver requirement with
  | .ok req => .ok req
  | .error reason => .error (.error (.invalidRequirement dep requirement reason))

def packageVersion (manifest : Manifest) : V :=
  (manifest.packageVersion.bind semver.parse).getD (semver.new 0 0 0)

/-- What the dependency `key` of `table` asks for. -/
def ask (table : Table) (key : Text) : DependencySource → Except Halt (Asked R)
  | .registry registry package version =>
    match registryUrl table.registries registry with
    | none => .error (.error (.noRegistry key))
    | some url => do
      let spec ← parseReq semver key version
      return .package ⟨registryLockId url package, some spec, .registry url package⟩
  | .git url (.version v) directory => do
    let spec ← parseReq semver key v
    return .package ⟨gitLockId url key, some spec, .git url (.version v) directory⟩
  | .git url (.ref name) directory =>
    .ok (.package ⟨gitLockId url key, none, .git url (.ref name) directory⟩)
  | .path path => do
    let base := joinBase table.base path
    let m ← ofProvider (provider.loadPathManifest base)
    return .table ⟨m.dependencies, m.registries, base⟩
  | .workspace => .error (.error (.unsupportedSource key "workspace".toList))

/-- Notes an edge: the first declaration of an id gives its source. -/
def Crawl.declare (crawl : Crawl V R) (r : Request R) : Crawl V R :=
  { crawl with
    sources := if (crawl.sources r.id).isSome then crawl.sources
      else Function.update crawl.sources r.id (some r.fetch)
    queue := crawl.queue ++ [r.edge] }

/-- The tables still to be expanded, the edges found and the crawl. -/
structure Expansion (V R : Type) where
  stack : List Table
  edges : List (Edge R)
  crawl : Crawl V R

def expandDep (table : Table) (e : Expansion V R) (dep : Text × DependencySource) :
    Except Halt (Expansion V R) := do
  match ← ask semver provider table dep.1 dep.2 with
  | .package r => return { e with edges := e.edges ++ [r.edge], crawl := e.crawl.declare r }
  | .table inner => return { e with stack := inner :: e.stack }

/-- Expands the tables of a stack, its top first. -/
def expandStack : Nat → Expansion V R → Except Halt (List (Edge R) × Crawl V R)
  | 0, _ => .error .steps
  | fuel + 1, e =>
    match e.stack with
    | [] => .ok (e.edges, e.crawl)
    | table :: stack => do
      let e ← table.deps.entries.foldlM (expandDep semver provider table)
        { e with stack }
      expandStack fuel e

def Crawl.expand (fuel : Nat) (crawl : Crawl V R) (deps : IndexMap DependencySource)
    (registries : IndexMap Text) (base : Text) : Except Halt (List (Edge R) × Crawl V R) :=
  expandStack semver provider fuel ⟨[⟨deps, registries, base⟩], [], crawl⟩

/-- The commit of each version among tags, the last tag of a version counting. -/
def tagShas (tags : List (GitTagInfo V)) : V → Option Text :=
  tags.foldl (fun shas tag => Function.update shas tag.version (some tag.sha)) fun _ => none

/-- Lists the versions of a package once. -/
def Crawl.ensureVersions (id : Text) (crawl : Crawl V R) : Except Halt (Crawl V R) :=
  if (crawl.versions id).isSome then .ok crawl
  else do
    match ← index (crawl.sources id) with
    | .registry url package =>
      let versions ← ofProvider (provider.listRegistryVersions url package)
      return { crawl with versions := Function.update crawl.versions id (some versions) }
    | .git url (.version _) _ =>
      let tags ← ofProvider (provider.listGitTags url)
      return { crawl with
        shas := Function.update crawl.shas id (some (tagShas tags))
        versions := Function.update crawl.versions id (some (tags.map GitTagInfo.version)) }
    | .git url (.ref name) directory =>
      let sha ← ofProvider (provider.resolveGitRef url name)
      let manifest ← ofProvider (provider.fetchGitManifest url sha directory)
      let version := packageVersion semver manifest
      return { crawl with
        shas := Function.update crawl.shas id
          (some (Function.update (fun _ => none) version (some sha)))
        versions := Function.update crawl.versions id (some [version]) }

/-- Fetches the manifest of a version, and expands its dependencies. -/
def Crawl.fetchVerdata (fuel : Nat) (id : Text) (version : V) (crawl : Crawl V R) :
    Except Halt (VerData R × Crawl V R) := do
  match ← index (crawl.sources id) with
  | .registry url package =>
    let info ← ofProvider (provider.fetchRegistryPackage url package version)
    let (edges, crawl) ← crawl.expand semver provider fuel info.manifest.dependencies
      info.manifest.registries []
    return (⟨edges, info.manifest.world, some info.integrity, none⟩, crawl)
  | .git url _ directory =>
    let shas ← index (crawl.shas id)
    let sha ← index (shas version)
    let manifest ← ofProvider (provider.fetchGitManifest url sha directory)
    let (edges, crawl) ← crawl.expand semver provider fuel manifest.dependencies
      manifest.registries []
    return (⟨edges, manifest.world, none, some sha⟩, crawl)

/-- Fetches a version of a package once. -/
def Crawl.fetchOnce (fuel : Nat) (id : Text) (crawl : Crawl V R) (version : V) :
    Except Halt (Crawl V R) :=
  if (id, version) ∈ crawl.fetched then .ok crawl
  else do
    let crawl := { crawl with fetched := (id, version) :: crawl.fetched }
    let (data, crawl) ← crawl.fetchVerdata semver provider fuel id version
    return { crawl with data := crawl.data ++ [((id, version), data)] }

/-- Whether a version meets a requirement; an edge of a git ref has none. -/
def meets (req : Option R) (version : V) : Bool :=
  match req with
  | some spec => semver.reqMatches spec version
  | none => true

/-- Drains the queue. -/
def Crawl.run : Nat → Crawl V R → Except Halt (Crawl V R)
  | 0, _ => .error .steps
  | fuel + 1, crawl =>
    match crawl.queue with
    | [] => .ok crawl
    | (id, req) :: queue => do
      let crawl ← Crawl.ensureVersions semver provider id { crawl with queue }
      let versions ← index (crawl.versions id)
      let inRange := versions.filter (meets semver req)
      let crawl ← inRange.foldlM (Crawl.fetchOnce semver provider fuel id) crawl
      Crawl.run fuel crawl

end Crawling

section Solving

variable {V R : Type} [DecidableEq V] (semver : Semver V R)

/-- The versions that an edge admits: a union of listed versions, or all. -/
def Crawl.range (crawl : Crawl V R) (edge : Edge R) : Ranges V :=
  match edge.2 with
  | some spec => fun v => v ∈ ((crawl.versions edge.1).getD []).filter (semver.reqMatches spec)
  | none => fun _ => true

/-- Intersects a range with that of its id, or adds it. -/
def mergeRange (id : Text) (range : Ranges V) : List (Text × Ranges V) → List (Text × Ranges V)
  | [] => [(id, range)]
  | entry :: merged =>
    if entry.1 = id then (id, fun v => entry.2 v && range v) :: merged
    else entry :: mergeRange id range merged

def Crawl.ranges (crawl : Crawl V R) (edges : List (Edge R)) : List (Text × Ranges V) :=
  edges.foldl (fun merged edge => mergeRange edge.1 (crawl.range semver edge) merged) []

def Crawl.table (crawl : Crawl V R) (rootEdges : List (Edge R)) : List (SolverRow V) :=
  ⟨root, semver.new 0 0 0, crawl.ranges semver rootEdges⟩ ::
    crawl.data.map fun row => ⟨row.1.1, row.1.2, crawl.ranges semver row.2.edges⟩

end Solving

section Locking

variable {V R : Type} [DecidableEq V] (semver : Semver V R)

/-- The ids that a stack of ids leads to over selected edges. -/
def Crawl.nondevFrom (crawl : Crawl V R) (selected : List (Text × V)) :
    Nat → List Text → List Text → Except Halt (List Text)
  | 0, _, _ => .error .steps
  | _ + 1, [], reached => .ok reached
  | fuel + 1, id :: stack, reached =>
    if id ∈ reached then crawl.nondevFrom selected fuel stack reached
    else
      match selected.lookup id with
      | none => crawl.nondevFrom selected fuel stack (id :: reached)
      | some version => do
        let data ← index (crawl.data.lookup (id, version))
        let next := data.edges.filterMap fun edge =>
          if (selected.lookup edge.1).isSome ∧ edge.1 ∉ id :: reached then some edge.1
          else none
        crawl.nondevFrom selected fuel (next.reverse ++ stack) (id :: reached)

/-- The ids that are required at runtime. -/
def Crawl.nondevClosure (crawl : Crawl V R) (fuel : Nat) (selected : List (Text × V))
    (nondevRoots : List Text) : Except Halt (List Text) :=
  crawl.nondevFrom selected fuel
    (nondevRoots.filter fun id => (selected.lookup id).isSome).reverse []

/-- The order of versions, and of texts where one is none. -/
def versionOrder (a b : Text) : Ordering :=
  match semver.parse a, semver.parse b with
  | some av, some bv => semver.order av bv
  | _, _ => compare a b

def lockedLe (a b : LockedPackage) : Bool :=
  ((compare a.id b.id).then (versionOrder semver a.version b.version)).isLE

/-- `id@version` of each selected child, sorted and once. -/
def lockedDeps (selected : List (Text × V)) (edges : List (Edge R)) : List Text :=
  ((edges.filterMap fun edge => (selected.lookup edge.1).map fun v =>
    edge.1 ++ ['@'] ++ semver.display v).mergeSort fun a b => (compare a b).isLE).dedup

def Crawl.lock (crawl : Crawl V R) (selected : List (Text × V)) (nondev : List Text)
    (package : Text × V) : Except Halt LockedPackage := do
  let data ← index (crawl.data.lookup package)
  return {
    id := package.1
    version := semver.display package.2
    resolvedRef := data.resolvedRef
    integrity := data.integrity
    dev := package.1 ∉ nondev
    world := data.world
    deps := lockedDeps semver selected data.edges }

def Crawl.toLocked (crawl : Crawl V R) (fuel : Nat) (selected : List (Text × V))
    (nondevRoots : List Text) : Except Halt (List LockedPackage) := do
  let nondev ← crawl.nondevClosure fuel selected nondevRoots
  let out ← selected.mapM (crawl.lock semver selected nondev)
  return out.mergeSort (lockedLe semver)

end Locking

/-- Resolves the dependencies of a manifest, in at most `fuel` rounds of each loop. -/
def resolve {V R : Type} [DecidableEq V] (semver : Semver V R) (provider : DependencyProvider V)
    (solver : Solver V) (fuel : Nat) (manifest : Manifest) :
    Except Halt (List LockedPackage) := do
  let crawl : Crawl V R := ⟨fun _ => none, fun _ => none, fun _ => none, [], [], []⟩
  let (rootEdges, crawl) ← crawl.expand semver provider fuel manifest.dependencies
    manifest.registries []
  let (devEdges, crawl) ← crawl.expand semver provider fuel manifest.devDependencies
    manifest.registries []
  let crawl ← crawl.run semver provider fuel
  match solver (crawl.table semver (rootEdges ++ devEdges)) root (semver.new 0 0 0) with
  | .error report => .error (.error (.noSolution report))
  | .ok solution =>
    let selected := solution.filter fun package => package.1 ≠ root
    crawl.toLocked semver fuel selected (rootEdges.map Prod.fst)

end Wado.Resolve
