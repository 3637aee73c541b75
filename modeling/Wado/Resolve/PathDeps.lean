/-
Flattening path dependencies: the tables that a table's path dependencies lead to, when
the packages are in finitely many directories.  The flattening keeps no record of where it
has been, so it ends exactly where no table leads back to one of the same directory.
-/
import Mathlib.Data.Set.Finite.Lattice
import Wado.Resolve.Resolution
import Wado.StackWalk

namespace Wado.Resolve

open Toml List
open Wado.Manifest (IndexMap LockedPackage)
open ExceptSteps

/-- Where path dependencies are read from: a directory is the list of the names that lead
to it from the top.  An error names the path as it was spelled. -/
structure PathFiles where
  /-- The directory of the first manifest. -/
  root : List Text
  read : List Text → Except (Text → ProviderError) Manifest
  /-- The directories of packages; elsewhere a manifest is empty. -/
  packages : List (List Text)
  read_else : ∀ dir m, dir ∉ packages → read dir = .ok m → m.dependencies.entries = []

/-- The directory that a component of a path leads to. -/
def goto (dir : List Text) (name : Text) : List Text :=
  if name = [] ∨ name = ['.'] then dir
  else if name = ['.', '.'] then dir.dropLast
  else dir ++ [name]

/-- The directory that a path leads to from `dir`. -/
def enter (dir : List Text) (path : Text) : List Text := (path.splitOn '/').foldl goto dir

namespace PathFiles

variable (files : PathFiles)

/-- Where a path starts: an absolute one at the top. -/
def start (path : Text) : List Text := if path.head? = some '/' then [] else files.root

/-- The directory of a path, `.` and `..` normalised. -/
def locate (path : Text) : List Text := enter (files.start path) path

def load (path : Text) : Except ProviderError Manifest :=
  match files.read (files.locate path) with
  | .ok m => .ok m
  | .error e => .error (e path)

end PathFiles

/-- A provider that reads path dependencies from `files`. -/
def DependencyProvider.withFiles {V : Type} (provider : DependencyProvider V) (files : PathFiles) :
    DependencyProvider V :=
  { provider with loadPathManifest := files.load }

section Paths

variable (dir : List Text)

theorem enter_append (xs path : Text) :
    enter dir (xs ++ '/' :: path) = enter (enter dir xs) path := by
  unfold enter
  rw [splitOn_append_cons_self, foldl_append]

theorem enter_nil : enter dir [] = dir := rfl

theorem enter_trimmed (base : Text) :
    enter dir (base.rdropWhile (· = '/')) = enter dir base := by
  induction base using List.reverseRecOn with
  | nil => rw [rdropWhile_nil]
  | append_singleton base c ih =>
    rw [rdropWhile_concat]
    by_cases hc : c = '/'
    · subst hc
      rw [if_pos (decide_eq_true rfl), ih, enter_append, enter_nil]
    · rw [if_neg (by simpa using hc)]

variable (files : PathFiles)

theorem start_append {base : Text} (h : base ≠ []) (path : Text) :
    files.start (base.rdropWhile (· = '/') ++ '/' :: path) = files.start base := by
  unfold PathFiles.start
  cases htrim : base.rdropWhile (· = '/') with
  | nil =>
    cases base with
    | nil => exact absurd rfl h
    | cons c base =>
      have hc := rdropWhile_eq_nil_iff.mp htrim c mem_cons_self
      rw [decide_eq_true_iff] at hc
      subst hc
      rfl
  | cons c rest =>
    obtain ⟨more, hmore⟩ : c :: rest <+: base := by
      rw [← htrim]
      exact rdropWhile_prefix _ _
    rw [← hmore]
    rfl

theorem locate_joinBase {base : Text} (h : base ≠ []) (path : Text) :
    files.locate (joinBase base path) = enter (files.locate base) path := by
  unfold joinBase PathFiles.locate
  rw [if_neg h, append_assoc, singleton_append, start_append files h, enter_append,
    enter_trimmed]

theorem joinBase_eq_nil {base path : Text} : joinBase base path = [] ↔ base = [] ∧ path = [] := by
  unfold joinBase
  by_cases h : base = []
  · rw [if_pos h]
    exact ⟨fun hpath => ⟨h, hpath⟩, fun hboth => hboth.2⟩
  · rw [if_neg h]
    constructor
    · intro hnil
      simp at hnil
    · rintro ⟨hbase, -⟩
      exact absurd hbase h

end Paths

section Spots

variable (files : PathFiles)

/-- A place that a base leads to.  At the first manifest's own base an absolute path leads
to the top; elsewhere it is joined like the others. -/
structure Place where
  dir : List Text
  first : Bool
deriving DecidableEq

def PathFiles.place (base : Text) : Place := ⟨files.locate base, decide (base = [])⟩

/-- Where a path dependency of a table at `place` is. -/
def PathFiles.follow (place : Place) (path : Text) : Place :=
  ⟨enter (if place.first ∧ path.head? = some '/' then [] else place.dir) path,
    decide (place.first ∧ path = [])⟩

theorem place_joinBase (base path : Text) :
    files.place (joinBase base path) = PathFiles.follow (files.place base) path := by
  unfold PathFiles.place PathFiles.follow
  by_cases h : base = []
  · subst h
    have hjoin : joinBase [] path = path := if_pos rfl
    rw [hjoin]
    simp only [decide_true, true_and, Place.mk.injEq, and_true]
    unfold PathFiles.locate PathFiles.start
    by_cases habs : path.head? = some '/'
    · rw [if_pos habs, if_pos habs]
    · rw [if_neg habs, if_neg habs]
      rfl
  · rw [locate_joinBase files h]
    simp [joinBase_eq_nil, h]

/-- What the flattening knows of a table: what it declares and where. -/
structure Spot where
  deps : IndexMap DependencySource
  registries : IndexMap Text
  place : Place
deriving DecidableEq

def Table.spot (table : Table) : Spot :=
  ⟨table.deps, table.registries, files.place table.base⟩

end Spots

section Tables

variable {V R : Type} (semver : Semver V R) (provider : DependencyProvider V)

def Asked.inner : Asked R → Option Table
  | .package _ => none
  | .table t => some t

/-- The tables of a table's path dependencies, where all its dependencies can be asked. -/
def Table.inner (table : Table) : Option (List Table) :=
  match table.deps.entries.mapM fun dep => ask semver provider table dep.1 dep.2 with
  | .ok asked => some (asked.filterMap Asked.inner)
  | .error _ => none

variable {semver} {provider}

theorem inner_of_asks {table : Table} {asked : List (Asked R)}
    (h : (table.deps.entries.mapM fun dep => ask semver provider table dep.1 dep.2) = .ok asked) :
    table.inner semver provider = some (asked.filterMap Asked.inner) := by
  unfold Table.inner
  rw [h]

theorem inner_of_error {table : Table} {halt : Halt}
    (h : (table.deps.entries.mapM fun dep => ask semver provider table dep.1 dep.2) =
      .error halt) : table.inner semver provider = none := by
  unfold Table.inner
  rw [h]

theorem ask_ne_steps (table : Table) (key : Text) (source : DependencySource) :
    ask semver provider table key source ≠ .error .steps := by
  have hreq : ∀ requirement (f : R → Except Halt (Asked R)), (∀ spec, f spec ≠ .error .steps) →
      (parseReq semver key requirement >>= f) ≠ .error .steps := by
    intro requirement f hf
    unfold parseReq
    cases parseSpecifier semver requirement with
    | ok spec => exact hf spec
    | error reason =>
      intro h
      cases h
  cases source with
  | registry registry package version =>
    unfold ask
    dsimp only
    cases registryUrl table.registries registry with
    | none =>
      intro h
      cases h
    | some url =>
      refine hreq version _ fun spec h => ?_
      cases h
  | git url pin directory =>
    cases pin with
    | version v =>
      refine hreq v _ fun spec h => ?_
      cases h
    | ref name =>
      intro h
      cases h
  | path path =>
    change (ofProvider (provider.loadPathManifest (joinBase table.base path)) >>= fun m =>
      .ok (Asked.table ⟨m.dependencies, m.registries, joinBase table.base path⟩)) ≠ .error .steps
    cases provider.loadPathManifest (joinBase table.base path) with
    | ok m =>
      intro h
      cases h
    | error e =>
      intro h
      cases h
  | workspace =>
    intro h
    cases h

theorem asks_ne_steps (table : Table) (deps : List (Text × DependencySource)) :
    (deps.mapM fun dep => ask semver provider table dep.1 dep.2) ≠ .error .steps := by
  induction deps with
  | nil =>
    intro h
    cases h
  | cons dep deps ih =>
    rw [mapM_cons]
    cases hask : ask semver provider table dep.1 dep.2 with
    | error halt =>
      rintro h
      cases h
      exact ask_ne_steps table dep.1 dep.2 hask
    | ok asked =>
      cases hrest : deps.mapM fun dep => ask semver provider table dep.1 dep.2 with
      | error halt =>
        intro h
        cases h
        exact ih hrest
      | ok rest =>
        intro h
        cases h

/-- Expanding dependencies pushes the tables that they ask for, the last one on top. -/
theorem expandDeps_stack (table : Table) (deps : List (Text × DependencySource))
    (e : Expansion V R) :
    (deps.foldlM (expandDep semver provider table) e).map Expansion.stack =
      (deps.mapM fun dep => ask semver provider table dep.1 dep.2).map fun asked =>
        (asked.filterMap Asked.inner).reverse ++ e.stack := by
  induction deps generalizing e with
  | nil => rfl
  | cons dep deps ih =>
    rw [foldlM_cons, mapM_cons]
    unfold expandDep
    cases ask semver provider table dep.1 dep.2 with
    | error halt => rfl
    | ok asked =>
      cases asked with
      | package r =>
        change (deps.foldlM (expandDep semver provider table) _).map Expansion.stack = _
        rw [ih]
        cases deps.mapM fun dep => ask semver provider table dep.1 dep.2 with
        | error halt => rfl
        | ok rest => rfl
      | table inner =>
        change (deps.foldlM (expandDep semver provider table) _).map Expansion.stack = _
        rw [ih]
        cases deps.mapM fun dep => ask semver provider table dep.1 dep.2 with
        | error halt => rfl
        | ok rest =>
          change Except.ok _ = Except.ok _
          simp [Asked.inner]

/-- The expansion of a stack ends where the walk of its tables does. -/
theorem expandStack_eq_steps {fuel : Nat} {e : Expansion V R} :
    expandStack semver provider fuel e = .error .steps ↔
      StackWalk.ends (Table.inner semver provider) fuel e.stack = false := by
  induction fuel generalizing e with
  | zero => exact ⟨fun _ => rfl, fun _ => rfl⟩
  | succ fuel ih =>
    cases hstack : e.stack with
    | nil =>
      unfold expandStack
      rw [hstack]
      constructor
      · intro h
        cases h
      · intro h
        cases h
    | cons table stack =>
      have hdeps := @expandDeps_stack V R semver provider table
        table.deps.entries { e with stack }
      have hsteps := @asks_ne_steps V R semver provider table table.deps.entries
      unfold expandStack StackWalk.ends
      rw [hstack]
      dsimp only
      cases hasked : table.deps.entries.mapM fun dep =>
          ask semver provider table dep.1 dep.2 with
      | error halt =>
        have hinner := inner_of_error hasked
        rw [hasked] at hdeps hsteps
        rw [hinner]
        cases hfold : table.deps.entries.foldlM (expandDep semver provider table)
            { e with stack } with
        | error halt' =>
          rw [hfold] at hdeps
          obtain rfl : halt' = halt := Except.error.inj hdeps
          constructor
          · intro h
            obtain rfl : halt' = .steps := Except.error.inj h
            exact absurd rfl hsteps
          · intro h
            cases h
        | ok e' =>
          rw [hfold] at hdeps
          cases hdeps
      | ok asked =>
        have hinner := inner_of_asks hasked
        rw [hasked] at hdeps
        rw [hinner]
        cases hfold : table.deps.entries.foldlM (expandDep semver provider table)
            { e with stack } with
        | error halt' =>
          rw [hfold] at hdeps
          cases hdeps
        | ok e' =>
          rw [hfold] at hdeps
          have hpushed : e'.stack = (asked.filterMap Asked.inner).reverse ++ stack :=
            Except.ok.inj hdeps
          change expandStack semver provider fuel e' = .error .steps ↔ _
          rw [ih, hpushed]

end Tables

section Finite

variable {V R : Type} {semver : Semver V R} {provider : DependencyProvider V} (files : PathFiles)

/-- The spot of a package that is read at a place. -/
def PathFiles.spotAt (place : Place) : Option Spot :=
  match files.read place.dir with
  | .ok m => some ⟨m.dependencies, m.registries, place⟩
  | .error _ => none

theorem ask_path (table : Table) (key path : Text) :
    (ask semver (provider.withFiles files) table key (.path path)).toOption.map
        (fun asked => asked.inner.map (Table.spot files)) =
      (files.spotAt (PathFiles.follow (files.place table.base) path)).map some := by
  have hplace := place_joinBase files table.base path
  have hdir : files.locate (joinBase table.base path) =
      (PathFiles.follow (files.place table.base) path).dir := by
    rw [← hplace]
    rfl
  change (ofProvider (files.load (joinBase table.base path)) >>= fun m =>
    .ok (Asked.table ⟨m.dependencies, m.registries, joinBase table.base path⟩)).toOption.map _ = _
  unfold PathFiles.load PathFiles.spotAt
  rw [hdir]
  cases files.read (PathFiles.follow (files.place table.base) path).dir with
  | error e => rfl
  | ok m =>
    change some (some (Spot.mk _ _ (files.place (joinBase table.base path)))) = some (some _)
    rw [hplace]

/-- Tables of one spot ask for the same of a dependency, as far as tables go. -/
theorem ask_spot {table table' : Table} (hspot : table.spot files = table'.spot files)
    (key : Text) (source : DependencySource) :
    (ask semver (provider.withFiles files) table key source).toOption.map
        (fun asked => asked.inner.map (Table.spot files)) =
      (ask semver (provider.withFiles files) table' key source).toOption.map
        (fun asked => asked.inner.map (Table.spot files)) := by
  have hregistries : table.registries = table'.registries := congrArg Spot.registries hspot
  have hplace : files.place table.base = files.place table'.base := congrArg Spot.place hspot
  cases source with
  | registry registry package version =>
    unfold ask
    dsimp only
    rw [hregistries]
  | git url pin directory =>
    cases pin with
    | version v => rfl
    | ref name => rfl
  | path path => rw [ask_path, ask_path, hplace]
  | workspace => rfl

theorem asks_spot {table table' : Table} (hspot : table.spot files = table'.spot files)
    (deps : List (Text × DependencySource)) :
    (deps.mapM fun dep => ask semver (provider.withFiles files) table dep.1 dep.2).toOption.map
        (fun asked => asked.filterMap fun a => a.inner.map (Table.spot files)) =
      (deps.mapM fun dep => ask semver (provider.withFiles files) table' dep.1
        dep.2).toOption.map
        (fun asked => asked.filterMap fun a => a.inner.map (Table.spot files)) := by
  induction deps with
  | nil => rfl
  | cons dep deps ih =>
    have hdep := @ask_spot V R semver provider files _ _ hspot dep.1 dep.2
    rw [mapM_cons, mapM_cons]
    revert hdep ih
    cases ask semver (provider.withFiles files) table dep.1 dep.2 with
    | error halt =>
      cases ask semver (provider.withFiles files) table' dep.1 dep.2 with
      | error halt' => exact fun _ _ => rfl
      | ok asked' =>
        intro _ hdep
        cases hdep
    | ok asked =>
      cases ask semver (provider.withFiles files) table' dep.1 dep.2 with
      | error halt' =>
        intro _ hdep
        cases hdep
      | ok asked' =>
        cases deps.mapM fun dep =>
            ask semver (provider.withFiles files) table dep.1 dep.2 with
        | error halt =>
          cases deps.mapM fun dep =>
              ask semver (provider.withFiles files) table' dep.1 dep.2 with
          | error halt' => exact fun _ _ => rfl
          | ok rest' =>
            intro ih
            cases ih
        | ok rest =>
          cases deps.mapM fun dep =>
              ask semver (provider.withFiles files) table' dep.1 dep.2 with
          | error halt' =>
            intro ih
            cases ih
          | ok rest' =>
            intro ih hdep
            have hrest : rest.filterMap (fun a => a.inner.map (Table.spot files)) =
                rest'.filterMap fun a => a.inner.map (Table.spot files) :=
              Option.some.inj ih
            have hhead : asked.inner.map (Table.spot files) =
                asked'.inner.map (Table.spot files) := Option.some.inj hdep
            change some ((asked :: rest).filterMap _) = some ((asked' :: rest').filterMap _)
            rw [filterMap_cons, filterMap_cons, hhead, hrest]

/-- Tables of one spot lead to tables of the same spots. -/
theorem inner_named :
    StackWalk.Named (Table.inner semver (provider.withFiles files)) (Table.spot files) := by
  have hinner : ∀ table : Table,
      (table.inner semver (provider.withFiles files)).map (List.map (Table.spot files)) =
        (table.deps.entries.mapM fun dep =>
          ask semver (provider.withFiles files) table dep.1 dep.2).toOption.map
            (fun asked => asked.filterMap fun a => a.inner.map (Table.spot files)) := by
    intro table
    unfold Table.inner
    cases table.deps.entries.mapM fun dep =>
        ask semver (provider.withFiles files) table dep.1 dep.2 with
    | error halt => rfl
    | ok asked => exact congrArg some (map_filterMap)
  intro table table' hspot
  have hdeps : table.deps = table'.deps := congrArg Spot.deps hspot
  rw [hinner, hinner, hdeps]
  exact asks_spot files hspot _

omit files in
variable {table child : Table}

theorem mem_inner {tables : List Table}
    (h : table.inner semver provider = some tables) (hchild : child ∈ tables) :
    ∃ dep ∈ table.deps.entries, ask semver provider table dep.1 dep.2 = .ok (.table child) := by
  unfold Table.inner at h
  cases hasked : table.deps.entries.mapM fun dep => ask semver provider table dep.1 dep.2 with
  | error halt =>
    rw [hasked] at h
    cases h
  | ok asked =>
    rw [hasked] at h
    obtain rfl := Option.some.inj h
    obtain ⟨a, ha, hinner⟩ := mem_filterMap.mp hchild
    obtain ⟨dep, hdep, hask⟩ := mem_mapM hasked ha
    cases a with
    | package r => cases hinner
    | table t =>
      obtain rfl := Option.some.inj hinner
      exact ⟨dep, hdep, hask⟩

omit files in
/-- Only a path dependency asks for a table. -/
theorem ask_eq_table {key : Text} {source : DependencySource}
    (h : ask semver provider table key source = .ok (.table child)) :
    ∃ path, source = .path path := by
  cases source with
  | registry registry package version =>
    unfold ask at h
    dsimp only at h
    cases hurl : registryUrl table.registries registry with
    | none =>
      rw [hurl] at h
      cases h
    | some url =>
      rw [hurl] at h
      obtain ⟨spec, -, h⟩ := bind_eq_ok.mp h
      cases h
  | git url pin directory =>
    cases pin with
    | version v =>
      obtain ⟨spec, -, h⟩ := bind_eq_ok.mp h
      cases h
    | ref name => cases h
  | path path => exact ⟨path, rfl⟩
  | workspace => cases h

/-- The spots that may declare a dependency: the first, and those of packages. -/
def PathFiles.declaring (first : Spot) : Set Spot :=
  insert first { spot | ∃ dir ∈ files.packages, ∃ b, files.spotAt ⟨dir, b⟩ = some spot }

/-- The spots that a spot's path dependencies are at. -/
def PathFiles.below (spot : Spot) : Set Spot :=
  { child | ∃ dep ∈ spot.deps.entries, ∃ path, dep.2 = .path path ∧
    files.spotAt (PathFiles.follow spot.place path) = some child }

theorem declaring_finite (first : Spot) : (files.declaring first).Finite := by
  refine Set.Finite.insert first ?_
  have hcover : { spot | ∃ dir ∈ files.packages, ∃ b, files.spotAt ⟨dir, b⟩ = some spot } ⊆
      { spot | spot ∈ files.packages.flatMap fun dir =>
        [true, false].filterMap fun b => files.spotAt ⟨dir, b⟩ } := by
    rintro spot ⟨dir, hdir, b, hspot⟩
    refine mem_flatMap.mpr ⟨dir, hdir, mem_filterMap.mpr ⟨b, ?_, hspot⟩⟩
    cases b
    · exact mem_cons_of_mem _ mem_cons_self
    · exact mem_cons_self
  exact (finite_toSet _).subset hcover

theorem below_finite (spot : Spot) : (files.below spot).Finite := by
  have hcover : files.below spot ⊆ { child | child ∈ spot.deps.entries.filterMap fun dep =>
      match dep.2 with
      | .path path => files.spotAt (PathFiles.follow spot.place path)
      | _ => none } := by
    rintro child ⟨dep, hdep, path, hpath, hchild⟩
    refine mem_filterMap.mpr ⟨dep, hdep, ?_⟩
    rw [hpath]
    exact hchild
  exact (finite_toSet _).subset hcover

theorem spotAt_eq_some {place : Place} {spot : Spot} (h : files.spotAt place = some spot) :
    ∃ m, files.read place.dir = .ok m ∧ spot = ⟨m.dependencies, m.registries, place⟩ := by
  unfold PathFiles.spotAt at h
  cases hread : files.read place.dir with
  | error e =>
    rw [hread] at h
    cases h
  | ok m =>
    rw [hread] at h
    exact ⟨m, rfl, (Option.some.inj h).symm⟩

/-- A spot with a dependency is the first or that of a package. -/
theorem mem_declaring {first spot parent : Spot} {dep : Text × DependencySource}
    (hspot : spot ∈ files.declaring first ∨ spot ∈ files.below parent)
    (hdep : dep ∈ spot.deps.entries) : spot ∈ files.declaring first := by
  rcases hspot with h | ⟨_, _, path, _, hchild⟩
  · exact h
  · obtain ⟨m, hread, heq⟩ := spotAt_eq_some files hchild
    refine .inr ⟨_, ?_, _, hchild⟩
    by_contra hdir
    have hnone := files.read_else _ m hdir hread
    rw [heq] at hdep
    change dep ∈ m.dependencies.entries at hdep
    rw [hnone] at hdep
    cases hdep

theorem inner_below
    (h : StackWalk.Leads (Table.inner semver (provider.withFiles files)) table child) :
    table.deps.entries ≠ [] ∧ child.spot files ∈ files.below (table.spot files) := by
  obtain ⟨before, after, hinner, -⟩ := h
  obtain ⟨dep, hdep, hask⟩ := mem_inner hinner
    (mem_append_right before (mem_cons_self (a := child)))
  obtain ⟨path, hpath⟩ := ask_eq_table hask
  refine ⟨ne_nil_of_mem hdep, dep, hdep, path, hpath, ?_⟩
  have hspot := @ask_path V R semver provider files table dep.1 path
  rw [← hpath, hask] at hspot
  obtain ⟨spot, hread, heq⟩ := Option.map_eq_some_iff.mp hspot.symm
  obtain rfl : spot = child.spot files := Option.some.inj heq
  exact hread

/-- Finitely many spots are reached. -/
theorem reached_finite (table : Table) : { spot | ∃ child, Relation.ReflTransGen
      (StackWalk.Leads (Table.inner semver (provider.withFiles files))) table child ∧
        child.spot files = spot }.Finite := by
  have hfinite : (files.declaring (table.spot files) ∪
      ⋃ s ∈ files.declaring (table.spot files), files.below s).Finite :=
    (declaring_finite files _).union
      ((declaring_finite files _).biUnion fun s _ => below_finite files s)
  refine hfinite.subset ?_
  rintro spot ⟨child, hreach, rfl⟩
  induction hreach with
  | refl => exact .inl (Set.mem_insert _ _)
  | @tail mid last _ hleads ih =>
    obtain ⟨hdeps, hbelow⟩ := inner_below files hleads
    refine .inr (Set.mem_biUnion ?_ hbelow)
    obtain ⟨dep, hdep⟩ := exists_mem_of_ne_nil _ hdeps
    rcases ih with h | h
    · exact h
    · obtain ⟨parent, _, hparent⟩ := Set.mem_iUnion₂.mp h
      exact mem_declaring files (.inr hparent) hdep

end Finite

section Flattening

variable {V R : Type} (semver : Semver V R) (provider : DependencyProvider V) (files : PathFiles)

/-- Expanding a table ends, and finds the edge of each package that the table and those of
its path dependencies ask for. -/
structure Flattens (crawl : Crawl V R) (table : Table) : Prop where
  stops : ∃ fuel, crawl.expand semver provider fuel table.deps table.registries table.base ≠
    .error .steps
  finds : ∀ fuel edges crawl',
    crawl.expand semver provider fuel table.deps table.registries table.base = .ok (edges, crawl') →
    ∀ r : Request R, Asks semver provider table r → r.edge ∈ edges

/-- A table leads to one that leads to another of the same directory.  The last path
dependency of a table is expanded first, and the first error ends it all, so a table leads
to those after which nothing fails or comes back. -/
def LeadsBack (table : Table) : Prop :=
  StackWalk.Loops (Table.inner semver (provider.withFiles files)) (Table.spot files) table

theorem expand_flattens_iff (crawl : Crawl V R) (table : Table) :
    Flattens semver (provider.withFiles files) crawl table ↔
      ¬ LeadsBack semver provider files table := by
  have hends := StackWalk.ends_iff_not_loops (@inner_named V R semver provider files)
    (reached_finite files table)
  unfold LeadsBack
  rw [← hends]
  constructor
  · rintro ⟨⟨fuel, hstops⟩, -⟩
    refine ⟨fuel, ?_⟩
    rw [← Bool.not_eq_false]
    exact fun h => hstops (expandStack_eq_steps.mpr h)
  · rintro ⟨fuel, hstops⟩
    refine ⟨⟨fuel, fun h => ?_⟩, fun fuel' edges crawl' h r hr => ?_⟩
    · rw [expandStack_eq_steps.mp h] at hstops
      cases hstops
    · obtain ⟨requests, hedges, -, hrequests⟩ := expandStack_eq_ok h
      rw [hedges]
      refine List.mem_append_right _ (List.mem_map_of_mem ?_)
      exact (hrequests r).mpr ⟨table, List.mem_singleton_self _, hr⟩

end Flattening

/-- A table of one path dependency. -/
def onPath (path : Text) : IndexMap DependencySource :=
  ⟨[("acme:a".toList, .path path)], List.nodup_singleton _⟩

/-- One package, at `a`, which depends on itself by path. -/
def selfFiles : PathFiles where
  root := []
  read := fun dir =>
    if dir = ["a".toList] then .ok { leafManifest with dependencies := onPath "../a".toList }
    else .error fun path => .notFound path []
  packages := [["a".toList]]
  read_else := by
    intro dir m hdir hread
    rw [if_neg (fun h : dir = ["a".toList] => hdir (h ▸ List.mem_singleton_self _))] at hread
    cases hread

/-- A package that depends on itself is loaded without end. -/
theorem expand_self_endless :
    ¬ Flattens releases (branches.withFiles selfFiles) ⟨fun _ => none, fun _ => none,
      fun _ => none, [], [], []⟩ ⟨onPath "a".toList, IndexMap.empty, []⟩ := by
  have hleads : ∀ base path : Text, selfFiles.locate (joinBase base path) = ["a".toList] →
      StackWalk.Leads (Table.inner releases (branches.withFiles selfFiles))
        ⟨onPath path, IndexMap.empty, base⟩
        ⟨onPath "../a".toList, IndexMap.empty, joinBase base path⟩ := by
    intro base path hdir
    refine ⟨[], [], ?_, fun _ h => absurd h List.not_mem_nil⟩
    have hload : selfFiles.load (joinBase base path) =
        .ok { leafManifest with dependencies := onPath "../a".toList } := by
      unfold PathFiles.load
      rw [hdir]
      rfl
    have hask : ask releases (branches.withFiles selfFiles)
        ⟨onPath path, IndexMap.empty, base⟩ "acme:a".toList (.path path) =
        .ok (.table ⟨onPath "../a".toList, IndexMap.empty, joinBase base path⟩) := by
      change (ofProvider (selfFiles.load (joinBase base path)) >>= fun m =>
        .ok (Asked.table ⟨m.dependencies, m.registries, joinBase base path⟩)) = _
      rw [hload]
      rfl
    have hasked := mapM_singleton (f := fun dep : Text × DependencySource =>
      ask releases (branches.withFiles selfFiles) ⟨onPath path, IndexMap.empty, base⟩ dep.1 dep.2)
      (x := ("acme:a".toList, .path path)) hask
    exact inner_of_asks hasked
  have hloops : StackWalk.Loops (Table.inner releases (branches.withFiles selfFiles))
      (Table.spot selfFiles) ⟨onPath "a".toList, IndexMap.empty, []⟩ := by
    refine ⟨⟨onPath "../a".toList, IndexMap.empty, "a".toList⟩,
      ⟨onPath "../a".toList, IndexMap.empty, "a/../a".toList⟩, .single ?_, .single ?_, ?_⟩
    · exact hleads [] "a".toList (by decide)
    · exact hleads "a".toList "../a".toList (by decide)
    · unfold Table.spot
      congr 1
  rintro ⟨⟨fuel, hstops⟩, -⟩
  exact hstops (expandStack_eq_steps.mpr (hloops.not_ends (inner_named selfFiles) []))

end Wado.Resolve
