/-
The dependency graph of a manifest, as its dependencies and the provider have it: what a
table asks for, what a source offers and what is declared.  Expanding a table finds what the
table asks for.
-/
import Wado.Resolve.Resolver

namespace Wado.Resolve

open Toml List
open Wado.Manifest (IndexMap LockedPackage)
open ExceptSteps

variable {V R : Type} [DecidableEq V] (semver : Semver V R) (provider : DependencyProvider V)

/-- The packages that a table asks for, its path dependencies flattened. -/
inductive Asks : Table → Request R → Prop where
  | package {table : Table} {dep : Text × DependencySource} {r : Request R}
      (hdep : dep ∈ table.deps.entries)
      (hask : ask semver provider table dep.1 dep.2 = .ok (.package r)) : Asks table r
  | table {table inner : Table} {dep : Text × DependencySource} {r : Request R}
      (hdep : dep ∈ table.deps.entries)
      (hask : ask semver provider table dep.1 dep.2 = .ok (.table inner))
      (hinner : Asks inner r) : Asks table r

def Manifest.table (m : Manifest) : Table := ⟨m.dependencies, m.registries, []⟩

def Manifest.devTable (m : Manifest) : Table := ⟨m.devDependencies, m.registries, []⟩

/-- The versions that a source offers, with their commits and manifests. -/
inductive Offers : Fetch → V → Option Text → Manifest → Prop where
  | registry {url package : Text} {versions : List V} {version : V} {info : RegistryPackageInfo}
      (hversions : provider.listRegistryVersions url package = .ok versions)
      (hversion : version ∈ versions)
      (hinfo : provider.fetchRegistryPackage url package version = .ok info) :
      Offers (.registry url package) version none info.manifest
  | tag {url requirement sha : Text} {directory : Option Text} {tags : List (GitTagInfo V)}
      {version : V} {m : Manifest} (htags : provider.listGitTags url = .ok tags)
      (hsha : tagShas tags version = some sha)
      (hmanifest : provider.fetchGitManifest url sha directory = .ok m) :
      Offers (.git url (.version requirement) directory) version (some sha) m
  | ref {url name sha : Text} {directory : Option Text} {m : Manifest}
      (hsha : provider.resolveGitRef url name = .ok sha)
      (hmanifest : provider.fetchGitManifest url sha directory = .ok m) :
      Offers (.git url (.ref name) directory) (packageVersion semver m) (some sha) m

/-- The requests that a resolution of a manifest may come across: those of its tables, and
those of the versions that another request leads to. -/
inductive Declared (manifest : Manifest) : Request R → Prop where
  | runtime {r : Request R} (h : Asks semver provider manifest.table r) : Declared manifest r
  | dev {r : Request R} (h : Asks semver provider manifest.devTable r) : Declared manifest r
  | package {r r' : Request R} {version : V} {sha : Option Text} {m : Manifest}
      (h : Declared manifest r) (hoffers : Offers semver provider r.fetch version sha m)
      (hmeets : meets semver r.req version = true) (hasks : Asks semver provider m.table r') :
      Declared manifest r'

/-- The declarations of an id are of one source, as far as the provider tells. -/
def SourcesAgree (manifest : Manifest) : Prop :=
  ∀ r r' : Request R, Declared semver provider manifest r → Declared semver provider manifest r' →
    r.id = r'.id → ∀ version sha m,
      Offers semver provider r.fetch version sha m → Offers semver provider r'.fetch version sha m

section Expanding

variable {semver : Semver V R} {provider : DependencyProvider V}

omit [DecidableEq V] in
theorem expandDeps_eq_ok {table : Table} {deps : List (Text × DependencySource)}
    {e e' : Expansion V R} (h : deps.foldlM (expandDep semver provider table) e = .ok e') :
    ∃ (requests : List (Request R)) (tables : List Table),
      e'.stack = tables ++ e.stack ∧ e'.edges = e.edges ++ requests.map Request.edge ∧
      e'.crawl = requests.foldl Crawl.declare e.crawl ∧
      (∀ r, r ∈ requests ↔ ∃ dep ∈ deps, ask semver provider table dep.1 dep.2 = .ok (.package r)) ∧
      ∀ inner, inner ∈ tables ↔
        ∃ dep ∈ deps, ask semver provider table dep.1 dep.2 = .ok (.table inner) := by
  induction deps generalizing e with
  | nil =>
    rw [foldlM_nil] at h
    obtain rfl := pure_eq_ok.mp h
    exact ⟨[], [], rfl, (append_nil _).symm, rfl, by simp, by simp⟩
  | cons dep deps ih =>
    rw [foldlM_cons] at h
    obtain ⟨mid, hmid, h⟩ := bind_eq_ok.mp h
    obtain ⟨requests, tables, hstack, hedges, hcrawl, hrequests, htables⟩ := ih h
    obtain ⟨asked, hasked, hmid⟩ := bind_eq_ok.mp hmid
    cases asked with
    | package r =>
      cases hmid
      refine ⟨r :: requests, tables, hstack, ?_, hcrawl, ?_, ?_⟩
      · rw [hedges]
        simp
      · intro r'
        rw [mem_cons, hrequests, exists_mem_cons_iff, hasked]
        simp only [Except.ok.injEq, Asked.package.injEq, eq_comm]
      · intro inner
        rw [htables, exists_mem_cons_iff, hasked]
        simp
    | table t =>
      cases hmid
      refine ⟨requests, tables ++ [t], ?_, hedges, hcrawl, ?_, ?_⟩
      · rw [hstack]
        simp
      · intro r'
        rw [hrequests, exists_mem_cons_iff, hasked]
        simp
      · intro inner
        rw [mem_append, htables, exists_mem_cons_iff, hasked, mem_singleton]
        simp only [Except.ok.injEq, Asked.table.injEq]
        rw [or_comm, eq_comm]

omit [DecidableEq V] in
theorem asks_iff {table : Table} {r : Request R} : Asks semver provider table r ↔
      (∃ dep ∈ table.deps.entries, ask semver provider table dep.1 dep.2 = .ok (.package r)) ∨
        ∃ inner, (∃ dep ∈ table.deps.entries,
          ask semver provider table dep.1 dep.2 = .ok (.table inner)) ∧
            Asks semver provider inner r := by
  constructor
  · intro h
    cases h with
    | package hdep hask => exact .inl ⟨_, hdep, hask⟩
    | table hdep hask hinner => exact .inr ⟨_, ⟨_, hdep, hask⟩, hinner⟩
  · rintro (⟨dep, hdep, hask⟩ | ⟨inner, ⟨dep, hdep, hask⟩, hinner⟩)
    · exact .package hdep hask
    · exact .table hdep hask hinner

omit [DecidableEq V] in
theorem expandStack_eq_ok {fuel : Nat} {e : Expansion V R} {edges : List (Edge R)}
    {crawl : Crawl V R} (h : expandStack semver provider fuel e = .ok (edges, crawl)) :
    ∃ requests : List (Request R), edges = e.edges ++ requests.map Request.edge ∧
      crawl = requests.foldl Crawl.declare e.crawl ∧
      ∀ r, r ∈ requests ↔ ∃ table ∈ e.stack, Asks semver provider table r := by
  induction fuel generalizing e with
  | zero => cases h
  | succ fuel ih =>
    unfold expandStack at h
    cases hstack : e.stack with
    | nil =>
      rw [hstack] at h
      cases h
      exact ⟨[], (append_nil _).symm, rfl, by simp⟩
    | cons table stack =>
      rw [hstack] at h
      obtain ⟨mid, hmid, h⟩ := bind_eq_ok.mp h
      obtain ⟨requests, tables, hstack', hedges, hcrawl, hrequests, htables⟩ :=
        expandDeps_eq_ok hmid
      obtain ⟨more, hedges', hcrawl', hmore⟩ := ih h
      refine ⟨requests ++ more, ?_, ?_, ?_⟩
      · rw [hedges', hedges]
        simp
      · rw [hcrawl', hcrawl, foldl_append]
      · intro r
        rw [mem_append, hrequests, hmore, hstack', exists_mem_cons_iff, asks_iff]
        simp only [mem_append, htables, or_and_right, exists_or]
        exact or_assoc.symm

/-- `crawl'` is `crawl` with requests noted. -/
structure Crawl.Notes (crawl : Crawl V R) (requests : List (Request R)) (crawl' : Crawl V R) :
    Prop where
  versions : crawl'.versions = crawl.versions
  shas : crawl'.shas = crawl.shas
  data : crawl'.data = crawl.data
  fetched : crawl'.fetched = crawl.fetched
  queue : crawl'.queue = crawl.queue ++ requests.map Request.edge
  kept : ∀ id fetch, crawl.sources id = some fetch → crawl'.sources id = some fetch
  found : ∀ id fetch, crawl'.sources id = some fetch →
    crawl.sources id = some fetch ∨ ∃ r ∈ requests, r.id = id ∧ r.fetch = fetch
  noted : ∀ r ∈ requests, ∃ fetch, crawl'.sources r.id = some fetch

omit [DecidableEq V] in
theorem Crawl.Notes.append {crawl mid crawl' : Crawl V R} {requests more : List (Request R)}
    (h : crawl.Notes requests mid) (h' : mid.Notes more crawl') :
    crawl.Notes (requests ++ more) crawl' where
  versions := h'.versions.trans h.versions
  shas := h'.shas.trans h.shas
  data := h'.data.trans h.data
  fetched := h'.fetched.trans h.fetched
  queue := by rw [h'.queue, h.queue, map_append, append_assoc]
  kept := fun id fetch hsource => h'.kept id fetch (h.kept id fetch hsource)
  found := by
    intro id fetch hsource
    rcases h'.found id fetch hsource with hsource | ⟨r, hr, hid⟩
    · rcases h.found id fetch hsource with hsource | ⟨r, hr, hid⟩
      · exact .inl hsource
      · exact .inr ⟨r, mem_append_left _ hr, hid⟩
    · exact .inr ⟨r, mem_append_right _ hr, hid⟩
  noted := by
    intro r hr
    rcases mem_append.mp hr with hr | hr
    · obtain ⟨fetch, hfetch⟩ := h.noted r hr
      exact ⟨fetch, h'.kept _ _ hfetch⟩
    · exact h'.noted r hr

end Expanding

end Wado.Resolve
