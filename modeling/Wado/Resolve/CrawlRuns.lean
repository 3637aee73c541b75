/-
What the crawl has found when its queue is empty: the data of every version that an edge it
came across admits, each with the edges that its manifest asks for.
-/
import Wado.Resolve.Graph

namespace Wado.Resolve

open Toml List Function
open Wado.Manifest (IndexMap LockedPackage)
open ExceptSteps

variable {V R : Type} [DecidableEq V] (semver : Semver V R) (provider : DependencyProvider V)

/-- What a source lists: its versions, and for a repository their commits. -/
inductive Lists : Fetch → List V → Option (V → Option Text) → Prop where
  | registry {url package : Text} {versions : List V} {shas : Option (V → Option Text)}
      (h : provider.listRegistryVersions url package = .ok versions) :
      Lists (.registry url package) versions shas
  | tag {url requirement : Text} {directory : Option Text} {tags : List (GitTagInfo V)}
      (h : provider.listGitTags url = .ok tags) :
      Lists (.git url (.version requirement) directory) (tags.map GitTagInfo.version)
        (some (tagShas tags))
  | ref {url name sha : Text} {directory : Option Text} {m : Manifest}
      (hsha : provider.resolveGitRef url name = .ok sha)
      (hmanifest : provider.fetchGitManifest url sha directory = .ok m) :
      Lists (.git url (.ref name) directory) [packageVersion semver m]
        (some (Function.update (fun _ => none) (packageVersion semver m) (some sha)))

/-- The data of every version that an edge admits are there. -/
def Crawl.Done (crawl : Crawl V R) (e : Edge R) : Prop :=
  ∃ versions, crawl.versions e.1 = some versions ∧
    ∀ v ∈ versions, meets semver e.2 v = true → (e.1, v) ∈ crawl.data.map Prod.fst

/-- A row of data is what the source of its package offers. -/
def Crawl.Records (manifest : Manifest) (crawl : Crawl V R) (row : (Text × V) × VerData R) : Prop :=
  ∃ fetch m, ∃ requests : List (Request R), crawl.sources row.1.1 = some fetch ∧
    Offers semver provider fetch row.1.2 row.2.resolvedRef m ∧
    row.2.edges = requests.map Request.edge ∧
    (∀ r, r ∈ requests ↔ Asks semver provider m.table r) ∧
    ∀ r ∈ requests, Declared semver provider manifest r

/-- The invariant of the crawl, `roots` being the edges it started with and `pending` those
that it took from the queue and is at. -/
structure Crawl.Tracks (manifest : Manifest) (roots pending : List (Edge R))
    (crawl : Crawl V R) : Prop where
  sources : ∀ id fetch, crawl.sources id = some fetch →
    ∃ r, Declared semver provider manifest r ∧ r.id = id ∧ r.fetch = fetch
  queued : ∀ e ∈ crawl.queue, ∃ r, Declared semver provider manifest r ∧ r.edge = e
  versions : ∀ id versions, crawl.versions id = some versions →
    ∃ fetch, crawl.sources id = some fetch ∧ Lists semver provider fetch versions (crawl.shas id)
  data : ∀ row ∈ crawl.data, crawl.Records semver provider manifest row
  fetched : ∀ p, p ∈ crawl.fetched ↔ p ∈ crawl.data.map Prod.fst
  distinct : (crawl.data.map Prod.fst).Nodup
  covered : ∀ e, (e ∈ roots ∨ ∃ row ∈ crawl.data, e ∈ row.2.edges) →
    e ∈ pending ++ crawl.queue ∨ crawl.Done semver e

variable {semver provider}

variable {v : V} {fetch : Fetch} {versions : List V} {fuel : Nat} {id : Text}

section Sources

/-- A version of a source has one commit and one manifest. -/
theorem Offers.unique {sha sha' : Option Text} {m m' : Manifest}
    (h : Offers semver provider fetch v sha m) (h' : Offers semver provider fetch v sha' m') :
    sha = sha' ∧ m = m' := by
  cases h with
  | registry _ _ hinfo =>
    cases h' with
    | registry _ _ hinfo' =>
      rw [hinfo] at hinfo'
      cases hinfo'
      exact ⟨rfl, rfl⟩
  | tag htags hsha hmanifest =>
    cases h' with
    | tag htags' hsha' hmanifest' =>
      rw [htags] at htags'
      cases htags'
      rw [hsha] at hsha'
      cases hsha'
      rw [hmanifest] at hmanifest'
      cases hmanifest'
      exact ⟨rfl, rfl⟩
  | @ref url name commit directory m hsha hmanifest =>
    generalize hv : packageVersion semver m = v at h'
    cases h' with
    | ref hsha' hmanifest' =>
      rw [hsha] at hsha'
      cases hsha'
      rw [hmanifest] at hmanifest'
      cases hmanifest'
      exact ⟨rfl, rfl⟩

end Sources

section Steps

variable {manifest : Manifest} {roots pending : List (Edge R)} {crawl crawl' : Crawl V R}

section

variable (h : crawl.Tracks semver provider manifest roots pending)
include h

/-- Listing the versions of a package anew keeps the invariant. -/
theorem Crawl.Tracks.list (hnone : crawl.versions id = none)
    (hsource : crawl.sources id = some fetch) {shas : Text → Option (V → Option Text)}
    (hshas : ∀ other, other ≠ id → shas other = crawl.shas other)
    (hlists : Lists semver provider fetch versions (shas id)) :
    Crawl.Tracks semver provider manifest roots pending
      { crawl with shas, versions := Function.update crawl.versions id (some versions) } where
  sources := h.sources
  queued := h.queued
  versions := by
    intro other vs hvs
    by_cases hother : other = id
    · subst hother
      dsimp only at hvs
      rw [update_self] at hvs
      cases hvs
      exact ⟨fetch, hsource, hlists⟩
    · dsimp only at hvs ⊢
      rw [update_of_ne hother] at hvs
      rw [hshas other hother]
      exact h.versions other vs hvs
  data := h.data
  fetched := h.fetched
  distinct := h.distinct
  covered := by
    intro e he
    rcases h.covered e he with hqueue | ⟨vs, hvs, hdone⟩
    · exact .inl hqueue
    · refine .inr ⟨vs, ?_, hdone⟩
      dsimp only
      rw [update_of_ne, hvs]
      rintro rfl
      rw [hnone] at hvs
      cases hvs

end

end Steps

end Wado.Resolve
