/-
A resolution is sound and complete where the declarations of an id agree on their source: what
is locked is closed and marked right, and the solver's refusal is right.
-/
import Wado.Resolve.Selected

namespace Wado.Resolve

open Toml List
open Wado.Manifest (IndexMap LockedPackage)
open ExceptSteps

variable {V R : Type} [DecidableEq V] (semver : Semver V R) (provider : DependencyProvider V)

/-- A locked package is what a request asks for: its version meets the requirement, and where
a git ref is asked for it is at the commit of that ref. -/
def Satisfies (r : Request R) (p : LockedPackage) : Prop :=
  p.id = r.id ∧ (∃ v, semver.parse p.version = some v ∧ meets semver r.req v = true) ∧
    ∀ url name directory, r.fetch = .git url (.ref name) directory →
      ∃ sha, provider.resolveGitRef url name = .ok sha ∧ p.resolvedRef = some sha

/-- A locked package has a manifest: that of its version and commit at a declared source. -/
def HasManifest (manifest : Manifest) (p : LockedPackage) (m : Manifest) : Prop :=
  ∃ (r : Request R) (v : V), Declared semver provider manifest r ∧ r.id = p.id ∧
    semver.parse p.version = some v ∧ Offers semver provider r.fetch v p.resolvedRef m

/-- A locked package asks for what its manifest asks for. -/
def LockedAsks (manifest : Manifest) (p : LockedPackage) (r : Request R) : Prop :=
  ∃ m, HasManifest semver provider (R := R) manifest p m ∧ Asks semver provider m.table r

/-- The locked packages that chains of edges lead to from the runtime dependencies. -/
inductive Runtime (manifest : Manifest) (locked : List LockedPackage) : LockedPackage → Prop where
  | root {r : Request R} {p : LockedPackage} (h : Asks semver provider manifest.table r)
      (hp : p ∈ locked) (hid : p.id = r.id) : Runtime manifest locked p
  | edge {p q : LockedPackage} {r : Request R} (h : Runtime manifest locked p)
      (hasks : LockedAsks semver provider manifest p r) (hq : q ∈ locked) (hid : q.id = r.id) :
      Runtime manifest locked q

/-- The locked packages are closed, one of an id, and marked `dev` where they are no more. -/
structure Sound (manifest : Manifest) (locked : List LockedPackage) : Prop where
  distinct : (locked.map LockedPackage.id).Nodup
  manifests : ∀ p ∈ locked, ∃ m, HasManifest semver provider (R := R) manifest p m
  runtime : ∀ r : Request R, Asks semver provider manifest.table r →
    ∃ p ∈ locked, Satisfies semver provider r p
  dev : ∀ r : Request R, Asks semver provider manifest.devTable r →
    ∃ p ∈ locked, Satisfies semver provider r p
  package : ∀ p ∈ locked, ∀ r : Request R, LockedAsks semver provider manifest p r →
    ∃ q ∈ locked, Satisfies semver provider r q
  devMark : ∀ p ∈ locked, p.dev = true ↔ ¬ Runtime semver provider manifest locked p

variable {semver provider}

section Errors

/-- Not the solver's report. -/
def NoReport {α : Type} (x : Except Halt α) : Prop :=
  ∀ report, x ≠ .error (.error (.noSolution report))

variable {α : Type}

theorem NoReport.ok (a : α) : NoReport (.ok a) := by
  intro report h
  cases h

theorem NoReport.bind {α β : Type} {x : Except Halt α} {f : α → Except Halt β}
    (h : NoReport x) (hf : ∀ a, NoReport (f a)) : NoReport (x >>= f) := by
  intro report heq
  cases x with
  | ok a => exact hf a report heq
  | error e =>
    cases heq
    exact h report rfl

theorem NoReport.foldlM {α β : Type} {f : β → α → Except Halt β} (hf : ∀ b a, NoReport (f b a))
    (l : List α) (b : β) : NoReport (l.foldlM f b) := by
  induction l generalizing b with
  | nil => exact .ok b
  | cons a l ih =>
    rw [foldlM_cons]
    exact (hf b a).bind ih

theorem NoReport.mapM {α β : Type} {f : α → Except Halt β} (hf : ∀ a, NoReport (f a))
    (l : List α) : NoReport (l.mapM f) := by
  induction l with
  | nil => exact .ok _
  | cons a l ih =>
    rw [mapM_cons]
    exact (hf a).bind fun _ => NoReport.bind ih fun _ => .ok _

theorem NoReport.error {x : Except Halt α} (h : NoReport x) {e : Halt}
    (hx : x = .error e) (report : Text) : e ≠ .error (.noSolution report) := by
  rintro rfl
  exact h report hx

end Errors

variable {α β : Type}

section Crawled

theorem lookup_eq_some_iff [BEq α] [LawfulBEq α] {l : List (α × β)}
    (h : (l.map Prod.fst).Nodup) {a : α} {b : β} : l.lookup a = some b ↔ (a, b) ∈ l := by
  induction l with
  | nil => simp
  | cons entry l ih =>
    obtain ⟨a', b'⟩ := entry
    rw [map_cons, nodup_cons] at h
    by_cases ha : a = a'
    · subst ha
      rw [lookup_cons_self, mem_cons]
      constructor
      · intro heq
        cases heq
        exact .inl rfl
      · rintro (heq | hmem)
        · cases heq
          rfl
        · exact absurd (mem_map_of_mem hmem) h.1
    · have hne : (a == a') = false := by simpa using ha
      rw [lookup_cons, hne, ih h.2, mem_cons]
      constructor
      · exact .inr
      · rintro (heq | hmem)
        · exact absurd (congrArg Prod.fst heq) ha
        · exact hmem

/-- A crawl that went through the queue, from the edges of a manifest's two tables. -/
structure Crawled (semver : Semver V R) (provider : DependencyProvider V) (manifest : Manifest)
    (rootEdges devEdges : List (Edge R)) (crawl : Crawl V R) : Prop where
  tracks : crawl.Tracks semver provider manifest (rootEdges ++ devEdges) []
  queue : crawl.queue = []
  runtime : ∃ requests : List (Request R), rootEdges = requests.map Request.edge ∧
    ∀ r, r ∈ requests ↔ Asks semver provider manifest.table r
  dev : ∃ requests : List (Request R), devEdges = requests.map Request.edge ∧
    ∀ r, r ∈ requests ↔ Asks semver provider manifest.devTable r

variable {manifest : Manifest}

theorem root_head : root.head? = some '@' := by decide

theorem registryLockId_ne_root (url package : Text) : registryLockId url package ≠ root := by
  intro heq
  have hhead := congrArg List.head? heq
  have hregistry : "registry+".toList.head? = some 'r' := by decide
  unfold registryLockId at hhead
  rw [append_assoc, append_assoc, List.head?_append, hregistry, root_head] at hhead
  cases hhead

theorem gitLockId_ne_root (url key : Text) : gitLockId url key ≠ root := by
  intro heq
  have hhead := congrArg List.head? heq
  have hgit : "git+".toList.head? = some 'g' := by decide
  unfold gitLockId at hhead
  rw [append_assoc, append_assoc, List.head?_append, hgit, root_head] at hhead
  cases hhead

omit [DecidableEq V] in
variable {r : Request R}

theorem id_ne_root {table : Table} (h : Asks semver provider table r) :
    r.id ≠ root := by
  induction h with
  | table _ _ _ ih => exact ih
  | @package table dep r _ hask =>
    obtain ⟨key, source⟩ := dep
    cases source with
    | git url pin directory =>
      cases pin with
      | version v =>
        obtain ⟨spec, _, hr⟩ := bind_eq_ok.mp hask
        cases hr
        exact gitLockId_ne_root url key
      | ref name =>
        cases hask
        exact gitLockId_ne_root url key
    | registry registry package version =>
      unfold ask at hask
      dsimp only at hask
      cases hurl : registryUrl table.registries registry with
      | none =>
        rw [hurl] at hask
        cases hask
      | some url =>
        rw [hurl] at hask
        obtain ⟨spec, _, hr⟩ := bind_eq_ok.mp hask
        cases hr
        exact registryLockId_ne_root url package
    | path path =>
      obtain ⟨m, _, hr⟩ := bind_eq_ok.mp hask
      cases hr
    | workspace => cases hask

theorem Declared.id_ne_root (h : Declared semver provider manifest r) :
    r.id ≠ root := by
  cases h with
  | runtime h => exact Resolve.id_ne_root h
  | dev h => exact Resolve.id_ne_root h
  | package _ _ _ h => exact Resolve.id_ne_root h

variable {rootEdges devEdges : List (Edge R)} {crawl : Crawl V R}

theorem Crawled.declared (h : Crawled semver provider manifest rootEdges devEdges crawl)
    {e : Edge R} (he : e ∈ rootEdges ++ devEdges ∨ ∃ row ∈ crawl.data, e ∈ row.2.edges) :
    ∃ r, Declared semver provider manifest r ∧ r.edge = e := by
  rcases he with he | ⟨row, hrow, he⟩
  · rcases mem_append.mp he with he | he
    · obtain ⟨requests, rfl, hrequests⟩ := h.runtime
      obtain ⟨r, hr, rfl⟩ := mem_map.mp he
      exact ⟨r, .runtime ((hrequests r).mp hr), rfl⟩
    · obtain ⟨requests, rfl, hrequests⟩ := h.dev
      obtain ⟨r, hr, rfl⟩ := mem_map.mp he
      exact ⟨r, .dev ((hrequests r).mp hr), rfl⟩
  · obtain ⟨_, _, requests, _, _, hedges, _, hdeclared⟩ := h.tracks.data row hrow
    rw [hedges] at he
    obtain ⟨r, hr, rfl⟩ := mem_map.mp he
    exact ⟨r, hdeclared r hr, rfl⟩

theorem Crawled.done (h : Crawled semver provider manifest rootEdges devEdges crawl)
    {e : Edge R} (he : e ∈ rootEdges ++ devEdges ∨ ∃ row ∈ crawl.data, e ∈ row.2.edges) :
    crawl.Done semver e := by
  rcases h.tracks.covered e he with hqueue | hdone
  · rw [h.queue] at hqueue
    cases hqueue
  · exact hdone

/-- What is selected besides the root. -/
structure Picked (semver : Semver V R) (rootEdges devEdges : List (Edge R)) (crawl : Crawl V R)
    (selected : List (Text × V)) : Prop where
  distinct : (selected.map Prod.fst).Nodup
  known : ∀ p ∈ selected, p ∈ crawl.data.map Prod.fst
  roots : ∀ e ∈ rootEdges ++ devEdges, ∃ v, (e.1, v) ∈ selected ∧ meets semver e.2 v = true
  edges : ∀ row ∈ crawl.data, row.1 ∈ selected → ∀ e ∈ row.2.edges,
    ∃ v, (e.1, v) ∈ selected ∧ meets semver e.2 v = true

theorem Crawled.picked (h : Crawled semver provider manifest rootEdges devEdges crawl)
    {solution : List (Text × V)}
    (hsolves : Solves (crawl.table semver (rootEdges ++ devEdges)) root (semver.new 0 0 0)
      solution) :
    Picked semver rootEdges devEdges crawl (solution.filter fun p => p.1 ≠ root) := by
  have hkept : ∀ {e : Edge R}, (e ∈ rootEdges ++ devEdges ∨ ∃ row ∈ crawl.data, e ∈ row.2.edges) →
      (∃ v, (e.1, v) ∈ solution ∧ crawl.range semver e v = true) →
      ∃ v, (e.1, v) ∈ solution.filter (fun p => p.1 ≠ root) ∧ meets semver e.2 v = true := by
    rintro e he ⟨v, hv, hrange⟩
    obtain ⟨r, hr, rfl⟩ := h.declared he
    refine ⟨v, mem_filter.mpr ⟨hv, ?_⟩, meets_of_range hrange⟩
    exact decide_eq_true hr.id_ne_root
  constructor
  · exact hsolves.distinct.sublist (filter_sublist.map Prod.fst)
  · intro p hp
    obtain ⟨hmem, hne⟩ := mem_filter.mp hp
    obtain ⟨row, hrow, rfl⟩ := hsolves.known p hmem
    rcases mem_cons.mp hrow with rfl | hrow
    · simp at hne
    · obtain ⟨row', hrow', rfl⟩ := mem_map.mp hrow
      exact mem_map_of_mem hrow'
  · intro e he
    apply hkept (.inl he)
    exact (ranges_met hsolves.distinct).mp
      (hsolves.met _ (mem_cons_self ..) hsolves.root) e he
  · intro row hrow hselected e he
    apply hkept (.inr ⟨row, hrow, he⟩)
    exact (ranges_met hsolves.distinct).mp
      (hsolves.met _ (mem_cons_of_mem _ (mem_map_of_mem hrow))
        (mem_filter.mp hselected).1) e he

end Crawled

variable {q : LockedPackage}

section Locked

variable {crawl : Crawl V R} {selected : List (Text × V)}

/-- A locked package is that of a selected version. -/
structure Locks (semver : Semver V R) (crawl : Crawl V R) (nondev : List Text) (p : Text × V)
    (q : LockedPackage) : Prop where
  id : q.id = p.1
  version : q.version = semver.display p.2
  data : ∃ data, crawl.data.lookup p = some data ∧ q.resolvedRef = data.resolvedRef
  dev : q.dev = true ↔ p.1 ∉ nondev

variable {nondev : List Text}

end Locked

section Claim

variable {manifest : Manifest} {rootEdges devEdges : List (Edge R)} {crawl : Crawl V R}
  {selected : List (Text × V)}

/-- What a crawl, a selection and the locked packages have to do with each other. -/
structure Resolved (semver : Semver V R) (provider : DependencyProvider V) (manifest : Manifest)
    (rootEdges devEdges : List (Edge R)) (crawl : Crawl V R) (selected : List (Text × V))
    (nondev : List Text) (locked : List LockedPackage) : Prop where
  crawled : Crawled semver provider manifest rootEdges devEdges crawl
  picked : Picked semver rootEdges devEdges crawl selected
  marks : ∀ id, id ∈ nondev ↔ crawl.Leads selected (rootEdges.map Prod.fst) id
  sound : ∀ q ∈ locked, ∃ p ∈ selected, Locks semver crawl nondev p q
  complete : ∀ p ∈ selected, ∃ q ∈ locked, Locks semver crawl nondev p q
  distinct : (locked.map LockedPackage.id).Nodup

variable {nondev : List Text} {locked : List LockedPackage}

/-- The row of data of a locked package, the version it is locked at and its manifest. -/
theorem Resolved.row (h : Resolved semver provider manifest rootEdges devEdges crawl selected
    nondev locked) (hq : q ∈ locked) :
    ∃ row ∈ crawl.data, row.1 ∈ selected ∧ q.id = row.1.1 ∧
      semver.parse q.version = some row.1.2 ∧ q.resolvedRef = row.2.resolvedRef ∧
      (q.dev = true ↔ q.id ∉ nondev) := by
  obtain ⟨p, hp, hlocks⟩ := h.sound q hq
  obtain ⟨data, hdata, href⟩ := hlocks.data
  refine ⟨(p, data), (lookup_eq_some_iff h.crawled.tracks.distinct).mp hdata, hp, hlocks.id, ?_,
    href, ?_⟩
  · rw [hlocks.version, semver.parse_display]
  · rw [hlocks.id]
    exact hlocks.dev

/-- The edges of a locked package are those of its row. -/
theorem Resolved.asks_iff (hagree : SourcesAgree semver provider (R := R) manifest)
    (h : Resolved semver provider manifest rootEdges devEdges crawl selected nondev locked)
    {q : LockedPackage} {row : (Text × V) × VerData R} (hrow : row ∈ crawl.data)
    (hid : q.id = row.1.1) (hversion : semver.parse q.version = some row.1.2)
    (href : q.resolvedRef = row.2.resolvedRef) :
    (∃ m, HasManifest semver provider (R := R) manifest q m) ∧
    ∃ requests : List (Request R), row.2.edges = requests.map Request.edge ∧
      (∀ r ∈ requests, Declared semver provider manifest r) ∧
      ∀ r, LockedAsks semver provider manifest q r ↔ r ∈ requests := by
  obtain ⟨_, m, requests, hsource, hoffers, hedges, hrequests, hdeclared⟩ :=
    h.crawled.tracks.data row hrow
  obtain ⟨r₀, hr₀, hid₀, rfl⟩ := h.crawled.tracks.sources _ _ hsource
  have hmanifest : HasManifest semver provider (R := R) manifest q m :=
    ⟨r₀, row.1.2, hr₀, hid₀.trans hid.symm, hversion, href ▸ hoffers⟩
  refine ⟨⟨m, hmanifest⟩, requests, hedges, hdeclared, ?_⟩
  intro r
  rw [hrequests]
  constructor
  · rintro ⟨m', ⟨r₁, v, hr₁, hid₁, hv, hoffers₁⟩, hasks⟩
    obtain rfl : row.1.2 = v := Option.some.inj (hversion.symm.trans hv)
    have hsame := hagree r₁ r₀ hr₁ hr₀ (hid₁.trans (hid.trans hid₀.symm)) _ _ _ hoffers₁
    obtain rfl := (hoffers.unique hsame).2
    exact hasks
  · intro hasks
    exact ⟨m, hmanifest, hasks⟩

variable {solver : Solver V}

/-- Two of the versions that there are. -/
inductive Release where
  | initial
  | first
deriving DecidableEq

def Release.display : Release → Text
  | .initial => "0.0.0".toList
  | .first => "1.0.0".toList

def Release.parse (text : Text) : Option Release :=
  if text = Release.initial.display then some .initial
  else if text = Release.first.display then some .first
  else none

def Release.order : Release → Release → Ordering
  | .initial, .first => .lt
  | .first, .initial => .gt
  | _, _ => .eq

/-- Versions as the crate has them, as far as the two go. -/
def releases : Semver Release Release where
  parse := Release.parse
  display := Release.display
  parse_display := by
    intro v
    cases v <;> decide
  order := Release.order
  new := fun major _ _ => if major = 0 then .initial else .first
  parseReq := fun text =>
    match text with
    | '=' :: version =>
      match Release.parse version with
      | some release => .ok release
      | none => .error "no such version".toList
    | _ => .error "no such requirement".toList
  reqMatches := fun req version => req = version

def leafManifest : Manifest :=
  ⟨some "1.0.0".toList, IndexMap.empty, IndexMap.empty, IndexMap.empty, IndexMap.empty⟩

/-- A repository with two branches. -/
def branches : DependencyProvider Release where
  listRegistryVersions := fun url _ => .error (.notFound url [])
  fetchRegistryPackage := fun url _ _ => .error (.notFound url [])
  listGitTags := fun _ => .ok []
  resolveGitRef := fun _ name =>
    if name = "main".toList then .ok "aaaa".toList
    else if name = "next".toList then .ok "bbbb".toList
    else .error (.notFound name [])
  fetchGitManifest := fun _ _ _ => .ok leafManifest
  loadPathManifest := fun path => .error (.notFound path [])

def branch (name : Text) : IndexMap DependencySource :=
  ⟨[("acme:lib".toList, .git "https://example.com/lib.git".toList (.ref name) none)],
    List.nodup_singleton _⟩

variable {r : Request Release}

end Claim

end Wado.Resolve
