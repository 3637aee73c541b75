/-
What the solver selects of the table that a crawl gives it, and what is locked of that.
-/
import Wado.Resolve.CrawlRuns
import Mathlib.Data.List.Sublists

namespace Wado

namespace Resolve

open Toml List
open Wado.Manifest (IndexMap LockedPackage)
open ExceptSteps

variable {V R : Type} [DecidableEq V]

/-- A selection that meets all the constraints of a table. -/
structure Solves (table : List (SolverRow V)) (root : Text) (rootVersion : V)
    (selected : List (Text × V)) : Prop where
  distinct : (selected.map Prod.fst).Nodup
  root : (root, rootVersion) ∈ selected
  known : ∀ p ∈ selected, ∃ row ∈ table, (row.id, row.version) = p
  met : ∀ row ∈ table, (row.id, row.version) ∈ selected → ∀ c ∈ row.constraints,
    ∃ v, (c.1, v) ∈ selected ∧ c.2 v = true

variable {semver : Semver V R} {provider : DependencyProvider V}

section Ranges

omit [DecidableEq V] in
variable {merged : List (Text × Ranges V)}

variable {range : Ranges V}

theorem mem_mergeRange {id : Text} :
    (mergeRange id range merged).map Prod.fst =
      if id ∈ merged.map Prod.fst then merged.map Prod.fst else merged.map Prod.fst ++ [id] := by
  induction merged with
  | nil => rfl
  | cons entry merged ih =>
    unfold mergeRange
    by_cases hid : entry.1 = id
    · simp [hid]
    · rw [if_neg hid, map_cons, ih]
      by_cases hmem : id ∈ merged.map Prod.fst
      · simp [hmem]
      · simp [hmem, Ne.symm hid]

omit [DecidableEq V] in
variable {v : V}

/-- The range of an id admits what the ranges that went into it admit. -/
theorem mergeRange_admits {id other : Text} :
    (∀ entry ∈ mergeRange id range merged, entry.1 = other → entry.2 v = true) ↔
      (∀ entry ∈ merged, entry.1 = other → entry.2 v = true) ∧ (id = other → range v = true) := by
  induction merged with
  | nil => simp [mergeRange]
  | cons entry merged ih =>
    unfold mergeRange
    by_cases hid : entry.1 = id
    · rw [if_pos hid]
      simp only [forall_mem_cons, Bool.and_eq_true, hid]
      tauto
    · rw [if_neg hid, forall_mem_cons, ih, forall_mem_cons, and_assoc]

theorem ranges_foldl {crawl : Crawl V R} {edges : List (Edge R)}
    {merged : List (Text × Ranges V)} :
    (∀ id, id ∈ (edges.foldl (fun merged edge =>
        mergeRange edge.1 (crawl.range semver edge) merged) merged).map Prod.fst ↔
      id ∈ merged.map Prod.fst ∨ id ∈ edges.map Prod.fst) ∧
    ∀ id v, (∀ entry ∈ edges.foldl (fun merged edge =>
        mergeRange edge.1 (crawl.range semver edge) merged) merged,
          entry.1 = id → entry.2 v = true) ↔
      (∀ entry ∈ merged, entry.1 = id → entry.2 v = true) ∧
        ∀ e ∈ edges, e.1 = id → crawl.range semver e v = true := by
  induction edges generalizing merged with
  | nil => simp
  | cons e edges ih =>
    obtain ⟨hids, hadmits⟩ := @ih (mergeRange e.1 (crawl.range semver e) merged)
    constructor
    · intro id
      rw [foldl_cons, hids, mem_mergeRange, map_cons, mem_cons]
      split_ifs with hmem
      · constructor
        · rintro (h | h)
          · exact .inl h
          · exact .inr (.inr h)
        · rintro (h | rfl | h)
          · exact .inl h
          · exact .inl hmem
          · exact .inr h
      · rw [mem_append, mem_singleton, or_assoc]
    · intro id v
      rw [foldl_cons, hadmits, mergeRange_admits, forall_mem_cons, and_assoc]

variable {crawl : Crawl V R}

/-- The constraints of edges are met when each edge is. -/
theorem ranges_met {edges : List (Edge R)} {selected : List (Text × V)}
    (hdistinct : (selected.map Prod.fst).Nodup) :
    (∀ c ∈ crawl.ranges semver edges, ∃ v, (c.1, v) ∈ selected ∧ c.2 v = true) ↔
      ∀ e ∈ edges, ∃ v, (e.1, v) ∈ selected ∧ crawl.range semver e v = true := by
  obtain ⟨hids, hadmits⟩ := @ranges_foldl V R _ semver crawl edges []
  have hsame : ∀ {id : Text} {v w : V}, (id, v) ∈ selected → (id, w) ∈ selected → v = w := by
    intro id v w hv hw
    exact congrArg Prod.snd (inj_on_of_nodup_map hdistinct hv hw rfl)
  constructor
  · intro h e he
    obtain ⟨c, hc, hid⟩ := mem_map.mp ((hids e.1).mpr (.inr (mem_map_of_mem he)))
    obtain ⟨v, hv, _⟩ := h c hc
    rw [hid] at hv
    refine ⟨v, hv, ((hadmits e.1 v).mp ?_).2 e he rfl⟩
    intro entry hentry heq
    obtain ⟨w, hw, hadmit⟩ := h entry hentry
    rw [heq] at hw
    rw [hsame hv hw]
    exact hadmit
  · intro h c hc
    rcases (hids c.1).mp (mem_map_of_mem hc) with hnil | hmem
    · cases hnil
    · obtain ⟨e, he, hid⟩ := mem_map.mp hmem
      obtain ⟨v, hv, _⟩ := h e he
      rw [hid] at hv
      refine ⟨v, hv, (hadmits c.1 v).mpr ⟨by simp, ?_⟩ c hc rfl⟩
      intro e' he' heq
      obtain ⟨w, hw, hrange⟩ := h e' he'
      rw [heq] at hw
      rw [hsame hv hw]
      exact hrange

theorem meets_of_range {e : Edge R}
    (h : crawl.range semver e v = true) : meets semver e.2 v = true := by
  obtain ⟨id, req⟩ := e
  cases req with
  | none => rfl
  | some spec =>
    simp only [Crawl.range, decide_eq_true_eq] at h
    exact (mem_filter.mp h).2

end Ranges

section Nondev

variable {crawl : Crawl V R} {selected : List (Text × V)}

/-- The ids that chains of selected edges lead to from `roots`. -/
inductive Crawl.Leads (crawl : Crawl V R) (selected : List (Text × V)) (roots : List Text) :
    Text → Prop where
  | root {id : Text} (h : id ∈ roots) (hselected : (selected.lookup id).isSome) :
      Leads crawl selected roots id
  | edge {id : Text} {v : V} {data : VerData R} {e : Edge R} (h : Leads crawl selected roots id)
      (hversion : selected.lookup id = some v) (hdata : crawl.data.lookup (id, v) = some data)
      (hedge : e ∈ data.edges) (hselected : (selected.lookup e.1).isSome) :
      Leads crawl selected roots e.1

end Nondev

end Resolve

end Wado

/-
A solver that keeps its promise, by trying every selection among the rows of a table.
-/

namespace Wado

namespace Resolve

open Toml

attribute [local instance] text_lawful

variable {V : Type} [DecidableEq V]

theorem selected_lawful : LawfulBEq (Text × V) := inferInstance

attribute [local instance] selected_lawful

variable {table : List (SolverRow V)}

variable {rootVersion : V}

/-- What solves a table does so in the order of the table's rows. -/
theorem Solves.inOrder {root : Text}
    {selected : List (Text × V)} (h : Solves table root rootVersion selected)
    (hrows : (table.map fun row => (row.id, row.version)).Nodup) :
    Solves table root rootVersion
      ((table.map fun row => (row.id, row.version)).filter fun p => p ∈ selected) := by
  have hmem : ∀ p, p ∈ (table.map fun row => (row.id, row.version)).filter
      (fun p => p ∈ selected) ↔ p ∈ selected := by
    intro p
    rw [List.mem_filter, decide_eq_true_eq]
    constructor
    · exact And.right
    · intro hp
      obtain ⟨row, hrow, rfl⟩ := h.known p hp
      exact ⟨List.mem_map_of_mem hrow, hp⟩
  constructor
  · refine List.Nodup.map_on ?_ (hrows.filter _)
    intro p hp q hq hid
    exact List.inj_on_of_nodup_map h.distinct ((hmem p).mp hp) ((hmem q).mp hq) hid
  · exact (hmem _).mpr h.root
  · intro p hp
    exact h.known p ((hmem p).mp hp)
  · intro row hrow hselected c hc
    obtain ⟨v, hv, hrange⟩ := h.met row hrow ((hmem _).mp hselected) c hc
    exact ⟨v, (hmem _).mpr hv, hrange⟩

end Resolve

end Wado
