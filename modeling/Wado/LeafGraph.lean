/-
Graphs whose nodes are labelled leaves or have successors.  A node escapes a set
when a leaf of the label is reached from it outside the set; with the empty set
that is the least fixed point of "a leaf of the label, or a successor is in".
-/
import Mathlib.Order.FixedPoints
import Mathlib.Order.CompletePartialOrder

namespace LeafGraph

variable {κ : Type}

inductive Node (κ : Type) where
  | leaf (label : Bool)
  | inner (succs : List κ)
deriving DecidableEq, Repr

/-- A leaf labelled `label` is reached from the node by nodes outside `avoid`. -/
inductive Escapes (graph : κ → Node κ) (label : Bool) (avoid : Set κ) : κ → Prop
  | leaf {n : κ} (hout : n ∉ avoid) (hnode : graph n = .leaf label) : Escapes graph label avoid n
  | inner {n m : κ} {succs : List κ} (hout : n ∉ avoid) (hnode : graph n = .inner succs)
      (hm : m ∈ succs) (h : Escapes graph label avoid m) : Escapes graph label avoid n

/-- A leaf labelled `label` is reachable from the node. -/
def Reaches (graph : κ → Node κ) (label : Bool) (n : κ) : Prop :=
  Escapes graph label ∅ n

variable {graph : κ → Node κ} {label : Bool} {avoid avoid' : Set κ} {n m : κ}

theorem Escapes.mono (h : Escapes graph label avoid n) (hsub : avoid' ⊆ avoid) :
    Escapes graph label avoid' n := by
  induction h with
  | leaf hout hnode => exact .leaf (fun hin => hout (hsub hin)) hnode
  | inner hout hnode hm _ ih => exact .inner (fun hin => hout (hsub hin)) hnode hm ih

theorem Escapes.not_mem (h : Escapes graph label avoid n) : n ∉ avoid := by
  cases h with
  | leaf hout _ => exact hout
  | inner hout _ _ _ => exact hout

/-- An escape passes `z` or avoids it.  One that passes it leaves it once for
all, by a successor or as a leaf. -/
theorem Escapes.split (h : Escapes graph label avoid n) (z : κ) :
    Escapes graph label (insert z avoid) n ∨ graph z = .leaf label ∨
      ∃ succs m, graph z = .inner succs ∧ m ∈ succs ∧ Escapes graph label (insert z avoid) m := by
  induction h with
  | @leaf n hout hnode =>
    by_cases hz : n = z
    · exact Or.inr (Or.inl (hz ▸ hnode))
    · exact Or.inl (.leaf (by simp [hz, hout]) hnode)
  | @inner n m succs hout hnode hm _ ih =>
    rcases ih with hesc | hpassed
    · by_cases hz : n = z
      · exact Or.inr (Or.inr ⟨succs, m, hz ▸ hnode, hm, hesc⟩)
      · exact Or.inl (.inner (by simp [hz, hout]) hnode hm hesc)
    · exact Or.inr hpassed

/-- Closing a node: it does not escape when no successor does with it avoided. -/
theorem not_escapes_of_succs {succs : List κ} (hnode : graph n = .inner succs)
    (hsuccs : ∀ m ∈ succs, ¬ Escapes graph label (insert n avoid) m) :
    ¬ Escapes graph label avoid n := by
  intro h
  rcases h.split n with hesc | hleaf | ⟨succs', m, hnode', hm, hesc⟩
  · exact hesc.not_mem (Set.mem_insert n avoid)
  · rw [hnode] at hleaf
    cases hleaf
  · rw [hnode] at hnode'
    cases hnode'
    exact hsuccs m hm hesc

/-- The nodes avoided need not be, where each stays avoided or does not escape. -/
theorem not_escapes_of_stays (hstays : ∀ z ∈ avoid', z ∈ avoid ∨ ¬ Escapes graph label avoid z)
    (h : ¬ Escapes graph label avoid' n) : ¬ Escapes graph label avoid n := by
  intro hn
  apply h
  clear h
  induction hn with
  | @leaf n hout hnode =>
    refine .leaf (fun hin => ?_) hnode
    rcases hstays n hin with hin' | hesc
    · exact hout hin'
    · exact hesc (.leaf hout hnode)
  | @inner n m succs hout hnode hm hesc' ih =>
    refine .inner (fun hin => ?_) hnode hm ih
    rcases hstays n hin with hin' | hesc
    · exact hout hin'
    · exact hesc (.inner hout hnode hm hesc')

/-- The nodes that are a leaf labelled `label`, or have a successor in `nodes`. -/
def orStep (graph : κ → Node κ) (label : Bool) : Set κ →o Set κ where
  toFun nodes := { n | graph n = .leaf label ∨ ∃ succs, graph n = .inner succs ∧
    ∃ m ∈ succs, m ∈ nodes }
  monotone' := by
    rintro nodes nodes' hsub n (hleaf | ⟨succs, hnode, m, hm, hin⟩)
    · exact Or.inl hleaf
    · exact Or.inr ⟨succs, hnode, m, hm, hsub hin⟩

/-- The nodes that are a leaf not labelled `label`, or have every successor in
`nodes`. -/
def andStep (graph : κ → Node κ) (label : Bool) : Set κ →o Set κ where
  toFun nodes := { n | graph n = .leaf (!label) ∨ ∃ succs, graph n = .inner succs ∧
    ∀ m ∈ succs, m ∈ nodes }
  monotone' := by
    rintro nodes nodes' hsub n (hleaf | ⟨succs, hnode, hall⟩)
    · exact Or.inl hleaf
    · exact Or.inr ⟨succs, hnode, fun m hm => hsub (hall m hm)⟩

/-- Reachability is the least fixed point of the disjunction. -/
theorem reaches_iff_mem_lfp : Reaches graph label n ↔ n ∈ OrderHom.lfp (orStep graph label) := by
  constructor
  · intro h
    induction h with
    | leaf _ hnode =>
      rw [← OrderHom.map_lfp]
      exact Or.inl hnode
    | inner _ hnode hm _ ih =>
      rw [← OrderHom.map_lfp]
      exact Or.inr ⟨_, hnode, _, hm, ih⟩
  · have hle : OrderHom.lfp (orStep graph label) ≤ { n | Reaches graph label n } := by
      apply OrderHom.lfp_le
      rintro n (hleaf | ⟨succs, hnode, m, hm, hin⟩)
      · exact .leaf (Set.notMem_empty n) hleaf
      · exact .inner (Set.notMem_empty n) hnode hm hin
    exact fun h => hle h

/-- Unreachability is the greatest fixed point of the conjunction. -/
theorem not_reaches_iff_mem_gfp :
    ¬ Reaches graph label n ↔ n ∈ OrderHom.gfp (andStep graph label) := by
  constructor
  · have hle : { n | ¬ Reaches graph label n } ≤ OrderHom.gfp (andStep graph label) := by
      apply OrderHom.le_gfp
      intro n hn
      cases hnode : graph n with
      | leaf b =>
        refine Or.inl (hnode.trans ?_)
        have hne : b ≠ label := fun heq => hn (.leaf (Set.notMem_empty n) (heq ▸ hnode))
        rw [Bool.eq_not_of_ne hne]
      | inner succs =>
        exact Or.inr ⟨succs, hnode, fun m hm hreach =>
          hn (.inner (Set.notMem_empty n) hnode hm hreach)⟩
    exact fun h => hle h
  · intro hin hreach
    induction hreach with
    | leaf _ hnode =>
      rw [← OrderHom.map_gfp] at hin
      rcases hin with hleaf | ⟨succs, hinner, -⟩
      · rw [hnode] at hleaf
        cases label <;> cases hleaf
      · rw [hnode] at hinner
        cases hinner
    | inner _ hnode hm _ ih =>
      rw [← OrderHom.map_gfp] at hin
      rcases hin with hleaf | ⟨succs, hinner, hall⟩
      · rw [hnode] at hleaf
        cases hleaf
      · rw [hnode] at hinner
        cases hinner
        exact ih (hall _ hm)

/-- What a walk that answers a cut by `cutAnswer` means to compute: the greatest
fixed point of the conjunction for `true`, the least of the disjunction for
`false`. -/
noncomputable def fixedPoint (graph : κ → Node κ) (cutAnswer : Bool) : Set κ :=
  if cutAnswer then OrderHom.gfp (andStep graph false) else OrderHom.lfp (orStep graph true)

theorem mem_fixedPoint_iff {cutAnswer : Bool} : n ∈ fixedPoint graph cutAnswer ↔
    if cutAnswer then ¬ Reaches graph false n else Reaches graph true n := by
  cases cutAnswer with
  | false => exact reaches_iff_mem_lfp.symm
  | true => exact not_reaches_iff_mem_gfp.symm

end LeafGraph
