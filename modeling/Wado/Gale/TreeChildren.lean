/-
The children of a node, as the columns of a finished tree enumerate them.
-/
import Wado.Gale.TreeFinish

namespace Wado.Gale

open Nesting List Tree

/-- The rows that trees laid out from a row on stand at. -/
def Tree.starts : Nat → List Tree → List Nat
  | _, [] => []
  | r, t :: rest => r :: Tree.starts (r + t.size) rest

/-- A tree's rows stand from its row on, and an open node's are the last. -/
def Tree.LaidOut (rows : List Row) (r : Nat) (t : Tree) : Prop :=
  ∃ after, rows.drop r = t.rows ++ after ∧ match t with
    | .leaf .. => True
    | .node _ _ _ closing _ => closing = none → after = []

mutual

theorem Tree.laidOut (rows : List Row) (t : Tree) (hclosed : t.Closed) (r : Nat)
    (after : List Row) (h : rows.drop r = t.rows ++ after) :
    t.Everywhere (Tree.LaidOut rows) r := by
  cases t with
  | leaf tag id offset alt => exact ⟨after, h, trivial⟩
  | node kind start alt closing children =>
    simp only [Tree.Closed] at hclosed
    refine ⟨⟨after, h, fun hnone => ?_⟩, ?_⟩
    · rw [hnone] at hclosed
      exact absurd hclosed.1 (by simp)
    · refine Tree.laidOutAll rows children hclosed.2 (r + 1)
        (closing.toList.map Closing.row ++ after) ?_
      rw [← drop_drop, h]
      simp [Tree.rows]

theorem Tree.laidOutAll (rows : List Row) (trees : List Tree) (hclosed : Tree.ClosedAll trees)
    (r : Nat) (after : List Row) (h : rows.drop r = Tree.rowsAll trees ++ after) :
    Tree.EverywhereAll (Tree.LaidOut rows) r trees := by
  cases trees with
  | nil => simp [Tree.EverywhereAll]
  | cons t rest =>
    simp only [Tree.ClosedAll] at hclosed
    rw [Tree.rowsAll, append_assoc] at h
    refine ⟨Tree.laidOut rows t hclosed.1 r _ h, ?_⟩
    apply Tree.laidOutAll rows rest hclosed.2 (r + t.size) after
    rw [← drop_drop, h, Tree.size, drop_left]

end

variable {r : Nat}

theorem Tree.Growing.laidOut {rows : List Row} {trees : List Tree}
    {openRows : List Nat} (h : Tree.Growing r trees openRows)
    (hrows : rows.drop r = Tree.rowsAll trees) :
    Tree.EverywhereAll (Tree.LaidOut rows) r trees := by
  induction h with
  | closed hclosed =>
    apply Tree.laidOutAll rows _ hclosed _ []
    rw [hrows, append_nil]
  | @standing r trees inner openRows kind start alt h hinner ih =>
    rw [Tree.rowsAll_append] at hrows
    rw [Tree.everywhereAll_append]
    have hafter : rows.drop (r + (Tree.rowsAll trees).length) =
        (Tree.node kind start alt none inner).rows := by
      rw [← drop_drop, hrows, drop_left]
      simp [Tree.rowsAll]
    refine ⟨Tree.laidOutAll rows _ h _ _ hrows, ⟨⟨[], ?_, fun _ => rfl⟩, ?_⟩, trivial⟩
    · rw [hafter, append_nil]
    · apply ih
      rw [← drop_drop, hafter]
      simp [Tree.rows]

namespace CstStore

/-- The rows after a node's last child: none, or the one that closes it. -/
def Ends (after : List Row) : Prop := ∀ found ∈ after.head?, found.tag = .closes

variable {cst : CstStore}

theorem childAt_ends (h : Ends (cst.rows.drop r)) :
    cst.childAt r = none := by
  rw [Ends, List.head?_drop] at h
  unfold childAt
  cases hrow : cst.rows[r]? with
  | none => rfl
  | some found => simp [h found hrow]

variable {after : List Row}

theorem childAt_tree {t : Tree}
    (h : cst.rows.drop r = t.rows ++ after) : cst.childAt r = some r := by
  have hhead : cst.rows[r]? = (t.rows ++ after).head? := by rw [← h, List.head?_drop]
  unfold childAt
  cases t with
  | leaf tag id offset alt =>
    rw [hhead]
    cases tag <;> simp [Tree.rows, LeafTag.event]
  | node kind start alt closing children =>
    rw [hhead]
    simp [Tree.rows]

theorem nextSibling_tree {t : Tree}
    (h : cst.rows.drop r = t.rows ++ after) (hcell : t.HasCell cst.cell r) :
    cst.nextSibling r = cst.childAt (r + t.size) := by
  have hhead : cst.rows[r]? = (t.rows ++ after).head? := by rw [← h, List.head?_drop]
  unfold nextSibling
  rw [hhead]
  cases t with
  | leaf tag id offset alt => cases tag <;> simp [Tree.rows, LeafTag.event, Tree.size]
  | node kind start alt closing children =>
    simp only [Tree.HasCell, cell, Cell.mk.injEq] at hcell
    simp [Tree.rows, hcell.2.2]

/-- From the first of a run of trees the siblings are the rows that the trees stand at. -/
theorem siblings_trees {trees : List Tree} {r fuel : Nat}
    (h : cst.rows.drop r = rowsAll trees ++ after) (hends : Ends after)
    (hcells : Tree.EverywhereAll (Tree.HasCell cst.cell) r trees)
    (hfuel : (rowsAll trees).length ≤ fuel) :
    cst.siblings fuel (cst.childAt r) = starts r trees := by
  induction trees generalizing r fuel with
  | nil =>
    rw [rowsAll, nil_append] at h
    rw [childAt_ends (h ▸ hends)]
    cases fuel <;> rfl
  | cons t rest ih =>
    rw [rowsAll, append_assoc] at h
    rw [rowsAll, length_append] at hfuel
    have hpos : 0 < t.rows.length := size_pos t
    obtain ⟨fuel, rfl⟩ : ∃ k, fuel = k + 1 := ⟨fuel - 1, by omega⟩
    have hself : t.HasCell cst.cell r := by
      cases t with
      | leaf => trivial
      | node => exact hcells.1.1
    rw [childAt_tree h, siblings, nextSibling_tree h hself, starts]
    congr 1
    apply ih
    · rw [← drop_drop, h, size, drop_left]
    · exact hcells.2
    · omega

theorem children_node {kind start alt : Int} {closing : Option Closing} {children : List Tree}
    (hlaid : (Tree.node kind start alt closing children).LaidOut cst.rows r)
    (hcells : Tree.EverywhereAll (Tree.HasCell cst.cell) (r + 1) children) :
    cst.children r = Tree.starts (r + 1) children := by
  obtain ⟨after, hdrop, hafter⟩ := hlaid
  have hinside : cst.rows.drop (r + 1) =
      Tree.rowsAll children ++ (closing.toList.map Closing.row ++ after) := by
    rw [← drop_drop, hdrop]
    simp [Tree.rows]
  have hlength : (Tree.rowsAll children).length ≤ cst.rows.length := by
    have heq := congrArg List.length hinside
    simp only [length_drop, length_append] at heq
    omega
  refine siblings_trees hinside ?_ hcells hlength
  intro found hfound
  cases closing with
  | none => simp [hafter rfl] at hfound
  | some closing =>
    simp only [Option.toList_some, map_cons, map_nil, singleton_append,
      List.head?_cons, Option.mem_def, Option.some.injEq] at hfound
    rw [← hfound]
    rfl

end CstStore

end Wado.Gale
