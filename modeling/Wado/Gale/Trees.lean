/-
Trees over the rows of a builder: forests whose last node may stand open, the rows they are laid
out in, and the forest that nested rows spell.
-/
import Wado.Gale.TreeBuilder
import Wado.Nesting
import Mathlib.Data.Int.Order.Basic
import Mathlib.Data.List.Induction

namespace Wado.Gale

open Nesting

/-- The rows that hold a token. -/
inductive LeafTag
  | tok
  | miss
  | skip
deriving DecidableEq, Repr

def LeafTag.event : LeafTag → EventTag
  | .tok => .tok
  | .miss => .miss
  | .skip => .skip

/-- What the row that closes a node holds. -/
structure Closing where
  id : Int
  offset : Int
  alt : Int
deriving DecidableEq, Repr

inductive Tree
  | leaf (tag : LeafTag) (id offset alt : Int)
  | node (kind start alt : Int) (closing : Option Closing) (children : List Tree)

def Closing.row (closing : Closing) : Row :=
  ⟨.closes, closing.id, closing.offset, closing.alt⟩

mutual

/-- The rows of a tree, in the order they were added. -/
def Tree.rows : Tree → List Row
  | .leaf tag id offset alt => [⟨tag.event, id, offset, alt⟩]
  | .node kind start alt closing children =>
    ⟨.opens, kind, start, alt⟩ :: (Tree.rowsAll children ++ closing.toList.map Closing.row)

def Tree.rowsAll : List Tree → List Row
  | [] => []
  | t :: rest => t.rows ++ Tree.rowsAll rest

end

def Tree.size (t : Tree) : Nat := t.rows.length

theorem Tree.rowsAll_append (front back : List Tree) :
    Tree.rowsAll (front ++ back) = Tree.rowsAll front ++ Tree.rowsAll back := by
  induction front with
  | nil => simp [Tree.rowsAll]
  | cons t rest ih => simp [Tree.rowsAll, ih]

theorem Tree.size_pos (t : Tree) : 0 < t.size := by
  cases t with
  | leaf => simp [Tree.size, Tree.rows]
  | node => simp [Tree.size, Tree.rows]

mutual

/-- A property of every tree in a tree, with the row it stands at. -/
def Tree.Everywhere (P : Nat → Tree → Prop) : Nat → Tree → Prop
  | r, .leaf tag id offset alt => P r (.leaf tag id offset alt)
  | r, .node kind start alt closing children =>
    P r (.node kind start alt closing children) ∧ Tree.EverywhereAll P (r + 1) children

def Tree.EverywhereAll (P : Nat → Tree → Prop) : Nat → List Tree → Prop
  | _, [] => True
  | r, t :: rest => t.Everywhere P r ∧ Tree.EverywhereAll P (r + t.size) rest

end

variable {r : Nat} {front back : List Tree}

theorem Tree.everywhereAll_append {P : Nat → Tree → Prop} :
    Tree.EverywhereAll P r (front ++ back) ↔ Tree.EverywhereAll P r front ∧
        Tree.EverywhereAll P (r + (Tree.rowsAll front).length) back := by
  induction front generalizing r with
  | nil => simp [Tree.EverywhereAll, Tree.rowsAll]
  | cons t rest ih =>
    simp only [List.cons_append, Tree.EverywhereAll, ih, Tree.rowsAll, List.length_append,
      ← Tree.size.eq_1, Nat.add_assoc, and_assoc]

mutual

/-- Two properties hold everywhere together, and what follows from them within the rows. -/
theorem Tree.Everywhere.both {P Q R : Nat → Tree → Prop} {r : Nat} {t : Tree}
    (hp : t.Everywhere P r) (hq : t.Everywhere Q r)
    (h : ∀ i t', r ≤ i → i < r + t.size → P i t' → Q i t' → R i t') : t.Everywhere R r := by
  cases t with
  | leaf tag id offset alt =>
    exact h r _ (Nat.le_refl r) (Nat.lt_add_of_pos_right (Tree.size_pos _)) hp hq
  | node kind start alt closing children =>
    simp only [Tree.Everywhere] at hp hq ⊢
    refine ⟨h r _ (Nat.le_refl r) (Nat.lt_add_of_pos_right (Tree.size_pos _)) hp.1 hq.1, ?_⟩
    apply Tree.EverywhereAll.both hp.2 hq.2
    intro i t' hle hlt
    apply h i t' (by omega)
    simp only [Tree.size, Tree.rows, List.length_cons, List.length_append]
    omega

theorem Tree.EverywhereAll.both {P Q R : Nat → Tree → Prop} {r : Nat} {trees : List Tree}
    (hp : Tree.EverywhereAll P r trees) (hq : Tree.EverywhereAll Q r trees)
    (h : ∀ i t', r ≤ i → i < r + (Tree.rowsAll trees).length → P i t' → Q i t' → R i t') :
    Tree.EverywhereAll R r trees := by
  cases trees with
  | nil => simp [Tree.EverywhereAll]
  | cons t rest =>
    simp only [Tree.EverywhereAll] at hp hq ⊢
    have hlength : (Tree.rowsAll (t :: rest)).length = t.size + (Tree.rowsAll rest).length := by
      simp [Tree.rowsAll, Tree.size]
    rw [hlength] at h
    refine ⟨Tree.Everywhere.both hp.1 hq.1 ?_, Tree.EverywhereAll.both hp.2 hq.2 ?_⟩
    · intro i t' hle hlt
      exact h i t' hle (by omega)
    · intro i t' hle hlt
      exact h i t' (by omega) (by omega)

end

mutual

/-- What holds everywhere holds everywhere inside of each tree. -/
theorem Tree.Everywhere.inside {P : Nat → Tree → Prop} {r : Nat} {t : Tree}
    (h : t.Everywhere P r) : t.Everywhere (fun i u => u.Everywhere P i) r := by
  cases t with
  | leaf tag id offset alt => exact h
  | node kind start alt closing children =>
    exact ⟨h, Tree.EverywhereAll.inside h.2⟩

theorem Tree.EverywhereAll.inside {P : Nat → Tree → Prop} {r : Nat} {trees : List Tree}
    (h : Tree.EverywhereAll P r trees) :
    Tree.EverywhereAll (fun i u => u.Everywhere P i) r trees := by
  cases trees with
  | nil => simp [Tree.EverywhereAll]
  | cons t rest =>
    simp only [Tree.EverywhereAll] at h ⊢
    exact ⟨Tree.Everywhere.inside h.1, Tree.EverywhereAll.inside h.2⟩

end

variable {trees : List Tree}

theorem Tree.EverywhereAll.imp {P R : Nat → Tree → Prop} (hp : Tree.EverywhereAll P r trees)
    (h : ∀ i t', r ≤ i → i < r + (Tree.rowsAll trees).length → P i t' → R i t') :
    Tree.EverywhereAll R r trees :=
  Tree.EverywhereAll.both hp hp fun i t' hle hlt hp _ => h i t' hle hlt hp

mutual

/-- Every node has its closing row. -/
def Tree.Closed : Tree → Prop
  | .leaf .. => True
  | .node _ _ _ closing children => closing.isSome ∧ Tree.ClosedAll children

def Tree.ClosedAll : List Tree → Prop
  | [] => True
  | t :: rest => t.Closed ∧ Tree.ClosedAll rest

end

theorem Tree.closedAll_append :
    Tree.ClosedAll (front ++ back) ↔ Tree.ClosedAll front ∧ Tree.ClosedAll back := by
  induction front with
  | nil => simp [Tree.ClosedAll]
  | cons t rest ih =>
    simp only [List.cons_append, Tree.ClosedAll, ih]
    tauto

/-- A forest laid out from a row on, with the rows of its open nodes, the outermost first: only
the last tree can stand open, and so on inside of it. -/
inductive Tree.Growing : Nat → List Tree → List Nat → Prop
  | closed {r : Nat} {trees : List Tree} (h : Tree.ClosedAll trees) : Growing r trees []
  | standing {r : Nat} {trees inner : List Tree} {openRows : List Nat} (kind start alt : Int)
      (h : Tree.ClosedAll trees)
      (hinner : Growing (r + (Tree.rowsAll trees).length + 1) inner openRows) :
      Growing r (trees ++ [.node kind start alt none inner])
        ((r + (Tree.rowsAll trees).length) :: openRows)

namespace Tree.Growing

/-- A leaf goes after the last tree of the innermost open node. -/
theorem leaf {r : Nat} {trees : List Tree} {openRows : List Nat}
    (h : Growing r trees openRows) (tag : LeafTag) (id offset alt : Int) :
    ∃ trees', Growing r trees' openRows ∧
      Tree.rowsAll trees' = Tree.rowsAll trees ++ [⟨tag.event, id, offset, alt⟩] := by
  induction h with
  | @closed r trees h =>
    refine ⟨trees ++ [.leaf tag id offset alt], .closed ?_, ?_⟩
    · exact Tree.closedAll_append.mpr ⟨h, by simp [Tree.Closed, Tree.ClosedAll]⟩
    · simp [Tree.rowsAll_append, Tree.rowsAll, Tree.rows]
  | @standing r trees inner openRows kind start nodeAlt h hinner ih =>
    obtain ⟨inner', hgrown, hrows⟩ := ih
    refine ⟨trees ++ [.node kind start nodeAlt none inner'],
      .standing kind start nodeAlt h hgrown, ?_⟩
    simp [Tree.rowsAll_append, Tree.rowsAll, Tree.rows, hrows]

/-- A new node stands open inside of the innermost. -/
theorem start {openRows : List Nat} (h : Growing r trees openRows) (kind start alt : Int) :
    ∃ trees', Growing r trees' (openRows ++ [r + (Tree.rowsAll trees).length]) ∧
      Tree.rowsAll trees' = Tree.rowsAll trees ++ [⟨.opens, kind, start, alt⟩] := by
  induction h with
  | @closed r trees h =>
    refine ⟨trees ++ [.node kind start alt none []], .standing kind start alt h
      (.closed (by simp [Tree.ClosedAll])), ?_⟩
    simp [Tree.rowsAll_append, Tree.rowsAll, Tree.rows]
  | @standing r trees inner openRows nodeKind nodeStart nodeAlt h hinner ih =>
    obtain ⟨inner', hgrown, hrows⟩ := ih
    refine ⟨trees ++ [.node nodeKind nodeStart nodeAlt none inner'], ?_, ?_⟩
    · have hplace : r + (Tree.rowsAll (trees ++ [.node nodeKind nodeStart nodeAlt none
          inner])).length = r + (Tree.rowsAll trees).length + 1 + (Tree.rowsAll inner).length := by
        simp [Tree.rowsAll_append, Tree.rowsAll, Tree.rows]
        omega
      rw [hplace]
      exact .standing nodeKind nodeStart nodeAlt h hgrown
    · simp [Tree.rowsAll_append, Tree.rowsAll, Tree.rows, hrows]

/-- Closing takes the innermost open node. -/
theorem finish {openRows : List Nat}
    (h : Growing r trees openRows) (hsome : openRows ≠ []) (closing : Closing) :
    ∃ trees', Growing r trees' openRows.dropLast ∧
      Tree.rowsAll trees' = Tree.rowsAll trees ++ [closing.row] := by
  induction h with
  | closed h => exact absurd rfl hsome
  | @standing r trees inner openRows kind start alt h hinner ih =>
    cases hinner with
    | closed hclosed =>
      refine ⟨trees ++ [.node kind start alt (some closing) inner], .closed ?_, ?_⟩
      · exact Tree.closedAll_append.mpr ⟨h, by simp [Tree.Closed, Tree.ClosedAll, hclosed]⟩
      · simp [Tree.rowsAll_append, Tree.rowsAll, Tree.rows]
    | standing kind' start' alt' h' hinner' =>
      obtain ⟨inner', hgrown, hrows⟩ := ih (List.cons_ne_nil _ _)
      refine ⟨trees ++ [.node kind start alt none inner'], ?_, ?_⟩
      · rw [List.dropLast_cons_of_ne_nil (List.cons_ne_nil _ _)]
        exact .standing kind start alt h hgrown
      · simp only [Tree.rowsAll_append, Tree.rowsAll, Tree.rows, hrows]
        simp

end Tree.Growing

/-- What a row does to the nesting. -/
def EventTag.bracket : EventTag → Bracket
  | .opens => .opens
  | .closes => .closes
  | .tok => .plain
  | .miss => .plain
  | .skip => .plain

def brackets (rows : List Row) : List Bracket := rows.map fun row => row.tag.bracket

/-- Rows that nest are the rows of a forest, in which the same rows stand open. -/
theorem exists_growing {rows : List Row} {found : List Nat}
    (h : standing 0 [] (brackets rows) = some found) :
    ∃ trees, Tree.Growing 0 trees found.reverse ∧ Tree.rowsAll trees = rows := by
  induction rows using List.reverseRecOn generalizing found with
  | nil =>
    simp only [brackets, List.map_nil, standing, Option.some.injEq] at h
    subst h
    exact ⟨[], .closed (by simp [Tree.ClosedAll]), by simp [Tree.rowsAll]⟩
  | append_singleton rows row ih =>
    rw [brackets, List.map_append, standing_append, Option.bind_eq_some_iff] at h
    obtain ⟨before, hbefore, hlast⟩ := h
    obtain ⟨trees, hgrown, hrows⟩ := ih hbefore
    simp only [List.map_cons, List.map_nil, standing, List.length_map, Nat.zero_add,
      Option.bind_eq_some_iff, Option.some.injEq, exists_eq_right] at hlast
    obtain ⟨tag, id, offset, alt⟩ := row
    have hleaf : ∀ leafTag : LeafTag, leafTag.event = tag → before = found →
        ∃ trees, Tree.Growing 0 trees found.reverse ∧
          Tree.rowsAll trees = rows ++ [⟨tag, id, offset, alt⟩] := by
      intro leafTag htag heq
      obtain ⟨trees', hgrown', hrows'⟩ := hgrown.leaf leafTag id offset alt
      rw [hrows, htag] at hrows'
      exact ⟨trees', heq ▸ hgrown', hrows'⟩
    cases tag with
    | opens =>
      obtain ⟨trees', hgrown', hrows'⟩ := hgrown.start id offset alt
      simp only [EventTag.bracket, next, Option.some.injEq] at hlast
      rw [hrows, Nat.zero_add] at hgrown'
      rw [hrows] at hrows'
      refine ⟨trees', ?_, hrows'⟩
      rw [← hlast, List.reverse_cons]
      exact hgrown'
    | closes =>
      cases before with
      | nil => simp [EventTag.bracket, next] at hlast
      | cons innermost outer =>
        simp only [EventTag.bracket, next, Option.some.injEq] at hlast
        obtain ⟨trees', hgrown', hrows'⟩ :=
          hgrown.finish (by simp) ⟨id, offset, alt⟩
        rw [List.reverse_cons, List.dropLast_concat, hlast] at hgrown'
        rw [hrows] at hrows'
        exact ⟨trees', hgrown', hrows'⟩
    | tok => exact hleaf .tok rfl (by simpa [EventTag.bracket, next] using hlast)
    | miss => exact hleaf .miss rfl (by simpa [EventTag.bracket, next] using hlast)
    | skip => exact hleaf .skip rfl (by simpa [EventTag.bracket, next] using hlast)

end Wado.Gale
