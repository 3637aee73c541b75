/-
The pass that computes the columns of a tree: what it leaves in the row of every node, and in the
node around a run of trees.
-/
import Wado.Gale.Trees
import Mathlib.Logic.Function.Basic

namespace Wado.Gale

open Nesting List Option Tree

/-- The greatest of a number and a list. -/
def greatest (e : Int) (marks : List Int) : Int := marks.foldl max e

theorem greatest_append (e : Int) (front back : List Int) :
    greatest e (front ++ back) = greatest (greatest e front) back :=
  foldl_append

theorem greatest_max (a b : Int) (marks : List Int) :
    greatest (max a b) marks = max a (greatest b marks) := by
  induction marks generalizing b with
  | nil => rfl
  | cons m rest ih =>
    simp only [greatest, foldl_cons] at ih ⊢
    rw [max_assoc, ih]

theorem greatest_mem (e : Int) (marks : List Int) : greatest e marks ∈ e :: marks := by
  induction marks generalizing e with
  | nil => simp [greatest]
  | cons m rest ih =>
    simp only [greatest, foldl_cons] at ih ⊢
    rcases mem_cons.mp (ih (max e m)) with hfirst | hrest
    · rw [hfirst]
      rcases le_total e m with hle | hle
      · rw [max_eq_right hle]
        exact mem_cons_of_mem _ mem_cons_self
      · rw [max_eq_left hle]
        exact mem_cons_self
    · exact mem_cons_of_mem _ (mem_cons_of_mem _ hrest)

theorem le_greatest {e m : Int} {marks : List Int} (h : m ∈ e :: marks) : m ≤ greatest e marks := by
  induction marks generalizing e m with
  | nil =>
    simp only [mem_singleton] at h
    exact le_of_eq h
  | cons first rest ih =>
    simp only [greatest, foldl_cons] at ih ⊢
    rcases mem_cons.mp h with rfl | h
    · exact le_trans (le_max_left m first) (ih mem_cons_self)
    · rcases mem_cons.mp h with rfl | h
      · exact le_trans (le_max_right e m) (ih mem_cons_self)
      · exact ih (mem_cons_of_mem _ h)

mutual

/-- The starts and ends that the rows of a tree record. -/
def Tree.marks : Tree → List Int
  | .leaf .. => []
  | .node _ start _ closing children =>
    start :: (Tree.marksAll children ++ closing.toList.map Closing.offset)

def Tree.marksAll : List Tree → List Int
  | [] => []
  | t :: rest => t.marks ++ Tree.marksAll rest

end

mutual

/-- An error node, a missing or a skipped token lies in the tree. -/
def Tree.faulty : Tree → Bool
  | .leaf tag .. => tag ≠ .tok
  | .node kind _ _ _ children => kind = errorKind || Tree.faultyAll children

def Tree.faultyAll : List Tree → Bool
  | [] => false
  | t :: rest => t.faulty || Tree.faultyAll rest

end

def Tree.isMissing : Tree → Bool
  | .leaf tag .. => tag = .miss
  | .node .. => false

/-- A missing or a skipped token, which belongs in a node. -/
def Tree.Loose : Tree → Prop
  | .leaf tag .. => tag ≠ .tok
  | .node .. => False

instance (t : Tree) : Decidable t.Loose :=
  match t with
  | .leaf tag _ _ _ => inferInstanceAs (Decidable (tag ≠ .tok))
  | .node _ _ _ _ _ => isFalse id

theorem marksAll_append (front back : List Tree) :
    marksAll (front ++ back) = marksAll front ++ marksAll back := by
  induction front with
  | nil => simp [marksAll]
  | cons t rest ih => simp [marksAll, ih]

theorem faultyAll_append (front back : List Tree) :
    faultyAll (front ++ back) = (faultyAll front || faultyAll back) := by
  induction front with
  | nil => simp [faultyAll]
  | cons t rest ih => simp [faultyAll, ih, Bool.or_assoc]

/-- What trees add to the flags of the node around them. -/
def NodeFlags.raised (flags : NodeFlags) (trees : List Tree) : NodeFlags :=
  ⟨flags.error || Tree.faultyAll trees, flags.incomplete || trees.any Tree.isMissing⟩

theorem NodeFlags.raised_append (flags : NodeFlags) (front back : List Tree) :
    flags.raised (front ++ back) = (flags.raised front).raised back := by
  simp [NodeFlags.raised, faultyAll_append, Bool.or_assoc]

/-- What the columns hold for a row. -/
structure Cell where
  finish : Int
  flags : NodeFlags
  next : Nat
deriving DecidableEq, Repr

def Filling.cell (s : Filling) (r : Nat) : Cell := ⟨s.ends r, s.flags r, s.nexts r⟩

def CstStore.cell (cst : CstStore) (r : Nat) : Cell := ⟨cst.ends r, cst.flags r, cst.nexts r⟩

/-- What they have to hold for a node that stands there. -/
def Tree.HasCell (cell : Nat → Cell) (r : Nat) : Tree → Prop
  | .leaf .. => True
  | .node kind start alt closing children => cell r =
      ⟨greatest start (Tree.marksAll children ++ closing.toList.map Closing.offset),
        NodeFlags.raised ⟨kind = errorKind, false⟩ children,
        r + (Tree.node kind start alt closing children).size⟩

namespace Filling

theorem pop_stack (s : Filling) (node next : Nat) (rest : List Nat) :
    (s.pop node next rest).stack = rest := by
  cases rest with
  | nil => rfl
  | cons parent rest => rfl

variable {s : Filling} {rest : List Nat}

theorem pop_cell_node {node next : Nat} (h : node ∉ rest.head?) :
    (s.pop node next rest).cell node = ⟨s.ends node, s.flags node, next⟩ := by
  cases rest with
  | nil => simp [pop, bubble, cell]
  | cons parent rest =>
    have hne : node ≠ parent := fun heq => h (by simp [heq])
    simp [pop, bubble, cell, hne]

theorem pop_cell_parent {node next parent : Nat} (h : parent ∈ rest.head?) (hne : parent ≠ node) :
    (s.pop node next rest).cell parent = ⟨max (s.ends parent) (s.ends node),
        ⟨(s.flags parent).error || (s.flags node).error, (s.flags parent).incomplete⟩,
        s.nexts parent⟩ := by
  cases rest with
  | nil => simp at h
  | cons first rest =>
    simp only [List.head?_cons, mem_def, Option.some.injEq] at h
    subst h
    simp [pop, bubble, cell, hne]

theorem pop_cell_other {node next i : Nat} (hparent : i ∉ rest.head?) (hne : i ≠ node) :
    (s.pop node next rest).cell i = s.cell i := by
  cases rest with
  | nil => simp [pop, bubble, cell, hne]
  | cons parent rest =>
    have hother : i ≠ parent := fun heq => hparent (by simp [heq])
    simp [pop, bubble, cell, hne, hother]

/-- What the pass over a run of trees, laid out from a row on, does to the columns: the node
around them is raised, and nothing else outside of the run changes. -/
structure Took (r : Nat) (trees : List Tree) (s s' : Filling) : Prop where
  stack : s'.stack = s.stack
  laid : Tree.EverywhereAll (Tree.HasCell s'.cell) r trees
  around : ∀ p ∈ s.stack.head?, s'.cell p =
    ⟨greatest (s.ends p) (Tree.marksAll trees), (s.flags p).raised trees, s.nexts p⟩
  others : ∀ i, i < r ∨ r + (Tree.rowsAll trees).length ≤ i → i ∉ s.stack.head? →
    s'.cell i = s.cell i

theorem Took.nil (r : Nat) (s : Filling) : Took r [] s s where
  stack := rfl
  laid := by simp [Tree.EverywhereAll]
  around := by
    intro p _
    simp [cell, greatest, marksAll, NodeFlags.raised, faultyAll]
  others := fun _ _ _ => rfl

theorem Took.append {r : Nat} {front back : List Tree} {s s' s'' : Filling}
    (hbelow : ∀ p ∈ s.stack.head?, p < r) (hfront : Took r front s s')
    (hback : Took (r + (rowsAll front).length) back s' s'') :
    Took r (front ++ back) s s'' := by
  have hkept : ∀ i, r ≤ i → i < r + (rowsAll front).length → s''.cell i = s'.cell i := by
    intro i hle hlt
    apply hback.others i (.inl hlt)
    rw [hfront.stack]
    intro hmem
    have := hbelow i hmem
    omega
  refine ⟨hback.stack.trans hfront.stack, ?_, ?_, ?_⟩
  · rw [everywhereAll_append]
    refine ⟨hfront.laid.imp ?_, hback.laid⟩
    intro i t hle hlt hcell
    cases t with
    | leaf => trivial
    | node =>
      simp only [Tree.HasCell] at hcell ⊢
      rw [hkept i hle hlt, hcell]
  · intro p hp
    have hfirst := hfront.around p hp
    have hsecond := hback.around p (by rw [hfront.stack]; exact hp)
    simp only [cell, Cell.mk.injEq] at hfirst
    rw [hsecond, hfirst.1, hfirst.2.1, hfirst.2.2, marksAll_append, greatest_append,
      NodeFlags.raised_append]
  · intro i hi hmem
    rw [rowsAll_append, length_append] at hi
    rw [hback.others i (by omega) (by rw [hfront.stack]; exact hmem),
      hfront.others i (by omega) hmem]

/-- The columns after the row that opens a node. -/
def opened (s : Filling) (r : Nat) (kind start : Int) : Filling :=
  { s with
      flags := if kind = errorKind then Function.update s.flags r ⟨true, false⟩ else s.flags
      ends := Function.update s.ends r start
      stack := r :: s.stack }

variable {r : Nat}

theorem opened_cell (h : s.flags r = ⟨false, false⟩) (kind start : Int) :
    (s.opened r kind start).cell r = ⟨start, ⟨kind = errorKind, false⟩, s.nexts r⟩ := by
  by_cases hkind : kind = errorKind
  · simp [opened, cell, hkind]
  · simp [opened, cell, hkind, h]

theorem opened_cell_other {s : Filling} {r i : Nat} (h : i ≠ r) (kind start : Int) :
    (s.opened r kind start).cell i = s.cell i := by
  by_cases hkind : kind = errorKind
  · simp [opened, cell, hkind, h]
  · simp [opened, cell, hkind, h]

/-- The columns when a node is taken off, closed by a row or not. -/
def closed (s : Filling) (r next : Nat) (closing : Option Closing) (rest : List Nat) : Filling :=
  pop { s with
      ends := Function.update s.ends r
        (greatest (s.ends r) (closing.toList.map Closing.offset)) } r next rest

variable {s s' : Filling}

theorem Took.node {children : List Tree} {kind start : Int}
    (hbelow : ∀ p ∈ s.stack.head?, p < r) (hfresh : s.flags r = ⟨false, false⟩)
    (h : Took (r + 1) children (s.opened r kind start) s') (alt : Int) (closing : Option Closing) :
    Took r [.node kind start alt closing children] s
      (s'.closed r (r + (Tree.node kind start alt closing children).size) closing s.stack) := by
  have hnotr : r ∉ s.stack.head? := by
    intro hmem
    exact absurd (hbelow r hmem) (Nat.lt_irrefl r)
  have hr : s'.cell r = ⟨greatest start (Tree.marksAll children),
      NodeFlags.raised ⟨kind = errorKind, false⟩ children, s.nexts r⟩ := by
    have haround := h.around r (by simp [opened])
    have hcell := opened_cell hfresh kind start
    simp only [cell, Cell.mk.injEq] at hcell
    rw [haround, hcell.1, hcell.2.1, hcell.2.2]
  have houter : ∀ p ∈ s.stack.head?, s'.cell p = s.cell p := by
    intro p hp
    have hlt := hbelow p hp
    rw [h.others p (.inl (by omega)) (by simp [opened]; omega)]
    exact opened_cell_other (by omega) kind start
  simp only [cell, Cell.mk.injEq] at hr
  have hsize : (Tree.rowsAll [Tree.node kind start alt closing children]).length =
      (Tree.node kind start alt closing children).size := by
    simp [Tree.rowsAll, Tree.size]
  have hinside : r + 1 + (Tree.rowsAll children).length ≤
      r + (Tree.node kind start alt closing children).size := by
    simp only [Tree.size, Tree.rows, length_cons, length_append]
    omega
  refine ⟨pop_stack _ _ _ _, ?_, ?_, ?_⟩
  · simp only [Tree.EverywhereAll, Tree.Everywhere, and_true]
    refine ⟨?_, h.laid.imp ?_⟩
    · simp only [Tree.HasCell]
      rw [closed, pop_cell_node hnotr]
      simp only [Function.update_self, hr.1, hr.2.1, greatest_append]
    · intro i t hle hlt hcell
      cases t with
      | leaf => trivial
      | node =>
        simp only [Tree.HasCell] at hcell ⊢
        rw [closed, pop_cell_other ?_ (by omega), ← hcell]
        · have hne : i ≠ r := by omega
          simp [cell, hne]
        · intro hmem
          have := hbelow i hmem
          omega
  · intro p hp
    have hlt := hbelow p hp
    have hne : p ≠ r := by omega
    have hcell := houter p hp
    simp only [cell, Cell.mk.injEq] at hcell
    rw [closed, pop_cell_parent hp hne]
    simp only [Function.update_self, Function.update_of_ne hne, hcell.1, hcell.2.1, hcell.2.2,
      hr.1, hr.2.1, ← greatest_append, ← greatest_max, Tree.marksAll, Tree.marks,
      append_nil, NodeFlags.raised, Tree.faultyAll, Tree.faulty, Bool.or_false,
      any_cons, any_nil, Tree.isMissing]
    rfl
  · intro i hi hmem
    rw [hsize] at hi
    have hpos := Tree.size_pos (.node kind start alt closing children)
    have hne : i ≠ r := by omega
    have hopened : i ∉ (s.opened r kind start).stack.head? := by
      simp [opened]
      omega
    have hsame : s'.cell i = s.cell i := by
      rw [h.others i (by omega) hopened]
      exact opened_cell_other hne kind start
    rw [closed, pop_cell_other hmem hne, ← hsame]
    simp [cell, hne]

theorem fill_append (r : Nat) (front back : List Row) (s : Filling) :
    fill r (front ++ back) s = (fill r front s).bind (fill (r + front.length) back) := by
  induction front generalizing r s with
  | nil => simp [fill]
  | cons found rest ih =>
    simp only [cons_append, fill, bind_assoc, length_cons]
    congr 1
    funext s
    rw [ih, Nat.add_assoc, Nat.add_comm 1]

variable {tag : LeafTag} {id offset alt : Int}

theorem row_leaf (h : s.stack = [] → ¬ (leaf tag id offset alt).Loose) :
    ∃ s', s.row r ⟨tag.event, id, offset, alt⟩ = some s' ∧
      Took r [.leaf tag id offset alt] s s' := by
  cases tag with
  | tok =>
    refine ⟨s, rfl, ?_⟩
    constructor <;>
      simp [Tree.EverywhereAll, Tree.Everywhere, Tree.HasCell, cell, greatest, marksAll,
        marks, NodeFlags.raised, faultyAll, faulty, isMissing]
  | miss =>
    cases hstack : s.stack with
    | nil => exact absurd (fun heq : LeafTag.miss = .tok => by cases heq) (h hstack)
    | cons node rest =>
      refine ⟨{ s with flags := Function.update s.flags node ⟨true, true⟩ }, ?_, ?_⟩
      · simp [row, LeafTag.event, hstack]
      · constructor
        · rfl
        · simp [Tree.EverywhereAll, Tree.Everywhere, Tree.HasCell]
        · intro p hp
          rw [hstack, List.head?_cons, mem_def, Option.some.injEq] at hp
          subst hp
          simp [cell, greatest, marksAll, marks, NodeFlags.raised, faultyAll,
            faulty, isMissing]
        · intro i _ hmem
          have hne : i ≠ node := fun heq => hmem (by simp [hstack, heq])
          simp [cell, hne]
  | skip =>
    cases hstack : s.stack with
    | nil => exact absurd (fun heq : LeafTag.skip = .tok => by cases heq) (h hstack)
    | cons node rest =>
      refine ⟨{ s with
        flags := Function.update s.flags node { s.flags node with error := true } }, ?_, ?_⟩
      · simp [row, LeafTag.event, hstack]
      · constructor
        · rfl
        · simp [Tree.EverywhereAll, Tree.Everywhere, Tree.HasCell]
        · intro p hp
          rw [hstack, List.head?_cons, mem_def, Option.some.injEq] at hp
          subst hp
          simp [cell, greatest, marksAll, marks, NodeFlags.raised, faultyAll,
            faulty, isMissing]
        · intro i _ hmem
          have hne : i ≠ node := fun heq => hmem (by simp [hstack, heq])
          simp [cell, hne]

/-- A row outside of every node cannot be missing or skipped. -/
theorem row_loose (hstack : s.stack = []) (h : (leaf tag id offset alt).Loose) :
    s.row r ⟨tag.event, id, offset, alt⟩ = none := by
  cases tag with
  | tok => exact absurd rfl h
  | miss => simp [row, LeafTag.event, hstack]
  | skip => simp [row, LeafTag.event, hstack]

theorem row_opens (s : Filling) (r : Nat) (kind start alt : Int) :
    s.row r ⟨.opens, kind, start, alt⟩ = some (s.opened r kind start) := rfl

theorem row_closes {r node : Nat} (closing : Closing) (hstack : s.stack = node :: rest) :
    s.row r closing.row = some (s.closed node (r + 1) (some closing) rest) := by
  simp [row, Closing.row, hstack, closed, greatest]

/-- The flags past a row are as they were. -/
def Fresh (s : Filling) (r : Nat) : Prop := ∀ i, r ≤ i → s.flags i = ⟨false, false⟩

theorem Fresh.opened (h : s.Fresh r) (kind start : Int) :
    (s.opened r kind start).Fresh (r + 1) := by
  intro i hi
  have hcell := @opened_cell_other s r i (by omega) kind start
  simp only [cell, Cell.mk.injEq] at hcell
  rw [hcell.2.1]
  exact h i (by omega)

variable {trees : List Tree}

theorem Fresh.took (h : s.Fresh r)
    (hbelow : ∀ p ∈ s.stack.head?, p < r) (htook : Took r trees s s') :
    s'.Fresh (r + (rowsAll trees).length) := by
  intro i hi
  have hcell := htook.others i (.inr hi) (fun hmem => by have := hbelow i hmem; omega)
  simp only [cell, Cell.mk.injEq] at hcell
  rw [hcell.2.1]
  exact h i (by omega)

theorem Took.below (hbelow : ∀ p ∈ s.stack.head?, p < r) (htook : Took r trees s s') :
    ∀ p ∈ s'.stack.head?, p < r + (rowsAll trees).length := by
  intro p hp
  rw [htook.stack] at hp
  exact Nat.lt_add_right _ (hbelow p hp)

mutual

/-- The pass over a closed tree takes it. -/
theorem fill_tree (t : Tree) (hclosed : t.Closed) (r : Nat) (s : Filling)
    (hbelow : ∀ p ∈ s.stack.head?, p < r) (hfresh : s.Fresh r)
    (hin : s.stack = [] → ¬ t.Loose) :
    ∃ s', fill r t.rows s = some s' ∧ Took r [t] s s' := by
  cases t with
  | leaf tag id offset alt =>
    obtain ⟨s', hrow, htook⟩ := row_leaf (r := r) hin
    refine ⟨s', ?_, htook⟩
    simp only [rows, fill, hrow]
    rfl
  | node kind start alt closing children =>
    simp only [Tree.Closed] at hclosed
    obtain ⟨found, hfound⟩ := isSome_iff_exists.mp hclosed.1
    subst hfound
    obtain ⟨s', hfill, htook⟩ := fill_forest children hclosed.2 (r + 1) (s.opened r kind start)
      (by simp [opened]) (hfresh.opened kind start) (by simp [opened])
    have hstack : s'.stack = r :: s.stack := htook.stack
    refine ⟨_, ?_, htook.node hbelow (hfresh r (Nat.le_refl r)) alt (some found)⟩
    simp only [rows, fill, row_opens, bind_some, fill_append, hfill,
      toList_some, map_cons, map_nil, row_closes found hstack]
    congr 2
    simp only [size, rows, length_cons, length_append, map_cons,
      toList_some, map_nil, length_nil]
    omega

theorem fill_forest (trees : List Tree) (hclosed : Tree.ClosedAll trees) (r : Nat) (s : Filling)
    (hbelow : ∀ p ∈ s.stack.head?, p < r) (hfresh : s.Fresh r)
    (hin : s.stack = [] → ∀ t ∈ trees, ¬ t.Loose) :
    ∃ s', fill r (rowsAll trees) s = some s' ∧ Took r trees s s' := by
  cases trees with
  | nil => exact ⟨s, rfl, Took.nil r s⟩
  | cons t rest =>
    simp only [Tree.ClosedAll] at hclosed
    obtain ⟨s', hfill, htook⟩ := fill_tree t hclosed.1 r s hbelow hfresh
      (fun hstack => hin hstack t mem_cons_self)
    obtain ⟨s'', hfill', htook'⟩ := fill_forest rest hclosed.2 _ s' (htook.below hbelow)
      (hfresh.took hbelow htook)
      (fun hstack u hu => hin (htook.stack ▸ hstack) u (mem_cons_of_mem _ hu))
    have hlength : (rowsAll [t]).length = t.rows.length := by simp [rowsAll]
    refine ⟨s'', ?_, Took.append hbelow htook htook'⟩
    simp only [rowsAll, fill_append, hfill, bind_some]
    rw [← hlength]
    exact hfill'

end

theorem closeAll_append (rows front back : Nat) (s : Filling) :
    closeAll rows (front + back) s = closeAll rows back (closeAll rows front s) := by
  induction front generalizing s with
  | zero => rw [Nat.zero_add]; rfl
  | succ front ih => rw [Nat.succ_add]; exact ih _

theorem closeTop_closed {node : Nat} (hstack : s.stack = node :: rest) (rows : Nat) :
    s.closeTop rows = s.closed node rows none rest := by
  simp only [closeTop, hstack, closed, greatest, toList_none, map_nil,
    foldl_nil, Function.update_eq_self]
  rfl

variable {openRows : List Nat}

/-- The pass over a forest leaves its open nodes on the stack; closed, it has taken the forest. -/
theorem fill_growing (h : Tree.Growing r trees openRows) (s : Filling)
    (hbelow : ∀ p ∈ s.stack.head?, p < r) (hfresh : s.Fresh r)
    (hin : s.stack = [] → ∀ t ∈ trees, ¬ t.Loose) :
    ∃ s', fill r (rowsAll trees) s = some s' ∧
      s'.stack.length = openRows.length + s.stack.length ∧
      Took r trees s (closeAll (r + (rowsAll trees).length) openRows.length s') := by
  induction h generalizing s with
  | @closed r trees h =>
    obtain ⟨s', hfill, htook⟩ := fill_forest trees h r s hbelow hfresh hin
    refine ⟨s', hfill, ?_, htook⟩
    rw [htook.stack, length_nil, Nat.zero_add]
  | @standing r trees inner openRows kind start alt h hinner ih =>
    obtain ⟨s', hfill, htook⟩ := fill_forest trees h r s hbelow hfresh
      (fun hstack t ht => hin hstack t (mem_append_left _ ht))
    have hbelow' := htook.below hbelow
    have hfresh' := hfresh.took hbelow htook
    obtain ⟨s'', hfill', hlength, htook'⟩ :=
      ih (s'.opened (r + (rowsAll trees).length) kind start) (by simp [opened])
        (hfresh'.opened kind start) (by simp [opened])
    have hnode := htook'.node hbelow' (hfresh' _ (Nat.le_refl _)) alt none
    refine ⟨s'', ?_, ?_, ?_⟩
    · simp only [rowsAll_append, rowsAll, rows, toList_none,
        map_nil, append_nil, fill_append, hfill, bind_some, fill, row_opens]
      exact hfill'
    · rw [hlength]
      simp only [opened, length_cons, htook.stack]
      omega
    · refine Took.append hbelow htook ?_
      have hsize : (node kind start alt none inner).size =
          1 + (rowsAll inner).length := by
        simp [size, rows]
        omega
      have hrows : r + (rowsAll (trees ++ [.node kind start alt none inner])).length =
          r + (rowsAll trees).length + 1 + (rowsAll inner).length := by
        simp [rowsAll_append, rowsAll, rows]
        omega
      rw [hrows, length_cons, closeAll_append]
      simp only [closeAll]
      rw [closeTop_closed htook'.stack]
      rw [hsize, ← Nat.add_assoc] at hnode
      exact hnode

theorem fill_loose (h : Tree.Growing r trees openRows) (hstack : s.stack = [])
    (hfresh : s.Fresh r) {t : Tree} (ht : t ∈ trees) (hloose : t.Loose) :
    fill r (rowsAll trees) s = none := by
  have hclosedCase : ∀ (trees : List Tree) (r : Nat) (s : Filling), Tree.ClosedAll trees →
      s.stack = [] → s.Fresh r → t ∈ trees → fill r (rowsAll trees) s = none := by
    intro trees
    induction trees with
    | nil => intro r s _ _ _ ht; simp at ht
    | cons first rest ih =>
      intro r s hclosed hstack hfresh ht
      have hbelow : ∀ p ∈ s.stack.head?, p < r := by simp [hstack]
      simp only [Tree.ClosedAll] at hclosed
      by_cases hfirst : first.Loose
      · cases first with
        | leaf tag id offset alt =>
          simp [rowsAll, rows, fill, row_loose hstack hfirst]
        | node => exact absurd hfirst id
      · obtain ⟨s', hfill, htook⟩ := fill_tree first hclosed.1 r s hbelow hfresh
          (fun _ => hfirst)
        have hlength : (rowsAll [first]).length = first.rows.length := by
          simp [rowsAll]
        have hin : t ∈ rest := by
          rcases mem_cons.mp ht with rfl | hin
          · exact absurd hloose hfirst
          · exact hin
        have hrest := ih _ s' hclosed.2 (htook.stack.trans hstack) (hfresh.took hbelow htook) hin
        rw [hlength] at hrest
        simp only [rowsAll, fill_append, hfill, bind_some, hrest]
  cases h with
  | closed h => exact hclosedCase trees r s h hstack hfresh ht
  | @standing _ front inner openRows kind start alt h hinner =>
    have hin : t ∈ front := by
      rcases mem_append.mp ht with hin | hin
      · exact hin
      · rw [mem_singleton.mp hin] at hloose
        exact absurd hloose id
    rw [rowsAll_append, fill_append, hclosedCase front r s h hstack hfresh hin]
    rfl

end Filling

end Wado.Gale
