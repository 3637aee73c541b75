/-
The trees that runs of a builder yield: the rows are those of a forest, the leaves keep their
order, and the finished columns hold what the forest's nodes call for.
-/
import Wado.Gale.TreeRuns

namespace Wado.Gale

open Nesting List Option Tree

/-- The tokens among rows, with what marks each. -/
def leaves (rows : List Row) : List (EventTag × Int) :=
  (rows.map fun row => (row.tag, row.id)).filter fun leaf => leaf.1.bracket = .plain

theorem leaves_append (front back : List Row) :
    leaves (front ++ back) = leaves front ++ leaves back := by
  simp [leaves]

/-- The tokens that an operation adds. -/
def TreeBuilder.Op.added : TreeBuilder.Op → List (EventTag × Int)
  | .token idx => [(.tok, idx)]
  | .missing synIdx => [(.miss, synIdx)]
  | .skip idx => [(.skip, idx)]
  | _ => []

namespace TreeBuilder

variable {b b' : TreeBuilder}

variable {finish : Int}

theorem finishNode_leaves (hb : b.finishNode finish = some b') :
    leaves b'.rows = leaves b.rows := by
  simp only [finishNode, bind_eq_bind, bind_eq_some_iff] at hb
  obtain ⟨_, _, found, _, hb⟩ := hb
  cases hb
  simp [pushRow, leaves, EventTag.bracket]

theorem finishPast_leaves {row nodes : Nat}
    (hb : finishPast row finish nodes b = some b') : leaves b'.rows = leaves b.rows := by
  induction nodes generalizing b with
  | zero => cases hb; rfl
  | succ nodes ih =>
    simp only [finishPast] at hb
    split at hb
    · simp only [bind_eq_some_iff] at hb
      obtain ⟨after, hafter, hrest⟩ := hb
      rw [ih hrest, finishNode_leaves hafter]
    · cases hb; rfl

theorem resumeNode_leaves {row : Nat} (hb : b.resumeNode row finish = some b') :
    leaves b'.rows = leaves b.rows := by
  simp only [resumeNode, bind_eq_bind, bind_eq_some_iff] at hb
  obtain ⟨after, hafter, hb⟩ := hb
  rw [← finishPast_leaves hafter]
  split at hb
  · cases hb; rfl
  · split at hb
    · rename_i hlast
      cases hb
      obtain ⟨found, hfound, htag⟩ := map_eq_some_iff.mp hlast.2
      obtain ⟨front, hfront⟩ := List.getLast?_eq_some_iff.mp hfound
      have htake : after.rows.take (after.rows.length - 1) = front := by
        rw [hfront, length_append, length_singleton, Nat.add_sub_cancel, take_left]
      simp only [truncate, htake]
      rw [hfront, leaves_append]
      simp [leaves, htag, EventTag.bracket]
    · cases hb

/-- A step adds the tokens of its operation after those held; only truncation drops any. -/
theorem step_leaves {op : Op} (hb : b.step op = some b') :
    (leaves b'.rows).Sublist (leaves b.rows ++ op.added) ∧
      ((∀ cp, op ≠ .truncate cp) → leaves b'.rows = leaves b.rows ++ op.added) := by
  have hsame : leaves b'.rows = leaves b.rows ++ op.added →
      (leaves b'.rows).Sublist (leaves b.rows ++ op.added) ∧
        ((∀ cp, op ≠ .truncate cp) → leaves b'.rows = leaves b.rows ++ op.added) :=
    fun heq => ⟨heq ▸ List.Sublist.refl _, fun _ => heq⟩
  cases op with
  | startNode kind start =>
    cases hb
    exact hsame (by simp [startNode, pushRow, leaves, EventTag.bracket, Op.added])
  | startError start =>
    cases hb
    exact hsame (by simp [startError, startNode, pushRow, leaves, EventTag.bracket, Op.added])
  | setAlt alt =>
    apply hsame
    simp only [step, setAlt, bind_eq_bind, bind_eq_some_iff] at hb
    obtain ⟨row, _, hb⟩ := hb
    cases hb
    simp only [Op.added, append_nil, leaves]
    congr 1
    apply map_modify_same
    intro found
    rfl
  | startNodeAt cp kind start =>
    apply hsame
    simp only [step, startNodeAt] at hb
    split at hb
    · cases hb
      have hsplit : leaves b.rows = leaves (b.rows.take cp) ++ leaves (b.rows.drop cp) := by
        rw [← leaves_append, take_append_drop]
      rw [hsplit, leaves_append]
      simp [leaves, EventTag.bracket, Op.added]
    · cases hb
  | truncate cp =>
    cases hb
    refine ⟨?_, fun h => absurd rfl (h cp)⟩
    simp only [Op.added, append_nil, truncate, leaves]
    exact ((take_sublist cp b.rows).map _).filter _
  | finishNode finish => exact hsame (by simp [finishNode_leaves hb, Op.added])
  | resumeNode row finish => exact hsame (by simp [resumeNode_leaves hb, Op.added])
  | markError =>
    cases hb
    exact hsame (by simp [markError, Op.added])
  | token idx =>
    cases hb
    exact hsame (by simp [token, pushRow, leaves, EventTag.bracket, Op.added])
  | missing synIdx =>
    cases hb
    exact hsame (by simp [missing, pushRow, leaves, EventTag.bracket, Op.added])
  | skip idx =>
    cases hb
    exact hsame (by simp [skip, pushRow, leaves, EventTag.bracket, Op.added])

/-- A checkpoint given to an operation stands: no row from it on closes a node from before. -/
def Allowed (b : TreeBuilder) : Op → Prop
  | .truncate cp => Stands (brackets b.rows) cp
  | .startNodeAt cp _ _ => Stands (brackets b.rows) cp
  | _ => True

instance (b : TreeBuilder) (op : Op) : Decidable (b.Allowed op) := by
  unfold Allowed
  split <;> infer_instance

/-- The builder after operations, each of which met its contract. -/
inductive Runs : List Op → TreeBuilder → Prop
  | start : Runs [] empty
  | step {ops : List Op} {b b' : TreeBuilder} {op : Op} (h : Runs ops b) (hallowed : b.Allowed op)
      (hstep : b.step op = some b') : Runs (ops ++ [op]) b'

/-- Some operation resumed a node. -/
def Resumes (ops : List Op) : Prop := ∃ row finish, Op.resumeNode row finish ∈ ops

theorem step_nested {resumed : Prop} {op : Op} (h : Nested resumed b) (hallowed : b.Allowed op)
    (hstep : b.step op = some b') :
    Nested (resumed ∨ ∃ row finish, op = .resumeNode row finish) b' := by
  have hkept : Nested resumed b' →
      Nested (resumed ∨ ∃ row finish, op = .resumeNode row finish) b' :=
    fun hnested => hnested.imp .inl
  cases op with
  | startNode kind start => cases hstep; exact hkept (h.startNode kind start)
  | startError start => cases hstep; exact hkept (h.startNode errorKind start)
  | setAlt alt => exact hkept (h.setAlt hstep)
  | startNodeAt cp kind start => exact hkept (h.startNodeAt hallowed hstep)
  | truncate cp => cases hstep; exact hkept (h.truncate hallowed)
  | finishNode finish => exact hkept (h.finishNode hstep)
  | resumeNode row finish =>
    exact (h.resumeNode hstep).imp fun _ => .inr ⟨row, finish, rfl⟩
  | markError => cases hstep; exact hkept ⟨h.stands, h.finished⟩
  | token idx => cases hstep; exact hkept (h.leaf rfl idx 0)
  | missing synIdx => cases hstep; exact hkept (h.leaf rfl synIdx 0)
  | skip idx => cases hstep; exact hkept (h.leaf rfl idx 0)

variable {ops : List Op}

theorem Runs.nested (h : Runs ops b) : Nested (Resumes ops) b := by
  induction h with
  | start => exact Nested.empty _
  | @step ops b b' op h hallowed hstep ih =>
    refine (step_nested ih hallowed hstep).imp ?_
    rintro (⟨row, finish, hmem⟩ | ⟨row, finish, rfl⟩)
    · exact ⟨row, finish, mem_append_left _ hmem⟩
    · exact ⟨row, finish, mem_append_right _ mem_cons_self⟩

theorem Runs.leaves (h : Runs ops b) :
    (Gale.leaves b.rows).Sublist (ops.flatMap Op.added) ∧
      ((∀ cp, Op.truncate cp ∉ ops) → Gale.leaves b.rows = ops.flatMap Op.added) := by
  induction h with
  | start => exact ⟨List.Sublist.refl _, fun _ => rfl⟩
  | @step ops b b' op h hallowed hstep ih =>
    obtain ⟨hsub, heq⟩ := step_leaves hstep
    rw [flatMap_append, flatMap_singleton]
    refine ⟨hsub.trans (ih.1.append (List.Sublist.refl _)), fun hnone => ?_⟩
    rw [heq, ih.2]
    · exact fun cp hmem => hnone cp (mem_append_left _ hmem)
    · rintro cp rfl
      exact hnone cp (mem_append_right _ mem_cons_self)

end TreeBuilder

/-- What the finished columns hold for a tree at a row. -/
def Tree.Columns (cst : CstStore) (r : Nat) : Tree → Prop
  | .leaf .. => True
  | .node kind start alt closing children =>
    cst.children r = Tree.starts (r + 1) children ∧
    cst.ends r ∈ (Tree.node kind start alt closing children).marks ∧
    (∀ mark ∈ (Tree.node kind start alt closing children).marks, mark ≤ cst.ends r) ∧
    (cst.flags r).error = (Tree.node kind start alt closing children).faulty ∧
    (cst.flags r).incomplete = children.any Tree.isMissing

theorem columns_of_cells {cst : CstStore} {r : Nat} {t : Tree}
    (hlaid : t.LaidOut cst.rows r) (hcells : t.Everywhere (Tree.HasCell cst.cell) r) :
    t.Columns cst r := by
  cases t with
  | leaf => trivial
  | node kind start alt closing children =>
    have hcell := hcells.1
    simp only [Tree.HasCell, CstStore.cell, Cell.mk.injEq] at hcell
    refine ⟨CstStore.children_node hlaid hcells.2, ?_, ?_, ?_, ?_⟩
    · rw [hcell.1, marks]
      exact greatest_mem _ _
    · intro mark hmark
      rw [hcell.1]
      rw [marks] at hmark
      exact le_greatest hmark
    · simp [hcell.2.1, NodeFlags.raised, faulty]
    · simp [hcell.2.1, NodeFlags.raised]

variable {b : TreeBuilder} {trees : List Tree}

/-- Rows that nest, with no loose token outside of every node, are finished. -/
theorem TreeBuilder.finish_growing
    (h : Tree.Growing 0 trees b.openRows) (hrows : rowsAll trees = b.rows)
    (hloose : ∀ t ∈ trees, ¬ t.Loose) :
    ∃ cst, b.finish = some cst ∧ cst.rows = b.rows ∧
      Tree.EverywhereAll (Tree.Columns cst) 0 trees := by
  obtain ⟨s, hfill, hlength, htook⟩ := Filling.fill_growing h .start
    (by simp [Filling.start]) (fun i _ => rfl) (fun _ => hloose)
  rw [Nat.zero_add, hrows] at htook
  rw [hrows] at hfill
  have hopen : s.stack.length = b.openRows.length := hlength
  refine ⟨_, by simp only [TreeBuilder.finish, hfill, bind_eq_bind, bind_some]; rfl,
    rfl, ?_⟩
  rw [hopen]
  apply (h.laidOut hrows.symm).both htook.laid.inside
  intro r t _ _ hlaid hcells
  exact columns_of_cells hlaid hcells

theorem TreeBuilder.finish_loose
    (h : Tree.Growing 0 trees b.openRows) (hrows : rowsAll trees = b.rows)
    (hloose : ∃ t ∈ trees, t.Loose) : b.finish = none := by
  obtain ⟨t, ht, hloose⟩ := hloose
  have hfill := Filling.fill_loose h (s := .start) rfl (fun i _ => rfl) ht hloose
  rw [hrows] at hfill
  simp only [TreeBuilder.finish, hfill]
  rfl

namespace TreeBuilder

/-- The builder yields a well-formed tree: its rows nest, with the rows it holds as open standing
open, the tokens keep their order, the node finished last is an open row that is closed unless it
was resumed, and unless a missing or skipped token stands outside of every node the columns are
finished with each node's children, end and flags. -/
theorem runs_wellFormed {ops : List Op} {b : TreeBuilder} (h : Runs ops b) :
    ∃ trees, Tree.Growing 0 trees b.openRows ∧ Tree.rowsAll trees = b.rows ∧
      ((leaves b.rows).Sublist (ops.flatMap Op.added) ∧
        ((∀ cp, Op.truncate cp ∉ ops) → leaves b.rows = ops.flatMap Op.added)) ∧
      (∀ row ∈ b.lastFinished, (brackets b.rows)[row]? = some .opens ∧
        ((row ∈ b.openRows ∧ Resumes ops) ∨ ∃ close, ClosedBy b.rows row close)) ∧
      ((∃ t ∈ trees, t.Loose) → b.finish = none) ∧
      ((∀ t ∈ trees, ¬ t.Loose) → ∃ cst, b.finish = some cst ∧ cst.rows = b.rows ∧
        Tree.EverywhereAll (Tree.Columns cst) 0 trees) := by
  have hnested := h.nested
  obtain ⟨trees, hgrowing, hrows⟩ := exists_growing hnested.stands
  rw [List.reverse_reverse] at hgrowing
  refine ⟨trees, hgrowing, hrows, h.leaves, ?_, finish_loose hgrowing hrows,
    finish_growing hgrowing hrows⟩
  intro row hrow
  rcases hnested.finished row hrow with hopen | ⟨close, hclose, _⟩
  · exact ⟨hnested.open_opens hopen.1, .inl hopen⟩
  · exact ⟨hclose.opens, .inr ⟨close, hclose⟩⟩

/-- A node around a finished one, with a skipped token after it. -/
theorem runs_wrapped : Runs
    [.startNode 0 0, .token 0, .finishNode 1, .startNodeAt 0 1 0, .skip 1]
    ⟨[⟨.opens, 1, 0, -1⟩, ⟨.opens, 0, 0, -1⟩, ⟨.tok, 0, 0, -1⟩, ⟨.closes, 0, 1, -1⟩,
      ⟨.skip, 1, 0, -1⟩], [0], some 1, none⟩ :=
  have opened := Runs.start.step (show empty.Allowed (.startNode 0 0) from trivial) rfl
  have held := opened.step (show Allowed _ (.token 0) from trivial) rfl
  have finished := held.step (show Allowed _ (.finishNode 1) from trivial) rfl
  have wrapped := finished.step
    (show Allowed _ (.startNodeAt 0 1 0) by unfold Allowed; decide) rfl
  wrapped.step (show Allowed _ (.skip 1) from trivial) rfl

theorem runs_wellFormed_wrapped : ∃ trees cst,
    Tree.rowsAll trees = [⟨.opens, 1, 0, -1⟩, ⟨.opens, 0, 0, -1⟩, ⟨.tok, 0, 0, -1⟩,
      ⟨.closes, 0, 1, -1⟩, ⟨.skip, 1, 0, -1⟩] ∧
    Tree.EverywhereAll (Tree.Columns cst) 0 trees ∧
      cst.children 0 = [1, 4] ∧ cst.ends 0 = 1 ∧ cst.flags 0 = ⟨true, false⟩ := by
  obtain ⟨trees, _, hrows, _, _, hloose, hfinish⟩ := runs_wellFormed runs_wrapped
  have hnone : ∀ t ∈ trees, ¬ t.Loose := by
    intro t ht hin
    exact absurd (congrArg Option.isSome (hloose ⟨t, ht, hin⟩)) (by decide)
  obtain ⟨cst, hcst, _, hcolumns⟩ := hfinish hnone
  cases hcst
  exact ⟨trees, _, hrows, hcolumns, by decide, by decide, by decide⟩

/-- A resumed node is still the one finished last, a start past the recorded ends counts for a
node's end, a missing token outside of every node fails the pass, and the contract alone lets a
node be started inside of a finished one, whose row then stands open. -/
theorem runs_not_asStated : (∃ b, Runs [.startNode 0 0, .finishNode 1, .resumeNode 0 2] b ∧
      b.lastFinished = some 0 ∧ ∀ row ∈ b.rows, row.tag ≠ .closes) ∧
    (∃ b cst, Runs [.startNode 0 3, .finishNode 1] b ∧ b.finish = some cst ∧ cst.ends 0 = 3) ∧
    (∃ b, Runs [.missing 0] b ∧ b.finish = none) ∧
    ∃ b b', Runs [.startNode 0 0, .token 0, .finishNode 1] b ∧
      b.step (.startNodeAt 2 1 0) = some b' ∧ b'.lastFinished = some 0 ∧ b'.openRows = [2] ∧
      standing 0 [] (brackets b'.rows) = some [0] := by
  have opened (start : Int) := Runs.start.step
    (show empty.Allowed (.startNode 0 start) from trivial) rfl
  refine ⟨?_, ?_, ?_, ?_⟩
  · have finished := (opened 0).step (show Allowed _ (.finishNode 1) from trivial) rfl
    refine ⟨_, finished.step (show Allowed _ (.resumeNode 0 2) from trivial) rfl, rfl, ?_⟩
    decide
  · refine ⟨_, _, (opened 3).step (show Allowed _ (.finishNode 1) from trivial) rfl, rfl, ?_⟩
    decide
  · exact ⟨_, Runs.start.step (show empty.Allowed (.missing 0) from trivial) rfl, rfl⟩
  · have held := (opened 0).step (show Allowed _ (.token 0) from trivial) rfl
    exact ⟨_, _, held.step (show Allowed _ (.finishNode 1) from trivial) rfl, rfl, rfl, rfl, rfl⟩

end TreeBuilder

end Wado.Gale
