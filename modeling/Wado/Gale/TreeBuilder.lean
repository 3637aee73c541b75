/-
The builder of concrete syntax trees: rows of open, close and leaf events, and the columns that
one pass over them computes.
-/
import Mathlib.Data.List.Basic
import Mathlib.Order.Lattice
import Mathlib.Tactic.Common

namespace Wado.Gale

inductive EventTag
  | opens
  | closes
  | tok
  | miss
  | skip
deriving DecidableEq, Repr

/-- The kind of an error node. -/
def errorKind : Int := -1

/-- One row of the columns that a builder keeps in lockstep. -/
structure Row where
  tag : EventTag
  id : Int
  offset : Int
  alt : Int
deriving DecidableEq, Repr

/-- `none` stands for a remembered row that is not set. -/
structure TreeBuilder where
  rows : List Row
  openRows : List Nat
  lastFinished : Option Nat
  errorRow : Option Nat
deriving DecidableEq, Repr

namespace TreeBuilder

def empty : TreeBuilder := ⟨[], [], none, none⟩

def pushRow (b : TreeBuilder) (tag : EventTag) (id offset : Int) : TreeBuilder :=
  { b with rows := b.rows ++ [⟨tag, id, offset, -1⟩] }

def startNode (b : TreeBuilder) (kind start : Int) : TreeBuilder :=
  { b.pushRow .opens kind start with openRows := b.openRows ++ [b.rows.length] }

def startError (b : TreeBuilder) (start : Int) : TreeBuilder := b.startNode errorKind start

/-- Without an open node it panics. -/
def setAlt (b : TreeBuilder) (alt : Int) : Option TreeBuilder := do
  let row ← b.openRows.getLast?
  return { b with rows := b.rows.modify row fun found => { found with alt := alt } }

def checkpoint (b : TreeBuilder) : Nat := b.rows.length

/-- A remembered row after one row is put in before it. -/
def shifted (checkpoint : Nat) (row : Nat) : Nat := if checkpoint ≤ row then row + 1 else row

/-- A node wraps only rows finished before it, or the contract fails. -/
def startNodeAt (b : TreeBuilder) (checkpoint : Nat) (kind start : Int) : Option TreeBuilder :=
  if (∀ row ∈ b.openRows.getLast?, row < checkpoint) ∧ checkpoint ≤ b.rows.length then
    some {
      rows := b.rows.take checkpoint ++ ⟨.opens, kind, start, -1⟩ :: b.rows.drop checkpoint
      openRows := b.openRows ++ [checkpoint]
      lastFinished := b.lastFinished.map (shifted checkpoint)
      errorRow := b.errorRow.map (shifted checkpoint) }
  else none

/-- Drop the marks at the end of a stack that are at or past a row. -/
def dropFrom (checkpoint : Nat) (openRows : List Nat) : List Nat :=
  (openRows.reverse.dropWhile (checkpoint ≤ ·)).reverse

def truncate (b : TreeBuilder) (checkpoint : Nat) : TreeBuilder where
  rows := b.rows.take checkpoint
  openRows := dropFrom checkpoint b.openRows
  lastFinished := b.lastFinished.filter (· < checkpoint)
  errorRow := b.errorRow.map (min checkpoint)

def finishNode (b : TreeBuilder) (finish : Int) : Option TreeBuilder := do
  let row ← b.openRows.getLast?
  let found ← b.rows[row]?
  return { b.pushRow .closes found.id finish with
    lastFinished := some row
    openRows := b.openRows.dropLast }

/-- Finish the nodes opened after a row, of which there are at most `nodes`. -/
def finishPast (row : Nat) (finish : Int) : Nat → TreeBuilder → Option TreeBuilder
  | 0, b => some b
  | nodes + 1, b =>
    if ∃ innermost ∈ b.openRows.getLast?, row < innermost then
      (b.finishNode finish).bind (finishPast row finish nodes)
    else some b

/-- A node no longer open is the last one closed, or the assertion fails. -/
def resumeNode (b : TreeBuilder) (row : Nat) (finish : Int) : Option TreeBuilder := do
  let b ← finishPast row finish b.openRows.length b
  if b.openRows.getLast? = some row then return b
  if b.lastFinished = some row ∧ (b.rows.getLast?.map Row.tag) = some .closes then
    let b := b.truncate (b.rows.length - 1)
    return { b with openRows := b.openRows ++ [row] }
  else none

def markError (b : TreeBuilder) : TreeBuilder := { b with errorRow := some b.rows.length }

def token (b : TreeBuilder) (idx : Int) : TreeBuilder := b.pushRow .tok idx 0

def missing (b : TreeBuilder) (synIdx : Int) : TreeBuilder := b.pushRow .miss synIdx 0

def skip (b : TreeBuilder) (idx : Int) : TreeBuilder := b.pushRow .skip idx 0

/-- An operation of the builder. -/
inductive Op
  | startNode (kind start : Int)
  | startError (start : Int)
  | setAlt (alt : Int)
  | startNodeAt (checkpoint : Nat) (kind start : Int)
  | truncate (checkpoint : Nat)
  | finishNode (finish : Int)
  | resumeNode (row : Nat) (finish : Int)
  | markError
  | token (idx : Int)
  | missing (synIdx : Int)
  | skip (idx : Int)
deriving DecidableEq, Repr

def step (b : TreeBuilder) : Op → Option TreeBuilder
  | .startNode kind start => some (b.startNode kind start)
  | .startError start => some (b.startError start)
  | .setAlt alt => b.setAlt alt
  | .startNodeAt checkpoint kind start => b.startNodeAt checkpoint kind start
  | .truncate checkpoint => some (b.truncate checkpoint)
  | .finishNode finish => b.finishNode finish
  | .resumeNode row finish => b.resumeNode row finish
  | .markError => some b.markError
  | .token idx => some (b.token idx)
  | .missing synIdx => some (b.missing synIdx)
  | .skip idx => some (b.skip idx)

end TreeBuilder

/-- The flags of a node. -/
structure NodeFlags where
  error : Bool
  incomplete : Bool
deriving DecidableEq, Repr

/-- The columns of a tree, which hold something for each of its rows. -/
structure CstStore where
  rows : List Row
  ends : Nat → Int
  flags : Nat → NodeFlags
  nexts : Nat → Nat

namespace CstStore

/-- The row, unless it is past the last or closes a node. -/
def childAt (cst : CstStore) (row : Nat) : Option Nat :=
  match cst.rows[row]? with
  | some found => if found.tag = .closes then none else some row
  | none => none

def firstChild (cst : CstStore) (row : Nat) : Option Nat := cst.childAt (row + 1)

def nextSibling (cst : CstStore) (child : Nat) : Option Nat :=
  if (cst.rows[child]?.map Row.tag) = some .opens then cst.childAt (cst.nexts child)
  else cst.childAt (child + 1)

/-- A row and the siblings after it, at most so many. -/
def siblings (cst : CstStore) : Nat → Option Nat → List Nat
  | 0, _ => []
  | _, none => []
  | rows + 1, some child => child :: siblings cst rows (cst.nextSibling child)

def children (cst : CstStore) (row : Nat) : List Nat :=
  cst.siblings cst.rows.length (cst.firstChild row)

end CstStore

/-- The columns as the pass over the rows fills them, with the nodes that stand open. -/
structure Filling where
  ends : Nat → Int
  flags : Nat → NodeFlags
  nexts : Nat → Nat
  /-- The innermost first. -/
  stack : List Nat

namespace Filling

def start : Filling := ⟨fun _ => 0, fun _ => ⟨false, false⟩, fun _ => 0, []⟩

/-- Give a node's end and error to the node around it. -/
def bubble (s : Filling) (child : Nat) : Filling :=
  match s.stack with
  | [] => s
  | parent :: _ => { s with
      ends := Function.update s.ends parent (max (s.ends parent) (s.ends child))
      flags := Function.update s.flags parent
        { s.flags parent with error := (s.flags parent).error || (s.flags child).error } }

/-- Take the innermost node off, whose next row is `next`. -/
def pop (s : Filling) (node next : Nat) (rest : List Nat) : Filling :=
  bubble { s with nexts := Function.update s.nexts node next, stack := rest } node

/-- One row of the pass: a close, missing or skipped row outside of every node panics. -/
def row (s : Filling) (r : Nat) (found : Row) : Option Filling :=
  match found.tag with
  | .opens => some { s with
      flags := if found.id = errorKind then Function.update s.flags r ⟨true, false⟩ else s.flags
      ends := Function.update s.ends r found.offset
      stack := r :: s.stack }
  | .miss => match s.stack with
      | [] => none
      | node :: _ => some { s with flags := Function.update s.flags node ⟨true, true⟩ }
  | .skip => match s.stack with
      | [] => none
      | node :: _ => some { s with
          flags := Function.update s.flags node { s.flags node with error := true } }
  | .closes => match s.stack with
      | [] => none
      | node :: rest => some <|
          pop { s with ends := Function.update s.ends node (max (s.ends node) found.offset) }
            node (r + 1) rest
  | .tok => some s

def fill : Nat → List Row → Filling → Option Filling
  | _, [], s => some s
  | r, found :: rest, s => (s.row r found).bind (fill (r + 1) rest)

/-- Close the innermost node after the last row. -/
def closeTop (rows : Nat) (s : Filling) : Filling :=
  match s.stack with
  | [] => s
  | node :: rest => s.pop node rows rest

/-- Close so many of the nodes that stand open. -/
def closeAll (rows : Nat) : Nat → Filling → Filling
  | 0, s => s
  | nodes + 1, s => closeAll rows nodes (s.closeTop rows)

end Filling

def TreeBuilder.finish (b : TreeBuilder) : Option CstStore := do
  let s ← Filling.fill 0 b.rows .start
  let s := s.closeAll b.rows.length s.stack.length
  return ⟨b.rows, s.ends, s.flags, s.nexts⟩

end Wado.Gale
