/-
The memo of a recursive walk that cuts a cycle where it reaches a node it is
still inside, and the walk whose nodes are what it cuts at.
-/
import Mathlib.Data.List.Basic
import Mathlib.Logic.Function.Basic

namespace Wado

/-- An open node: its index among the open ones, and its serial. -/
abbrev OpenNode := Nat × Nat

structure Answer where
  answer : Bool
  restsOn : List OpenNode
deriving DecidableEq, Repr

structure CutMemo (κ : Type) where
  cutAnswer : Bool
  answers : κ → Option Answer
  /-- A serial for each open node, outermost first. -/
  openSerials : List Nat
  nextSerial : Nat
  /-- The open nodes cuts have stopped at since the current node's walk began, by
  ascending index. -/
  cuts : List OpenNode
  /-- The nodes that closed with the cut's answer, each with the cuts that answer
  rests on. -/
  closedAsCut : Nat → Option (List OpenNode)

namespace CutMemo

variable {κ : Type}

def new (cutAnswer : Bool) : CutMemo κ :=
  ⟨cutAnswer, fun _ => none, [], 0, [], fun _ => none⟩

/-- Whether the rests are open still or closed with the cut's answer, `fuel`
bounding the chain of closed nodes. -/
def stillHolds (memo : CutMemo κ) : Nat → List OpenNode → Bool
  | 0, _ => false
  | fuel + 1, restsOn =>
    restsOn.all fun rest =>
      memo.openSerials[rest.1]? = some rest.2 || match memo.closedAsCut rest.2 with
        | some rests => stillHolds memo fuel rests
        | none => false

/-- A serial rests on lower ones only, so the next serial bounds the chain. -/
def get (memo : CutMemo κ) (key : κ) : Option Bool :=
  match memo.answers key with
  | none => none
  | some answer =>
    if memo.stillHolds (memo.nextSerial + 1) answer.restsOn then some answer.answer else none

/-- The number of open nodes. -/
def depth (memo : CutMemo κ) : Nat :=
  memo.openSerials.length

def openNode (memo : CutMemo κ) : CutMemo κ :=
  { memo with
    openSerials := memo.openSerials ++ [memo.nextSerial]
    nextSerial := memo.nextSerial + 1 }

/-- A close follows its open, so that a node is open. -/
def close (memo : CutMemo κ) (answer : Bool) : CutMemo κ :=
  match memo.openSerials.getLast? with
  | none => memo
  | some serial =>
    let openSerials := memo.openSerials.dropLast
    if answer = memo.cutAnswer then
      let rests := memo.cuts.filter fun cut => cut.1 < openSerials.length
      { memo with
        openSerials
        closedAsCut := Function.update memo.closedAsCut serial (some rests) }
    else
      { memo with openSerials }

/-- Starts a node's walk: the cuts that `endWalk` restores. -/
def begin (memo : CutMemo κ) : List OpenNode × CutMemo κ :=
  (memo.cuts, { memo with cuts := [] })

/-- Inserts a cut at index `i` in its place, unless there is one. -/
def insertCut (i serial : Nat) : List OpenNode → List OpenNode
  | [] => [(i, serial)]
  | (j, s) :: cuts =>
    if i = j then (j, s) :: cuts
    else if i < j then (i, serial) :: (j, s) :: cuts
    else (j, s) :: insertCut i serial cuts

/-- A cut at the open node at index `i`, answered with the cut's answer. -/
def cut (memo : CutMemo κ) (i : Nat) : Bool × CutMemo κ :=
  (memo.cutAnswer, { memo with cuts := insertCut i (memo.openSerials.getD i 0) memo.cuts })

def restore (memo : CutMemo κ) (outerCuts : List OpenNode) : CutMemo κ :=
  outerCuts.foldl (fun memo outer => (memo.cut outer.1).2) memo

def retain (memo : CutMemo κ) (depth : Nat) : CutMemo κ :=
  { memo with cuts := memo.cuts.filter fun cut => cut.1 < depth }

variable [DecidableEq κ]

/-- Ends the walk of `key`, begun with `depth` nodes open, and says whether its
answer rests on nothing still open. -/
def endWalk (memo : CutMemo κ) (key : κ) (depth : Nat) (answer : Bool)
    (outerCuts : List OpenNode) : Bool × CutMemo κ :=
  let memo := memo.retain depth
  let restsOn := if answer = memo.cutAnswer then memo.cuts else []
  let memo := { memo with answers := Function.update memo.answers key (some ⟨answer, restsOn⟩) }
  (restsOn.isEmpty, memo.restore outerCuts)

/-- Ends a walk whose answer is kept nowhere. -/
def endUnkept (memo : CutMemo κ) (depth : Nat) (outerCuts : List OpenNode) : CutMemo κ :=
  (memo.retain depth).restore outerCuts

end CutMemo

structure CutWalk (κ : Type) where
  /-- The nodes the walk is inside, outermost first. -/
  openKeys : List κ
  memo : CutMemo κ
  /-- How many answers have rested on something other than the cuts. -/
  unkept : Nat

/-- A node's answer, and whether it rests on nothing still open. -/
structure Visited where
  answer : Bool
  settled : Bool
deriving DecidableEq, Repr

namespace CutWalk

variable {κ : Type} [DecidableEq κ]

def new (cutAnswer : Bool) : CutWalk κ :=
  ⟨[], CutMemo.new cutAnswer, 0⟩

/-- The answer of `key`, by `walk` where the walk has none yet.  A `walk` that
does not return is `none`. -/
def visit (walk : CutWalk κ → Option (Bool × CutWalk κ)) (key : κ) (self : CutWalk κ) :
    Option (Visited × CutWalk κ) :=
  match self.memo.get key with
  | some answer => some (⟨answer, false⟩, self)
  | none =>
    match self.openKeys.idxOf? key with
    | some i =>
      let (answer, memo) := self.memo.cut i
      some (⟨answer, false⟩, { self with memo })
    | none => do
      let depth := self.memo.depth
      let (outerCuts, memo) := self.memo.begin
      let unkept := self.unkept
      let (answer, self) ← walk
        { self with openKeys := self.openKeys ++ [key], memo := memo.openNode }
      let memo := self.memo.close answer
      let openKeys := self.openKeys.dropLast
      if self.unkept = unkept then
        let (settled, memo) := memo.endWalk key depth answer outerCuts
        return (⟨answer, settled⟩, { self with openKeys, memo })
      else
        return (⟨answer, false⟩, { self with openKeys, memo := memo.endUnkept depth outerCuts })

/-- Marks the answer being walked as resting on something other than the cuts. -/
def markUnkept (self : CutWalk κ) : CutWalk κ :=
  { self with unkept := self.unkept + 1 }

end CutWalk

end Wado
