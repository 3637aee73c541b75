/-
Backward liveness over a body: the body is flattened into events, and a pass from
its end follows Wasm's branches, iterating each loop's head to its fixed point.
-/
import Wado.Wir.Instr
import Mathlib.Data.Finset.Basic

namespace Wado.Wir.Liveness

/-- Locals, by name; the source keeps the index a name has among those the body
accesses. -/
abbrev Bits := Finset Ident

/-- A write of locals: one, by the node of pre-order number `id`, or a multi-value
bind's targets at once. -/
inductive Store
  | one (name : Ident) (id : Nat)
  | bind (names : List Ident)
deriving DecidableEq

def Store.writes : Store → Bits
  | .one name _ => {name}
  | .bind names => names.toFinset

/-- `ifStart` and `brIf` stand after their condition, `brTable` after its index, and
`exit` for a `return` after its value or an `unreachable`. -/
inductive Event
  | read (name : Ident)
  | store (store : Store)
  | blockStart
  | blockEnd
  | loopStart
  | loopEnd
  | ifStart
  | ifElse
  | ifEnd
  | br (depth : Nat)
  | brIf (depth : Nat)
  | brTable (depths : List Nat)
  | exit
deriving DecidableEq

structure Flatten where
  events : List Event
  preorder : Nat

variable {Op Ty : Type}

namespace Flatten

def push (flat : Flatten) (events : List Event) : Flatten :=
  { flat with events := flat.events ++ events }

/-- Number the node that is visited. -/
def number (flat : Flatten) : Flatten :=
  { flat with preorder := flat.preorder + 1 }

variable (flat : Flatten)

@[simp] theorem push_events (events : List Event) :
    (flat.push events).events = flat.events ++ events := rfl

@[simp] theorem push_preorder (events : List Event) :
    (flat.push events).preorder = flat.preorder := rfl

@[simp] theorem number_events : flat.number.events = flat.events := rfl

@[simp] theorem number_preorder : flat.number.preorder = flat.preorder + 1 := rfl

end Flatten

/-- What an instruction does itself, once its operands are evaluated. -/
def eventsOf (id : Nat) : Head Op Ty → List Event
  | .br depth => [.br depth]
  | .brIf depth => [.brIf depth]
  | .brTable targets default => [.brTable (targets ++ [default])]
  | .ret => [.exit]
  | .unreachable => [.exit]
  | .localSet name => [.store (.one name id)]
  | .localTee name => [.store (.one name id)]
  | .localGet name _ => [.read name]
  | .multiValueLocalBind locals =>
    if locals.filterMap (·) = [] then [] else [.store (.bind (locals.filterMap (·)))]
  | _ => []

attribute [grind =] eventsOf

mutual

def visitInstr : WirInstr Op Ty → Flatten → Flatten
  | .block _ body, flat =>
    (walkBody body (flat.number.push [.blockStart])).push [.blockEnd]
  | .loop body, flat =>
    (walkBody body (flat.number.push [.loopStart])).push [.loopEnd]
  | .ite condition _ thenBody none, flat =>
    (walkBody thenBody ((visitInstr condition flat.number).push [.ifStart])).push [.ifEnd]
  | .ite condition _ thenBody (some elseBody), flat =>
    (walkBody elseBody
      ((walkBody thenBody ((visitInstr condition flat.number).push [.ifStart])).push
        [.ifElse])).push [.ifEnd]
  | .node head operands, flat =>
    (walkBody operands flat.number).push (eventsOf flat.preorder head)

def walkBody : List (WirInstr Op Ty) → Flatten → Flatten
  | [], flat => flat
  | instr :: rest, flat => walkBody rest (visitInstr instr flat)

end

attribute [grind =] visitInstr walkBody

/-- Which start each end closes, and the `else` of each `if` that has one, found with
the starts still open. -/
structure Matching where
  startOf : Nat → Nat
  elseOf : Nat → Option Nat
  opened : List Nat

/-- One event at its position; `none` for an end or an `else` that nothing opens. -/
def Matching.step (matching : Matching) (pos : Nat) : Event → Option Matching
  | .blockStart | .loopStart | .ifStart =>
    some { matching with opened := pos :: matching.opened }
  | .ifElse =>
    match matching.opened with
    | [] => none
    | start :: _ =>
      some { matching with elseOf := Function.update matching.elseOf start (some pos) }
  | .blockEnd | .loopEnd | .ifEnd =>
    match matching.opened with
    | [] => none
    | start :: opened =>
      some { matching with
        startOf := Function.update matching.startOf pos start
        opened := opened }
  | _ => some matching

attribute [grind =] Matching.step

def Matching.scan : List Event → Nat → Matching → Option Matching
  | [], _, matching => some matching
  | event :: rest, pos, matching => (matching.step pos event).bind (Matching.scan rest (pos + 1))

/-- A body flattened for liveness. -/
structure Flow where
  events : List Event
  startOf : Nat → Nat
  elseOf : Nat → Option Nat

def Flow.of (body : List (WirInstr Op Ty)) : Option Flow :=
  let events := (walkBody body ⟨[], 0⟩).events
  (Matching.scan events 0 ⟨fun _ => 0, fun _ => none, []⟩).map fun matching =>
    ⟨events, matching.startOf, matching.elseOf⟩

/-- The stores found dead, in the order they were, and each loop's head by its start
event, kept across the passes of an enclosing loop. -/
structure Backward where
  dead : List Nat
  loopHeads : Nat → Option Bits

namespace Backward

/-- See a store with what is live right after it. -/
def store (backward : Backward) (store : Store) (liveAfter : Bits) : Backward :=
  match store with
  | .one name id =>
    if name ∉ liveAfter ∧ id ∉ backward.dead then
      { backward with dead := backward.dead ++ [id] }
    else backward
  | .bind _ => backward

def mark (backward : Backward) : Nat := backward.dead.length

def rollback (backward : Backward) (mark : Nat) : Backward :=
  { backward with dead := backward.dead.take mark }

def setHead (backward : Backward) (opening : Nat) (head : Bits) : Backward :=
  { backward with loopHeads := Function.update backward.loopHeads opening (some head) }

end Backward

/-- What is live where a branch lands, the innermost label first; past the function's
body it returns, and nothing is live. -/
def target (labels : List Bits) (depth : Nat) : Bits :=
  labels.getD depth ∅

mutual

/-- What is live at `start`, given `live` at `pos`; `none` where the fuel runs out. -/
def region (flow : Flow) : Nat → List Bits → Nat → Nat → Bits → Backward → Option (Bits × Backward)
  | 0, _, _, _, _, _ => none
  | fuel + 1, labels, start, pos, live, backward =>
    if pos ≤ start then some (live, backward)
    else
      let pos := pos - 1
      match flow.events[pos]? with
      | some (.read name) => region flow fuel labels start pos (insert name live) backward
      | some (.store store) =>
        region flow fuel labels start pos (live \ store.writes) (backward.store store live)
      | some .blockEnd =>
        let opening := flow.startOf pos
        (region flow fuel (live :: labels) (opening + 1) pos live backward).bind
          fun (live, backward) => region flow fuel labels start opening live backward
      | some .ifEnd =>
        let opening := flow.startOf pos
        let elseLive :=
          match flow.elseOf opening with
          | some split => region flow fuel (live :: labels) (split + 1) pos live backward
          | none => some (live, backward)
        elseLive.bind fun (elseLive, backward) =>
          (region flow fuel (live :: labels) (opening + 1) ((flow.elseOf opening).getD pos)
            live backward).bind fun (thenLive, backward) =>
              region flow fuel labels start opening (thenLive ∪ elseLive) backward
      | some .loopEnd =>
        let opening := flow.startOf pos
        (looped flow fuel labels opening pos live
          ((backward.loopHeads opening).getD ∅) backward).bind
            fun (live, backward) => region flow fuel labels start opening live backward
      | some (.br depth) => region flow fuel labels start pos (target labels depth) backward
      | some (.brIf depth) =>
        region flow fuel labels start pos (live ∪ target labels depth) backward
      | some (.brTable depths) =>
        region flow fuel labels start pos
          (depths.foldl (fun live depth => live ∪ target labels depth) ∅) backward
      | some .exit => region flow fuel labels start pos ∅ backward
      -- A start is skipped from its end.
      | some .blockStart | some .loopStart | some .ifStart | some .ifElse | none => none

/-- The loop's head at its fixed point, from `head` on and the liveness after the loop.
A pass whose head moves observed under a head short of final, so it is rolled back. -/
def looped (flow : Flow) : Nat → List Bits → Nat → Nat → Bits → Bits → Backward →
    Option (Bits × Backward)
  | 0, _, _, _, _, _, _ => none
  | fuel + 1, labels, opening, closing, after, head, backward =>
    (region flow fuel (head :: labels) (opening + 1) closing after backward).bind
      fun (next, passed) =>
        if next ∪ head = head then some (head, passed.setHead opening head)
        else
          looped flow fuel labels opening closing after (next ∪ head)
            (passed.rollback backward.mark)

end

attribute [grind =] region looped

/-- Show the observer every store, and answer what is live at the entry. -/
def Flow.run (flow : Flow) (fuel : Nat) : Option (Bits × Backward) :=
  region flow fuel [] 0 flow.events.length ∅ ⟨[], fun _ => none⟩

/-- The pre-order numbers of the stores no read can see, because every path from the
store overwrites the local or leaves the function first. -/
def deadStores (fuel : Nat) (body : List (WirInstr Op Ty)) : Option (List Nat) :=
  ((Flow.of body).bind fun flow => flow.run fuel).map fun (_, backward) => backward.dead

end Wado.Wir.Liveness

/-
The flow graph of a body: the places of its code, where control goes from each, and
which locals a path from one can still read.
-/

namespace Wado.Wir.Liveness

/-- A body's reads, stores and branches in order, the rest of the code after each. -/
inductive Code
  | done
  | read (name : Ident) (rest : Code)
  | store (store : Store) (rest : Code)
  | block (body rest : Code)
  | loop (body rest : Code)
  | ifThen (thenBody rest : Code)
  | ifElse (thenBody elseBody rest : Code)
  | br (depth : Nat) (rest : Code)
  | brIf (depth : Nat) (rest : Code)
  | brTable (depths : List Nat) (rest : Code)
  | exit (rest : Code)
deriving DecidableEq

/-- A label around a place: what follows it, and of a loop the body it goes back to. -/
inductive Frame
  | block (rest : Code)
  | loop (body rest : Code)
deriving DecidableEq

def Frame.rest : Frame → Code
  | .block rest => rest
  | .loop _ rest => rest

/-- A place: the code ahead in its body, and the labels around it, the innermost first. -/
structure Place where
  code : Code
  frames : List Frame
deriving DecidableEq

/-- Where a branch lands; one past the function's body lands nowhere. -/
def landing : List Frame → Nat → Option Place
  | [], _ => none
  | .block rest :: frames, 0 => some ⟨rest, frames⟩
  | .loop body rest :: frames, 0 => some ⟨body, .loop body rest :: frames⟩
  | _ :: frames, depth + 1 => landing frames depth

namespace Place

/-- Where control goes from a place. -/
def successors : Place → List Place
  | ⟨.done, []⟩ => []
  | ⟨.done, frame :: frames⟩ => [⟨frame.rest, frames⟩]
  | ⟨.read _ rest, frames⟩ => [⟨rest, frames⟩]
  | ⟨.store _ rest, frames⟩ => [⟨rest, frames⟩]
  | ⟨.block body rest, frames⟩ => [⟨body, .block rest :: frames⟩]
  | ⟨.loop body rest, frames⟩ => [⟨body, .loop body rest :: frames⟩]
  | ⟨.ifThen thenBody rest, frames⟩ => [⟨thenBody, .block rest :: frames⟩, ⟨rest, frames⟩]
  | ⟨.ifElse thenBody elseBody rest, frames⟩ =>
    [⟨thenBody, .block rest :: frames⟩, ⟨elseBody, .block rest :: frames⟩]
  | ⟨.br depth _, frames⟩ => (landing frames depth).toList
  | ⟨.brIf depth rest, frames⟩ => ⟨rest, frames⟩ :: (landing frames depth).toList
  | ⟨.brTable depths _, frames⟩ => depths.filterMap (landing frames)
  | ⟨.exit _, _⟩ => []

attribute [grind =] successors

def reads (x : Ident) : Place → Prop
  | ⟨.read name _, _⟩ => name = x
  | _ => False

def writes : Place → Bits
  | ⟨.store store _, _⟩ => store.writes
  | _ => ∅

end Place

/-- Some path from the place reads the local, with no write of it before. -/
inductive Live (x : Ident) : Place → Prop
  | read {place : Place} (h : place.reads x) : Live x place
  | step {place next : Place} (hkept : x ∉ place.writes) (hnext : next ∈ place.successors)
      (hlive : Live x next) : Live x place

/-- Such a path of fewer than `n` steps. -/
def LiveWithin (x : Ident) : Nat → Place → Prop
  | 0, _ => False
  | n + 1, place =>
    place.reads x ∨ (x ∉ place.writes ∧ ∃ next ∈ place.successors, LiveWithin x n next)

section Paths

variable {x : Ident} {place : Place}

theorem LiveWithin.succ {n : Nat} (h : LiveWithin x n place) : LiveWithin x (n + 1) place := by
  induction n generalizing place with
  | zero => cases h
  | succ n ih =>
    rcases h with hread | ⟨hkept, next, hnext, hlive⟩
    · exact Or.inl hread
    · exact Or.inr ⟨hkept, next, hnext, ih hlive⟩

theorem LiveWithin.mono {n m : Nat} (hnm : n ≤ m) (h : LiveWithin x n place) :
    LiveWithin x m place := by
  induction hnm with
  | refl => exact h
  | step _ ih => exact ih.succ

theorem Live.within (h : Live x place) : ∃ n, LiveWithin x n place := by
  induction h with
  | read hread => exact ⟨1, Or.inl hread⟩
  | step hkept hnext _ ih =>
    obtain ⟨n, hn⟩ := ih
    exact ⟨n + 1, Or.inr ⟨hkept, _, hnext, hn⟩⟩

end Paths

namespace Code

/-- Every store of the code, with the place after it. -/
def stores : Code → List Frame → List (Store × Place)
  | .done, _ => []
  | .store write rest, frames => (write, ⟨rest, frames⟩) :: rest.stores frames
  | .block body rest, frames => body.stores (.block rest :: frames) ++ rest.stores frames
  | .loop body rest, frames => body.stores (.loop body rest :: frames) ++ rest.stores frames
  | .ifThen thenBody rest, frames =>
    thenBody.stores (.block rest :: frames) ++ rest.stores frames
  | .ifElse thenBody elseBody rest, frames =>
    thenBody.stores (.block rest :: frames) ++
      (elseBody.stores (.block rest :: frames) ++ rest.stores frames)
  | .read _ rest, frames => rest.stores frames
  | .br _ rest, frames => rest.stores frames
  | .brIf _ rest, frames => rest.stores frames
  | .brTable _ rest, frames => rest.stores frames
  | .exit rest, frames => rest.stores frames

attribute [grind =] stores

end Code

/-- What an instruction does itself, before the rest of the code. -/
def headCode {Op Ty : Type} (id : Nat) (head : Head Op Ty) (rest : Code) : Code :=
  match head with
  | .br depth => .br depth rest
  | .brIf depth => .brIf depth rest
  | .brTable targets default => .brTable (targets ++ [default]) rest
  | .ret => .exit rest
  | .unreachable => .exit rest
  | .localSet name => .store (.one name id) rest
  | .localTee name => .store (.one name id) rest
  | .localGet name _ => .read name rest
  | .multiValueLocalBind locals =>
    if locals.filterMap (·) = [] then rest else .store (.bind (locals.filterMap (·))) rest
  | _ => rest

attribute [grind =] headCode

section Sizes

variable {Op Ty : Type}

mutual

/-- How many numbers a visit of the instruction takes. -/
def nodes : WirInstr Op Ty → Nat
  | .block _ body => nodesAll body + 1
  | .loop body => nodesAll body + 1
  | .ite condition _ thenBody none => nodes condition + nodesAll thenBody + 1
  | .ite condition _ thenBody (some elseBody) =>
    nodes condition + nodesAll thenBody + nodesAll elseBody + 1
  | .node _ operands => nodesAll operands + 1

def nodesAll : List (WirInstr Op Ty) → Nat
  | [] => 0
  | instr :: rest => nodes instr + nodesAll rest

end

attribute [grind =] nodes nodesAll

mutual

/-- An instruction's code, its node of pre-order number `id`, before the rest. -/
def codeOf : Nat → WirInstr Op Ty → Code → Code
  | id, .block _ body, rest => .block (codeOfAll (id + 1) body .done) rest
  | id, .loop body, rest => .loop (codeOfAll (id + 1) body .done) rest
  | id, .ite condition _ thenBody none, rest =>
    codeOf (id + 1) condition
      (.ifThen (codeOfAll (id + 1 + nodes condition) thenBody .done) rest)
  | id, .ite condition _ thenBody (some elseBody), rest =>
    codeOf (id + 1) condition
      (.ifElse (codeOfAll (id + 1 + nodes condition) thenBody .done)
        (codeOfAll (id + 1 + nodes condition + nodesAll thenBody) elseBody .done) rest)
  | id, .node head operands, rest => codeOfAll (id + 1) operands (headCode id head rest)

def codeOfAll : Nat → List (WirInstr Op Ty) → Code → Code
  | _, [], rest => rest
  | id, instr :: instrs, rest => codeOf id instr (codeOfAll (id + nodes instr) instrs rest)

end

attribute [grind =] codeOf codeOfAll

end Sizes

/-- The code of a whole body. -/
def bodyCode {Op Ty : Type} (body : List (WirInstr Op Ty)) : Code :=
  codeOfAll 0 body .done

end Wado.Wir.Liveness
