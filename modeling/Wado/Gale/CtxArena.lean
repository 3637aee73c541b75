/-
The arena of the predictor's call contexts: nodes that share their parents, each a run of edges in
the arena's columns, interned by the hash of its edges, with caches of merges and inclusions.
-/
import Mathlib.Data.Prod.Lex
import Wado.Gale.KeyMap

namespace Wado.Gale

/-- Why a step stops: the assertion that node ids stay below the pair-key stride, another
assertion, an index outside a list, or a search that does not end. -/
inductive Stop where
  | full
  | assertion
  | outOfBounds
  | endless
deriving DecidableEq, Repr

/-- The element at `i`, a stop past the end. -/
def nth {α : Type} (xs : List α) (i : Nat) : Except Stop α :=
  match xs[i]? with
  | some x => .ok x
  | none => .error .outOfBounds

def nthAt {α : Type} (xs : List α) (i : Int) : Except Stop α :=
  if i < 0 then .error .outOfBounds else nth xs i.toNat

/-- What a search of a key map found. -/
def searched {α : Type} : Option α → Except Stop α
  | some x => .ok x
  | none => .error .endless

def nodePairStride : Nat := 1073741824

def boundary : Int := -3
def unknownReturn : Int := -4
def hiddenReturn : Int := -5

def ctxEmpty : Nat := 0
def ctxUnknown : Nat := 1

def nodePairKey (a b : Nat) : Nat :=
  a * nodePairStride + b

/-- A row of the columns `ret`, `rpr` and `parent`. -/
structure CtxEdge where
  ret : Int
  rpr : Int
  parent : Nat
deriving DecidableEq, Repr

structure CtxArena where
  nodeStart : List Nat
  nodeLen : List Nat
  edges : List CtxEdge
  pending : List Nat
  internHead : AtnKeyMap
  internNext : List Int
  mergeCache : AtnKeyMap
  coverCache : AtnKeyMap
deriving DecidableEq, Repr

namespace CtxArena

def nodeCount (arena : CtxArena) : Nat :=
  arena.nodeStart.length

def appendEdge (arena : CtxArena) (edge : CtxEdge) : CtxArena :=
  { arena with edges := arena.edges ++ [edge] }

/-- The `n` rows from `s` on, a stop when they run past the columns. -/
def rows (arena : CtxArena) (s n : Nat) : Except Stop (List CtxEdge) :=
  if s + n ≤ arena.edges.length then .ok ((arena.edges.drop s).take n) else .error .outOfBounds

/-- The hash of a run of rows, in wrapping 64-bit arithmetic. -/
def hashEdges (rows : List CtxEdge) : Nat :=
  let mix (h : BitVec 64) (x : Int) : BitVec 64 :=
    (h ^^^ BitVec.ofInt 64 (x + 1)) * 1099511628211#64
  let h := rows.foldl (fun h e => mix (mix (mix h e.ret) e.rpr) e.parent) 1469598103934665603#64
  (h &&& 4611686018427387903#64).toNat

/-- Whether the rows of `node` are the `n` rows from `s` on. -/
def edgesEq (arena : CtxArena) (node s n : Nat) : Except Stop Bool := do
  if (← nth arena.nodeLen node) ≠ n then
    return false
  let t ← nth arena.nodeStart node
  return (← arena.rows t n) == (← arena.rows s n)

/-- The node of the chain from `cand` on whose rows are the `n` rows from `s` on. -/
def findInterned (arena : CtxArena) (s n : Nat) : Nat → Int → Except Stop (Option Nat)
  | 0, _ => .error .endless
  | fuel + 1, cand =>
    if cand ≥ 0 then do
      if ← arena.edgesEq cand.toNat s n then
        return some cand.toNat
      else
        arena.findInterned s n fuel (← nthAt arena.internNext cand)
    else
      .ok none

/-- The node of the rows from `s` on, which are dropped again when a node has them already. -/
def internFrom (arena : CtxArena) (s : Nat) : Except Stop (Nat × CtxArena) := do
  let n := arena.edges.length - s
  if n = 0 then
    .error .assertion
  else
    let h := hashEdges (← arena.rows s n)
    let head ← searched (arena.internHead.get h)
    match ← arena.findInterned s n (arena.nodeCount + 1) head with
    | some cand => return (cand, { arena with edges := arena.edges.take s })
    | none =>
      let id := arena.nodeCount
      if id < nodePairStride then
        let internHead ← searched (arena.internHead.set h id)
        return (id, { arena with
          nodeStart := arena.nodeStart ++ [s]
          nodeLen := arena.nodeLen ++ [n]
          internNext := arena.internNext ++ [head]
          internHead := internHead })
      else
        .error .full

def push (arena : CtxArena) (returnState restorePr : Int) (parent : Nat) :
    Except Stop (Nat × CtxArena) :=
  (arena.appendEdge ⟨returnState, restorePr, parent⟩).internFrom arena.edges.length

def empty : CtxArena where
  nodeStart := []
  nodeLen := []
  edges := []
  pending := []
  internHead := .new
  internNext := []
  mergeCache := .new
  coverCache := .new

def new : Except Stop CtxArena := do
  let (first, arena) ← empty.push boundary 0 ctxEmpty
  let (second, arena) ← arena.push unknownReturn 0 ctxEmpty
  if first = ctxEmpty ∧ second = ctxUnknown then
    return arena
  else
    .error .assertion

def keyCmp (arena : CtxArena) (x y : Nat) : Except Stop Int := do
  let x ← nth arena.edges x
  let y ← nth arena.edges y
  if x.ret ≠ y.ret then
    return if x.ret < y.ret then -1 else 1
  if x.rpr ≠ y.rpr then
    return if x.rpr < y.rpr then -1 else 1
  return 0

/-- Merges the parents below the keys that both nodes have, and parks the results. -/
def mergeParents (merge : CtxArena → Nat → Nat → Except Stop (Nat × CtxArena))
    (sa na sb nb : Nat) : Nat → CtxArena → Nat → Nat → Except Stop CtxArena
  | 0, _, _, _ => .error .endless
  | fuel + 1, arena, i, j =>
    if i < na ∧ j < nb then do
      let c ← arena.keyCmp (sa + i) (sb + j)
      if c < 0 then
        mergeParents merge sa na sb nb fuel arena (i + 1) j
      else if c > 0 then
        mergeParents merge sa na sb nb fuel arena i (j + 1)
      else
        let x ← nth arena.edges (sa + i)
        let y ← nth arena.edges (sb + j)
        let (m, arena) ← merge arena x.parent y.parent
        mergeParents merge sa na sb nb fuel { arena with pending := arena.pending ++ [m] }
          (i + 1) (j + 1)
    else
      .ok arena

/-- Appends the rows of both nodes in the order of their keys, one row for a key of both. -/
def appendMerged (sa na sb nb : Nat) : Nat → CtxArena → Nat → Nat → Nat → Except Stop CtxArena
  | 0, _, _, _, _ => .error .endless
  | fuel + 1, arena, i, j, k =>
    if i < na ∨ j < nb then do
      let c ← (if i ≥ na then .ok 1 else if j ≥ nb then .ok (-1)
        else arena.keyCmp (sa + i) (sb + j))
      if c < 0 then
        let x ← nth arena.edges (sa + i)
        appendMerged sa na sb nb fuel (arena.appendEdge x) (i + 1) j k
      else if c > 0 then
        let y ← nth arena.edges (sb + j)
        appendMerged sa na sb nb fuel (arena.appendEdge y) i (j + 1) k
      else
        let x ← nth arena.edges (sa + i)
        let m ← nth arena.pending k
        appendMerged sa na sb nb fuel (arena.appendEdge ⟨x.ret, x.rpr, m⟩) (i + 1) (j + 1)
          (k + 1)
    else
      .ok arena

/-- `merge`, its calls nested `fuel` deep. -/
def mergeWithin : Nat → CtxArena → Nat → Nat → Except Stop (Nat × CtxArena)
  | 0, _, _, _ => .error .endless
  | fuel + 1, arena, a, b =>
    if a = b then
      .ok (a, arena)
    else do
      let ck := if a < b then nodePairKey a b else nodePairKey b a
      let cached ← searched (arena.mergeCache.get ck)
      if cached ≥ 0 then
        return (cached.toNat, arena)
      let sa ← nth arena.nodeStart a
      let na ← nth arena.nodeLen a
      let sb ← nth arena.nodeStart b
      let nb ← nth arena.nodeLen b
      let base := arena.pending.length
      let arena ← mergeParents (mergeWithin fuel) sa na sb nb (na + nb + 1) arena 0 0
      let s := arena.edges.length
      let arena ← appendMerged sa na sb nb (na + nb + 1) arena 0 0 base
      let (id, arena) ← { arena with pending := arena.pending.take base }.internFrom s
      let mergeCache ← searched (arena.mergeCache.set ck id)
      return (id, { arena with mergeCache := mergeCache })

/-- The node of both nodes' stacks.  A node's parents come before it, which bounds the nesting. -/
def merge (arena : CtxArena) (a b : Nat) : Except Stop (Nat × CtxArena) :=
  mergeWithin (a + b + 1) arena a b

/-- The first edge of `outer` from `i` on that is not below edge `y`. -/
def skipBelow (arena : CtxArena) (so no y : Nat) : Nat → Nat → Except Stop Nat
  | 0, _ => .error .endless
  | fuel + 1, i =>
    if i < no then do
      if (← arena.keyCmp (so + i) y) < 0 then
        arena.skipBelow so no y fuel (i + 1)
      else
        return i
    else
      .ok i

/-- Whether `outer` has every edge of `inner` from `j` on, with the stacks below it. -/
def coverEdges (covers : CtxArena → Nat → Nat → Except Stop (Bool × CtxArena))
    (so no si ni : Nat) : Nat → CtxArena → Nat → Nat → Except Stop (Bool × CtxArena)
  | 0, _, _, _ => .error .endless
  | fuel + 1, arena, i, j =>
    if j < ni then do
      let i ← arena.skipBelow so no (si + j) (no + 1) i
      if i ≥ no then
        return (false, arena)
      if (← arena.keyCmp (so + i) (si + j)) ≠ 0 then
        return (false, arena)
      let x ← nth arena.edges (so + i)
      let y ← nth arena.edges (si + j)
      let (below, arena) ← covers arena x.parent y.parent
      if below then
        coverEdges covers so no si ni fuel arena (i + 1) (j + 1)
      else
        return (false, arena)
    else
      .ok (true, arena)

/-- `covers`, its calls nested `fuel` deep. -/
def coversWithin : Nat → CtxArena → Nat → Nat → Except Stop (Bool × CtxArena)
  | 0, _, _, _ => .error .endless
  | fuel + 1, arena, outer, inner =>
    if outer = inner then
      .ok (true, arena)
    else do
      let ck := nodePairKey outer inner
      let cached ← searched (arena.coverCache.get ck)
      if cached ≥ 0 then
        return (cached == 1, arena)
      let so ← nth arena.nodeStart outer
      let no ← nth arena.nodeLen outer
      let si ← nth arena.nodeStart inner
      let ni ← nth arena.nodeLen inner
      let (covered, arena) ← coverEdges (coversWithin fuel) so no si ni (ni + 1) arena 0 0
      let coverCache ← searched (arena.coverCache.set ck (if covered then 1 else 0))
      return (covered, { arena with coverCache := coverCache })

def covers (arena : CtxArena) (outer inner : Nat) : Except Stop (Bool × CtxArena) :=
  coversWithin (outer + inner + 1) arena outer inner

end CtxArena

/-- What the collapse reads of the simulator. -/
structure AtnSim where
  stateCollapseTo : List Int
  stateCollapseTarget : List Bool

structure AtnConfig where
  state : Int
  alt : Int
  pctx : Nat
  pr : Int
deriving DecidableEq, Repr

namespace CtxArena

def edgeCollapses (sim : AtnSim) (arena : CtxArena) (e : Nat) (cur : AtnConfig) :
    Except Stop Bool := do
  let edge ← nth arena.edges e
  if edge.ret ≥ 0 then
    return (← nthAt sim.stateCollapseTo edge.ret) == cur.state && decide (cur.pr ≥ edge.rpr)
  else
    return false

/-- Whether one of the `n` edges from `e` on collapses, and the alternatives with an edge out of a
hidden frame. -/
def anyCollapses (sim : AtnSim) (arena : CtxArena) (cur : AtnConfig) :
    Nat → Nat → Bool → List Int → Except Stop (Bool × List Int)
  | 0, _, collapses, hiddenAlts => .ok (collapses, hiddenAlts)
  | n + 1, e, collapses, hiddenAlts => do
    let edge ← nth arena.edges e
    let hiddenAlts := if edge.ret = hiddenReturn ∧ cur.alt ∉ hiddenAlts then
      hiddenAlts ++ [cur.alt] else hiddenAlts
    let collapses ← (if collapses then .ok true else edgeCollapses sim arena e cur)
    anyCollapses sim arena cur n (e + 1) collapses hiddenAlts

/-- Takes the `n` edges from `e` on that collapse to the parents they return to, and appends the
others. -/
def collapseEdges (sim : AtnSim) (cur : AtnConfig) :
    Nat → Nat → CtxArena → List AtnConfig → Except Stop (CtxArena × List AtnConfig)
  | 0, _, arena, work => .ok (arena, work)
  | n + 1, e, arena, work => do
    let collapses ← edgeCollapses sim arena e cur
    let edge ← nth arena.edges e
    if collapses then
      collapseEdges sim cur n (e + 1) arena
        (work ++ [{ state := cur.state, alt := cur.alt, pctx := edge.parent, pr := edge.rpr }])
    else
      collapseEdges sim cur n (e + 1) (arena.appendEdge edge) work

/-- The context of `cur` without the edges that return into the loop it is in: -1 when none is
left. -/
def collapseIntoCallerLoop (sim : AtnSim) (arena : CtxArena) (cur : AtnConfig)
    (work : List AtnConfig) (hiddenAlts : List Int) :
    Except Stop (Int × CtxArena × List AtnConfig × List Int) := do
  if sim.stateCollapseTo.isEmpty then
    return (cur.pctx, arena, work, hiddenAlts)
  if !(← nthAt sim.stateCollapseTarget cur.state) then
    return (cur.pctx, arena, work, hiddenAlts)
  let s ← nth arena.nodeStart cur.pctx
  let n ← nth arena.nodeLen cur.pctx
  let (collapses, hiddenAlts) ← anyCollapses sim arena cur n s false hiddenAlts
  if !collapses then
    return (cur.pctx, arena, work, hiddenAlts)
  let kept := arena.edges.length
  let (arena, work) ← collapseEdges sim cur n s arena work
  if arena.edges.length = kept then
    return (-1, arena, work, hiddenAlts)
  let (id, arena) ← arena.internFrom kept
  return (id, arena, work, hiddenAlts)

end CtxArena

end Wado.Gale
