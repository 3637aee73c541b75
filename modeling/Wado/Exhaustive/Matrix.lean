/-
The coverage check's pattern matrix: arm patterns as coverage reads them, the
constructors of a column, specializing the rows to each of them, and the marking
of the arms some value reaches.
-/
import Mathlib.Data.Finset.Sort
import Mathlib.Data.Int.Order.Basic
import Mathlib.Tactic.NormNum
import Wado.Exhaustive.Windows

namespace Wado.Exhaustive

structure Case where
  hasPayload : Bool
  /-- False for a case whose payload type has no value, which no arm need cover. -/
  inhabited : Bool
  deriving Repr, DecidableEq

/-- What the keys of an `IntDomain` stand for. -/
inductive DomainKind where
  | int
  | char
  /-- The order keys of a float type, the NaN at `max`. -/
  | float
  deriving Repr, DecidableEq

structure IntDomain where
  min : Int
  max : Int
  /-- The values between `min` and `max` the type never holds, inclusive. -/
  hole : Option (Int × Int)
  kind : DomainKind
  min_le : min ≤ max
  hole_within : ∀ h ∈ hole, min ≤ h.1 ∧ h.1 ≤ h.2 ∧ h.2 ≤ max
  deriving DecidableEq

def IntDomain.inHole (d : IntDomain) (value : Int) : Bool :=
  d.hole.any fun h => decide (h.1 ≤ value) && decide (value ≤ h.2)

/-- An arm pattern as coverage reads it.  A constructor carries the set its column
draws from, so the check reads no types. -/
inductive Pat where
  | wild
  /-- A case of an enum (no payload) or a variant (one payload). -/
  | case (cases : List Case) (index : Nat) (payload : Option Pat)
  | bool (value : Bool)
  /-- An inclusive integer range; `domain` is its type's, where it has one. -/
  | int (lo hi : Int) (domain : Option IntDomain)
  /-- A tuple, or a struct's fields in declaration order. -/
  | product (elements : List Pat)
  /-- A type pattern the host decides, naming the resource it narrows to. -/
  | narrow (target : Nat)
  /-- A value only a runtime comparison matches: a string or a constant. -/
  | opaqueValue
  | or (alternatives : List Pat)

namespace Pat

@[simp] def isWild : Pat → Bool
  | wild => true
  | _ => false

@[simp] def isOpaque : Pat → Bool
  | opaqueValue => true
  | _ => false

@[simp] def isOr : Pat → Bool
  | or _ => true
  | _ => false

end Pat

inductive Ctor where
  | case (cases : List Case) (index : Nat)
  | bool (value : Bool)
  | int (lo hi : Int)
  | product (arity : Nat)
  deriving DecidableEq

namespace Ctor

def arity : Ctor → Nat
  | case cases index => if (cases[index]?.map (·.hasPayload)).getD false then 1 else 0
  | bool _ => 0
  | int _ _ => 0
  | product arity => arity

attribute [grind =] arity

/-- The position a `case` constructor holds, which a case column is ordered by. -/
def index : Ctor → Nat
  | case _ index => index
  | _ => 0

/-- The integers an `int` constructor stands for, first and last. -/
def piece : Ctor → Int × Int
  | int lo hi => (lo, hi)
  | _ => (0, 0)

end Ctor

/-- A row standing for one arm. -/
structure ArmRow where
  pats : List Pat
  arm : Nat
  guardless : Bool

namespace ArmRow

def withPats (row : ArmRow) (pats : List Pat) : ArmRow := { row with pats := pats }

/-- This row behind a guard: it may take a value but covers none. -/
def guarded (row : ArmRow) (pats : List Pat) : ArmRow :=
  { row with pats := pats, guardless := false }

variable (row : ArmRow)

section

variable (pats : List Pat)
include pats

@[simp] theorem withPats_pats :
    (row.withPats pats).pats = pats := rfl

@[simp] theorem withPats_arm :
    (row.withPats pats).arm = row.arm := rfl

@[simp] theorem withPats_guardless :
    (row.withPats pats).guardless = row.guardless := rfl

@[simp] theorem guarded_pats :
    (row.guarded pats).pats = pats := rfl

@[simp] theorem guarded_arm :
    (row.guarded pats).arm = row.arm := rfl

@[simp] theorem guarded_guardless :
    (row.guarded pats).guardless = false := rfl

end

/-- The pattern in the head column. -/
def head (row : ArmRow) : Pat := row.pats.headD .wild

def tail (row : ArmRow) : ArmRow := row.withPats row.pats.tail

end ArmRow

section Expand

mutual

/-- The rows `head :: rest` stands for once no head is an or-pattern. -/
def pushExpanded (row : ArmRow) (rest : List Pat) : Pat → List ArmRow
  | .or alternatives => pushAlternatives row rest alternatives
  | head => [row.withPats (head :: rest)]

def pushAlternatives (row : ArmRow) (rest : List Pat) : List Pat → List ArmRow
  | [] => []
  | alternative :: alternatives =>
    pushExpanded row rest alternative ++ pushAlternatives row rest alternatives

end

attribute [grind =] pushExpanded pushAlternatives

def expandRow (row : ArmRow) : List ArmRow :=
  match row.pats with
  | [] => [row]
  | head :: rest => pushExpanded row rest head

def expandOr (rows : List ArmRow) : List ArmRow := rows.flatMap expandRow

end Expand

section Signature

/-- The cuts a range in the column makes, held inside the domain.  The domain's
limits leave room above `max`, so the bound after `hi` does not saturate. -/
def rangeCuts (domain : IntDomain) : Pat → List Int
  | .int lo hi _ => [max lo domain.min, min (hi + 1) (domain.max + 1)]
  | _ => []

def domainCuts (rows : List ArmRow) (domain : IntDomain) : List Int :=
  [domain.min, domain.max + 1] ++ (domain.hole.toList.flatMap fun h => [h.1, h.2 + 1]) ++
    -- A float's NaN, at `max`, is a piece of its own: no range reaches it.
    (if domain.kind = .float then [domain.max] else []) ++
    rows.flatMap fun row => rangeCuts domain row.head

/-- The domain cut at every range boundary in the column, so each piece lies wholly
inside or outside every range. -/
def splitDomain (rows : List ArmRow) (domain : IntDomain) : List Ctor :=
  let cuts := (domainCuts rows domain).toFinset.sort (· ≤ ·)
  ((Windows.windows cuts).filter fun w => !domain.inHole w.1).map fun w => .int w.1 (w.2 - 1)

/-- The cuts of a domain, sorted. -/
def sortedCuts (rows : List ArmRow) (domain : IntDomain) : List Int :=
  (domainCuts rows domain).toFinset.sort (· ≤ ·)

def caseCtors (cases : List Case) : List Ctor :=
  ((List.range cases.length).filter
    fun index => (cases[index]?.map (·.inhabited)).getD false).map (.case cases)

/-- The first head that names a constructor, or names a value of an open set. -/
def namedHead (rows : List ArmRow) : Option Pat :=
  (rows.map ArmRow.head).find? fun p => !(p.isWild || p.isOpaque)

/-- Every constructor of the head column's type, or `none` where the set is open (or
no row names one) and only a wildcard covers it. -/
def signature (rows : List ArmRow) : Option (List Ctor) :=
  match namedHead rows with
  | some (.case cases _ _) => some (caseCtors cases)
  | some (.bool _) => some [.bool true, .bool false]
  | some (.int _ _ (some domain)) => some (splitDomain rows domain)
  | some (.product elements) => some [.product elements.length]
  | _ => none

end Signature

section Specialize

def wilds (n : Nat) : List Pat := List.replicate n .wild

/-- A row's patterns once its head is known to be built with `ctor`. -/
def specializeRow (head : Pat) (rest : List Pat) (ctor : Ctor) : Option (List Pat) :=
  match head, ctor with
  | .wild, ctor => some (wilds ctor.arity ++ rest)
  | .case _ index payload, .case cases wanted =>
    if index = wanted then
      match payload, (Ctor.case cases wanted).arity with
      | _, 0 => some rest
      | some payload, _ => some (payload :: rest)
      | none, _ => some (.wild :: rest)
    else none
  | .bool value, .bool wanted => if value = wanted then some rest else none
  | .int lo hi _, .int a b => if lo ≤ a ∧ b ≤ hi then some rest else none
  | .product elements, .product _ => some (elements ++ rest)
  | _, _ => none

attribute [grind =] specializeRow

/-- The number of leading constructors that meet `p`, which holds of a prefix. -/
def partitionPoint (ctors : List Ctor) (p : Ctor → Bool) : Nat := (ctors.takeWhile p).length

/-- The constructors a head can take, first and past the last. -/
def reach (head : Pat) (ctors : List Ctor) : Nat × Nat :=
  match head with
  | .case _ index _ =>
    (partitionPoint ctors fun c => decide (c.index < index),
      partitionPoint ctors fun c => decide (c.index ≤ index))
  | .int lo hi _ =>
    (partitionPoint ctors fun c => decide (c.piece.2 < lo),
      partitionPoint ctors fun c => decide (c.piece.1 ≤ hi))
  | _ => (0, ctors.length)

/-- What `row` adds to the group of the constructor at `position`. -/
def specializeAt (ctors : List Ctor) (position : Nat) (ctor : Ctor) (row : ArmRow) :
    Option ArmRow :=
  match row.pats with
  | [] => none
  | .opaqueValue :: rest => some (row.guarded (wilds ctor.arity ++ rest))
  | head :: rest =>
    if (reach head ctors).1 ≤ position ∧ position < (reach head ctors).2 then
      (specializeRow head rest ctor).map row.withPats
    else none

/-- `rows` specialized to each of `ctors`, in order.  A row reaches only the
constructors its head can take. -/
def specializeEach (rows : List ArmRow) (ctors : List Ctor) : List (List ArmRow) :=
  ctors.mapIdx fun position ctor => rows.filterMap (specializeAt ctors position ctor)

def defaultRows (rows : List ArmRow) : List ArmRow :=
  (rows.filter (·.head.isWild)).map (·.tail)

/-- The row at `named` with the wildcard rows around it. -/
def namedGroup (rows : List ArmRow) (named : Nat) : List ArmRow :=
  ((rows.take named).filter (·.head.isWild) ++ rows[named]?.toList ++
    (rows.drop (named + 1)).filter (·.head.isWild)).map (·.tail)

/-- A column no constructor set describes, split by value: each row naming one with
the wildcard rows around it, then the wildcard rows alone. -/
def openGroups (rows : List ArmRow) : List (List ArmRow) :=
  ((List.range rows.length).filter fun i => !(rows[i]?.any (·.head.isWild))).map
    (namedGroup rows) ++ [defaultRows rows]

def groups (rows : List ArmRow) : List (List ArmRow) :=
  match signature rows with
  | some ctors => specializeEach rows ctors
  | none => openGroups rows

end Specialize

end Wado.Exhaustive
