/-
A fused range check answers as the conjunction did, unless evaluating its bound first moves the
checked operand in or out of the range.
-/
import Wado.Nir.Frames
import Wado.Nir.RangeCheck

namespace Wado.Nir

namespace RangeCheck

open Body Option Outcome

variable {Obj World : Type}

/-- Whether a comparison holds of two numbers. -/
def BinaryOp.holds : BinaryOp → Int → Int → Bool
  | .lt, a, b => decide (a < b)
  | .ltEq, a, b => decide (a ≤ b)
  | .gt, a, b => decide (b < a)
  | .gtEq, a, b => decide (b ≤ a)
  | _, _, _ => false

def BinaryOp.holdsOn (op : BinaryOp) : Val Obj → Val Obj → Bool
  | .int a, .int b => op.holds a b
  | _, _ => false

def BinaryOp.isOrder : BinaryOp → Bool
  | .lt => true
  | .ltEq => true
  | .gt => true
  | .gtEq => true
  | _ => false

/-- The numbers of an integer type. -/
def Within (type : IntType) (number : Int) : Prop :=
  (if type.signed then -2 ^ (type.width - 1) else 0) ≤ number ∧
    number < 2 ^ (if type.signed then type.width - 1 else type.width)

instance (type : IntType) (number : Int) : Decidable (Within type number) :=
  inferInstanceAs (Decidable (_ ∧ _))

/-- Reading an operand: its value, or a trap, and no effect. -/
def readOf (value : Option (Val Obj)) (s : State Obj World) : Outcome Obj World :=
  match value with
  | some v => .next v s
  | none => .trap s

/-- Two operands run in order, and a result from their values. -/
def runBoth (first second : State Obj World → Outcome Obj World) (result : Val Obj → Val Obj → Bool)
    (s : State Obj World) : Outcome Obj World :=
  (first s).andThen fun v s => (second s).andThen fun w s => .next (.bool (result v w)) s

/-- `&&`: the second operand runs where the first is true. -/
def runAnd (first second : State Obj World → Outcome Obj World) (s : State Obj World) :
    Outcome Obj World :=
  (first s).andThen fun v s => match v with
    | .bool true => second s
    | _ => .next (.bool false) s

/-- Whether both values are `true`. -/
def bothTrue : Val Obj → Val Obj → Bool
  | .bool a, .bool b => a && b
  | _, _ => false

/-- How the operands of a body run, in the states that its executions reach. -/
structure Meaning (body : Body) (Obj World : Type) where
  run : Operand → State Obj World → Outcome Obj World
  reached : State Obj World → Prop
  /-- The locals that an operand's own blocks bind. -/
  ownLocals : Operand → List Nat
  reached_run : ∀ {op s v s'}, reached s → run op s = .next v s' → reached s'
  run_local : ∀ {id index s}, body.exprs id = .localVar index → reached s →
    run (.expr id) s = .next (s.locals index) s
  run_value : ∀ {s} id, reached s → ∃ value, run (.value id) s = readOf value s
  run_int : ∀ {id value s}, body.values id = .int value → reached s →
    run (.value id) s = .next (.int (value.type.number value.bits)) s
  run_order : ∀ {op left kind right s}, body.binaryParts op = some (left, kind, right) →
    kind.isOrder = true → reached s → run op s = runBoth (run left) (run right) kind.holdsOn s
  run_and : ∀ {id left right s}, body.exprs id = .binary left .and right → reached s →
    run (.expr id) s = runAnd (run left) (run right) s
  run_bitAnd : ∀ {id left right s}, body.exprs id = .binary left .bitAnd right →
    body.isBool id = true → reached s →
    run (.expr id) s = runBoth (run left) (run right) bothTrue s
  run_typed : ∀ {op type s v s'}, body.operandType op = some type → reached s →
    run op s = .next v s' → ∃ number, v = .int number ∧ Within type number
  type_order : ∀ {op left kind right}, body.binaryParts op = some (left, kind, right) →
    kind.isOrder = true → body.operandType left = body.operandType right
  /-- The runtime keeps a length in `0..2^31`. -/
  run_length : ∀ {op s v s'}, body.readsLength op = true → reached s → run op s = .next v s' →
    ∃ number, v = .int number ∧ 0 ≤ number ∧ number < 2 ^ 31
  /-- A copy holds what the operand that it stands for gives where the copy is read. -/
  bind_local : ∀ {index id other s}, reached s → body.binds index = some (.expr id) →
    body.exprs id = .localVar other → s.locals index = s.locals other
  bind_value : ∀ {index id s}, reached s → body.binds index = some (.value id) →
    run (.value id) s = .next (s.locals index) s
  bind_from : ∀ {index op s}, reached s → body.binds index = some op →
    ∃ s₁ s₂, reached s₁ ∧ run op s₁ = .next (s.locals index) s₂
  /-- A block that captures an operand yields what the operand gave. -/
  capture_from : ∀ {op inner s v s'}, body.captureBlockBinding op = some inner → reached s →
    run op s = .next v s' → ∃ s₁ s₂, reached s₁ ∧ run inner s₁ = .next v s₂
  run_pure : ∀ {op s}, body.isPureNontrapping op = true → reached s →
    ∃ v s', run op s = .next v s' ∧ Off (ownLocals op) s s'
  /-- What the right operand binds is out of scope in the left one. -/
  outside : ∀ {id left op right a kind b x s s' v}, body.exprs id = .binary left op right →
    body.binaryParts left = some (a, kind, b) → x = a ∨ x = b → reached s → reached s' →
    Off (ownLocals right) s s' → run x s = .next v s → run x s' = .next v s'

/-- A number as its pattern reads at an unsigned type. -/
def castTo (unsigned : IntType) : Val Obj → Val Obj
  | .int number => .int (number % 2 ^ unsigned.width)
  | v => v

/-- Run a fused comparison. -/
def Fused.run {body : Body} (meaning : Meaning body Obj World) (fused : Fused) :
    State Obj World → Outcome Obj World :=
  runBoth (meaning.run fused.left) (meaning.run fused.right) fun v w =>
    fused.op.holdsOn (castTo fused.unsigned v) (castTo fused.unsigned w)

/-- Evaluating the bound of the left operand moves the checked operand neither in nor out of the
range. Where the zero side comes first, there is nothing that it could move. -/
def BoundKeeps {body : Body} (meaning : Meaning body Obj World) (left right : Operand)
    (s : State Obj World) : Prop :=
  (body.halves left right .inside).isSome ∨
    ∀ x index kind bound m s' v v', body.zeroSide right .inside = some x →
      body.ordered left = some (index, kind, bound) →
      meaning.run bound s = .next (.int m) s' → meaning.run index s = .next (.int v) s →
      meaning.run x s' = .next (.int v') s' →
        if body.binaryParts left = some (index, kind, bound) then
          -- the operand is compared to the bound before the bound is evaluated
          kind.holds v m = true → (0 ≤ v ↔ 0 ≤ v')
        else (0 ≤ v ∧ kind.holds v m = true ↔ 0 ≤ v' ∧ kind.holds v' m = true)

variable {type : IntType}

/-- Where the rule reads a constant as an `i64`, it reads its number. -/
theorem widen_eq_toInt64 {bits : UInt64}
    (h : type.signed = true ∨ bits.toNat < 2 ^ 63) : type.widen bits = bits.toInt64.toInt := by
  unfold IntType.widen
  split
  next => rfl
  next hunsigned =>
    obtain hsigned | hfits := h
    · exact absurd hsigned hunsigned
    · have htwice : 2 * bits.toBitVec.toNat < 2 ^ 64 := by
        change bits.toBitVec.toNat < 2 ^ 63 at hfits
        omega
      exact (BitVec.toInt_eq_toNat_of_lt htwice).symm

variable {op : Operand} {s : State Obj World} {s t : State Obj World} {s s' : State Obj World}
variable {id : Nat}

section Resolving

variable {body : Body} (meaning : Meaning body Obj World)

theorem bindOf_local {op next : Operand} (h : body.bindOf op = some next) :
    ∃ id index, op = .expr id ∧ body.exprs id = .localVar index ∧ body.binds index = some next := by
  cases op with
  | value id => cases h
  | expr id =>
    rw [bindOf] at h
    split at h
    next index hlocal => exact ⟨id, index, rfl, hlocal, h⟩
    next => cases h

theorem resolveFor_none (h : body.bindOf op = none) (hops : Nat) :
    body.resolveFor hops op = op := by
  cases hops with
  | zero => rfl
  | succ hops => rw [resolveFor, h]

/-- An operand is what it resolves to, or it reads a copy that is bound to that. -/
theorem resolveFor_stands (hops : Nat) (op : Operand) (hs : meaning.reached s) :
    body.resolveFor hops op = op ∨ ∃ index, body.binds index = some (body.resolveFor hops op) ∧
        meaning.run op s = .next (s.locals index) s := by
  induction hops generalizing op with
  | zero => exact .inl rfl
  | succ hops ih =>
    rw [resolveFor]
    cases hbind : body.bindOf op with
    | none => exact .inl rfl
    | some next =>
      right
      dsimp only
      obtain ⟨id, index, rfl, hlocal, hbound⟩ := bindOf_local hbind
      have hrun := meaning.run_local hlocal hs
      obtain heq | ⟨copy, hcopy, hnext⟩ := ih next
      · exact ⟨index, by rw [heq]; exact hbound, hrun⟩
      · cases hinner : body.bindOf next with
        | none => exact ⟨index, by rw [resolveFor_none hinner]; exact hbound, hrun⟩
        | some last =>
          obtain ⟨inner, other, rfl, hother, -⟩ := bindOf_local hinner
          refine ⟨copy, hcopy, ?_⟩
          rw [hrun, meaning.bind_local hs hbound hother, ← meaning.run_local hother hs, hnext]

variable {o : Outcome Obj World}

theorem eq_next (h : o.exit = .next) :
    o = .next o.value o.state := by
  obtain ⟨exit, v, s⟩ := o
  obtain rfl : exit = .next := h
  rfl

variable {v : Val Obj}

theorem andThen_eq_next {k : Val Obj → State Obj World → Outcome Obj World}
    (h : o.andThen k = .next v s) :
    ∃ w t, o = .next w t ∧ k w t = .next v s := by
  obtain ⟨exit, w, t⟩ := o
  cases exit with
  | next => exact ⟨w, t, rfl, h⟩
  | _ => cases (mk.inj h).1

theorem next_inj {v w : Val Obj} (h : next v s = next w t) : v = w ∧ s = t :=
  ⟨(mk.inj h).2.1, (mk.inj h).2.2⟩

variable {number : Int}

/-- A constant runs to its number. -/
theorem parseConst_run (h : body.parseConstI64 op = some number) (hs : meaning.reached s) :
    meaning.run op s = .next (.int number) s := by
  unfold parseConstI64 at h
  split at h
  next id hid =>
    unfold poolIntConst at h
    split at h
    next value hvalue =>
      obtain ⟨hfits, hnumber⟩ := ite_none_right_eq_some.mp h
      have hsame : value.type.number value.bits = number := by
        rw [← value.extended, ← Option.some.inj hnumber]
        exact widen_eq_toInt64 hfits
      have hrun := meaning.run_int hvalue hs
      rw [hsame] at hrun
      obtain heq | ⟨index, hbind, hread⟩ := resolveFor_stands meaning maxBindChain op hs
      · rw [← heq, ← hrun]
        exact congrArg (fun op => meaning.run op s) hid
      · have hcopy := meaning.bind_value hs (hbind.trans (congrArg some hid))
        rw [hrun] at hcopy
        rw [hread, (next_inj hcopy).1]
    next => cases h
  next => cases h

/-- What a resolved operand gives, another operand gave in some state that was reached. -/
theorem resolve_from (hs : meaning.reached s) (h : meaning.run op s = .next v s') :
    ∃ s₁ s₂, meaning.reached s₁ ∧ meaning.run (body.resolve op) s₁ = .next v s₂ := by
  obtain heq | ⟨index, hbind, hread⟩ := resolveFor_stands meaning maxBindChain op hs
  · refine ⟨s, s', hs, ?_⟩
    rw [resolve, heq, h]
  · obtain ⟨s₁, s₂, hs₁, hrun⟩ := meaning.bind_from hs hbind
    rw [h] at hread
    rw [(next_inj hread).1]
    exact ⟨s₁, s₂, hs₁, hrun⟩

theorem peelFor_from (hops : Nat) (hs : meaning.reached s) (h : meaning.run op s = .next v s') :
    ∃ s₁ s₂, meaning.reached s₁ ∧ meaning.run (body.peelFor hops op) s₁ = .next v s₂ := by
  induction hops generalizing op s s' with
  | zero => exact ⟨s, s', hs, h⟩
  | succ hops ih =>
    rw [peelFor]
    split
    next inner hcapture =>
      obtain ⟨s₁, s₂, hs₁, hresolved⟩ := resolve_from meaning hs h
      obtain ⟨s₃, s₄, hs₃, hinner⟩ := meaning.capture_from hcapture hs₁ hresolved
      exact ih hs₃ hinner
    next => exact ⟨s, s', hs, h⟩

/-- A bound that is known not to be negative is not. -/
theorem nonNegative_run (h : body.nonNegative op = true)
    (hs : meaning.reached s) (hrun : meaning.run op s = .next (.int number) s') :
    0 ≤ number := by
  obtain hlength | hconst := Bool.or_eq_true_iff.mp h
  · obtain ⟨s₁, s₂, hs₁, hpeeled⟩ := peelFor_from meaning maxBindChain hs hrun
    obtain ⟨s₃, s₄, hs₃, hread⟩ := resolve_from meaning hs₁ hpeeled
    obtain ⟨length, heq, hpos, -⟩ := meaning.run_length hlength hs₃ hread
    rw [Val.int.inj heq]
    exact hpos
  · obtain ⟨const, hparse, hpos⟩ := (any_eq_true _ _).mp hconst
    rw [parseConst_run meaning hparse hs] at hrun
    rw [← Val.int.inj (next_inj hrun).1]
    exact of_decide_eq_true hpos

theorem resolve_local {id index : Nat} (h : body.resolve op = .expr id)
    (hlocal : body.exprs id = .localVar index) (hs : meaning.reached s) :
    meaning.run op s = .next (s.locals index) s := by
  obtain heq | ⟨copy, hbind, hread⟩ := resolveFor_stands meaning maxBindChain op hs
  · rw [← meaning.run_local hlocal hs, ← heq.symm.trans h]
  · rw [hread, meaning.bind_local hs (hbind.trans (congrArg some h)) hlocal]

theorem resolve_value (h : body.resolve op = .value id) (hs : meaning.reached s) :
    meaning.run op s = meaning.run (.value id) s := by
  obtain heq | ⟨copy, hbind, hread⟩ := resolveFor_stands meaning maxBindChain op hs
  · rw [← heq.symm.trans h]
  · rw [hread, meaning.bind_value hs (hbind.trans (congrArg some h))]

/-- Operands that resolve to the same one read the same, unless an expression stands in two
places. -/
theorem operandSame_run {a b : Operand} (h : body.operandSame a b = true)
    (ha : ∀ child index, a = .expr child → body.holder child ≠ .letOf index)
    (hb : ∀ child index, b = .expr child → body.holder child ≠ .letOf index)
    (hab : ∀ child, a = .expr child → b ≠ .expr child) (hs : meaning.reached s) :
    meaning.run a s = meaning.run b s ∧ ∃ value, meaning.run a s = readOf value s := by
  unfold operandSame at h
  split at h
  next ea eb hra hrb =>
    obtain hsame | hlocals := Bool.or_eq_true_iff.mp h
    · obtain rfl := beq_iff_eq.mp hsame
      obtain heq | ⟨copy, hbind, hread⟩ := resolveFor_stands meaning maxBindChain a hs
      · have hself : a = .expr ea := heq.symm.trans hra
        obtain heq' | ⟨copy', hbind', -⟩ := resolveFor_stands meaning maxBindChain b hs
        · exact absurd (heq'.symm.trans hrb) (hab ea hself)
        · exact absurd (body.holder_let (hbind'.trans (congrArg some hrb))) (ha ea copy' hself)
      · have hholder := body.holder_let (hbind.trans (congrArg some hra))
        obtain heq' | ⟨copy', hbind', hread'⟩ := resolveFor_stands meaning maxBindChain b hs
        · exact absurd hholder (hb ea copy (heq'.symm.trans hrb))
        · have hholder' := body.holder_let (hbind'.trans (congrArg some hrb))
          rw [hholder] at hholder'
          rw [hread, hread', Holder.letOf.inj hholder']
          exact ⟨rfl, some _, rfl⟩
    · split at hlocals
      next ia ib hia hib =>
        rw [resolve_local meaning hra hia hs, resolve_local meaning hrb hib hs,
          beq_iff_eq.mp hlocals]
        exact ⟨rfl, some _, rfl⟩
      next => cases hlocals
  next va vb hra hrb =>
    rw [resolve_value meaning hra hs, resolve_value meaning hrb hs, beq_iff_eq.mp h]
    exact ⟨rfl, meaning.run_value vb hs⟩
  next => cases h

end Resolving

variable {kind : BinaryOp}

section Sides

variable {body : Body} (meaning : Meaning body Obj World)

variable {op left right : Operand}

/-- An operand of a comparison is held by that comparison. -/
theorem binaryParts_holder (h : body.binaryParts op = some (left, kind, right)) {child : Nat}
    (hchild : left = .expr child ∨ right = .expr child) :
    ∃ id isRight, op = .expr id ∧ body.holder child = .operandOf id isRight := by
  cases op with
  | expr id =>
    rw [binaryParts] at h
    split at h
    next l k r hexpr =>
      obtain ⟨rfl, rfl, rfl⟩ := Option.some.inj h
      obtain rfl | rfl := hchild
      · exact ⟨id, false, rfl, body.holder_left hexpr⟩
      · exact ⟨id, true, rfl, body.holder_right hexpr⟩
    next => cases h
  | value id =>
    rw [binaryParts] at h
    split at h
    next =>
      obtain ⟨rfl, rfl, rfl⟩ := Option.some.inj h
      obtain hchild | hchild := hchild <;> cases hchild
    next => cases h

/-- What an ordered comparison is: as written, or turned. -/
theorem ordered_parts (h : body.ordered op = some (left, kind, right)) :
    (kind = .lt ∨ kind = .ltEq) ∧ (body.binaryParts op = some (left, kind, right) ∨
        ∃ turned, kind.converse = some turned ∧
          body.binaryParts op = some (right, turned, left)) := by
  obtain ⟨⟨l, k, r⟩, hparts, hturn⟩ := bind_eq_some_iff.mp h
  cases k with
  | lt =>
    obtain ⟨rfl, rfl, rfl⟩ := Option.some.inj hturn
    exact ⟨.inl rfl, .inl hparts⟩
  | ltEq =>
    obtain ⟨rfl, rfl, rfl⟩ := Option.some.inj hturn
    exact ⟨.inr rfl, .inl hparts⟩
  | gt =>
    obtain ⟨rfl, rfl, rfl⟩ := Option.some.inj hturn
    exact ⟨.inl rfl, .inr ⟨.gt, rfl, hparts⟩⟩
  | gtEq =>
    obtain ⟨rfl, rfl, rfl⟩ := Option.some.inj hturn
    exact ⟨.inr rfl, .inr ⟨.gtEq, rfl, hparts⟩⟩
  | _ => cases hturn

variable {kind turned : BinaryOp}

theorem converse_isOrder (h : kind.converse = some turned)
    (hkind : kind = .lt ∨ kind = .ltEq) : turned.isOrder = true := by
  obtain rfl | rfl := hkind <;> obtain rfl := Option.some.inj h <;> rfl

theorem converse_holdsOn (h : kind.converse = some turned)
    (hkind : kind = .lt ∨ kind = .ltEq) (v w : Val Obj) :
    turned.holdsOn w v = kind.holdsOn v w := by
  obtain rfl | rfl := hkind <;> obtain rfl := Option.some.inj h
  · cases v <;> cases w <;> rfl
  · cases v <;> cases w <;> rfl

/-- How an ordered comparison runs. -/
theorem ordered_run (h : body.ordered op = some (left, kind, right)) :
    (body.binaryParts op = some (left, kind, right) ∧ ∀ s, meaning.reached s →
        meaning.run op s = runBoth (meaning.run left) (meaning.run right) kind.holdsOn s) ∨
      (body.binaryParts op ≠ some (left, kind, right) ∧ ∀ s, meaning.reached s → meaning.run op s =
          runBoth (meaning.run right) (meaning.run left) (fun w v => kind.holdsOn v w) s) := by
  obtain ⟨hkind, hparts | ⟨turned, hturned, hparts⟩⟩ := ordered_parts h
  · refine .inl ⟨hparts, fun s hs => meaning.run_order hparts ?_ hs⟩
    obtain rfl | rfl := hkind <;> rfl
  · refine .inr ⟨fun hsame => ?_, fun s hs => ?_⟩
    · rw [hparts] at hsame
      obtain ⟨-, rfl, -⟩ := Option.some.inj hsame
      obtain rfl | rfl := hkind <;> cases hturned
    · rw [meaning.run_order hparts (converse_isOrder hturned hkind) hs]
      exact congrArg (fun result => runBoth (meaning.run right) (meaning.run left) result s)
        (funext fun w => funext fun v => converse_holdsOn hturned hkind v w)

theorem ordered_type (meaning : Meaning body Obj World)
    (h : body.ordered op = some (left, kind, right)) :
    body.operandType left = body.operandType right := by
  obtain ⟨hkind, hparts | ⟨turned, hturned, hparts⟩⟩ := ordered_parts h
  · refine meaning.type_order hparts ?_
    obtain rfl | rfl := hkind <;> rfl
  · exact (meaning.type_order hparts (converse_isOrder hturned hkind)).symm

/-- Whether a value is a number that is not negative. -/
def notNegative : Val Obj → Bool
  | .int number => decide (0 ≤ number)
  | _ => false

variable {op x : Operand}

/-- The zero side of a range tests whether its operand is negative. -/
theorem zeroSide_run (h : body.zeroSide op .inside = some x)
    (hs : meaning.reached s) {value : Option (Val Obj)} (hread : meaning.run x s = readOf value s) :
    meaning.run op s = readOf (value.map fun v => .bool (notNegative v)) s := by
  obtain ⟨⟨left, kind, right⟩, hordered, hside⟩ := bind_eq_some_iff.mp h
  have hconst : ∃ number, body.parseConstI64 left = some number ∧ right = x ∧
      ∀ v : Val Obj, kind.holdsOn (.int number) v = notNegative v := by
    obtain ⟨rfl | rfl, -⟩ := ordered_parts hordered
    · obtain ⟨hparse, hx⟩ := ite_none_right_eq_some.mp hside
      refine ⟨-1, hparse, Option.some.inj hx, fun v => ?_⟩
      cases v with
      | int number => exact decide_eq_decide.mpr (by omega)
      | _ => rfl
    · obtain ⟨hparse, hx⟩ := ite_none_right_eq_some.mp hside
      refine ⟨0, hparse, Option.some.inj hx, fun v => ?_⟩
      cases v <;> rfl
  obtain ⟨number, hparse, rfl, htest⟩ := hconst
  have hzero := parseConst_run meaning hparse hs
  obtain ⟨-, hrun⟩ | ⟨-, hrun⟩ := ordered_run meaning hordered
  · rw [hrun s hs, runBoth, hzero, next_andThen, hread]
    cases value with
    | none => rfl
    | some v => exact congrArg (fun b => next (.bool b) s) (htest v)
  · rw [hrun s hs, runBoth, hread]
    cases value with
    | none => rfl
    | some v =>
      rw [readOf, next_andThen, hzero]
      exact congrArg (fun b => next (.bool b) s) (htest v)

/-- What the bound side is: its operand reads as the zero side's, and its bound is known not to
be negative. -/
theorem boundSide_parts {op x left right : Operand}
    (h : body.boundSide op x .inside = some (left, kind, right)) :
    body.ordered op = some (left, kind, right) ∧ body.operandSame left x = true ∧
      body.nonNegative right = true := by
  obtain ⟨⟨l, k, r⟩, hordered, hside⟩ := bind_eq_some_iff.mp h
  obtain ⟨hboth, hsame⟩ := ite_none_right_eq_some.mp hside
  obtain ⟨rfl, rfl, rfl⟩ := Option.some.inj hsame
  obtain ⟨hindex, hbound⟩ := Bool.and_eq_true_iff.mp hboth
  exact ⟨hordered, hindex, hbound⟩

/-- The checked operand is one of those that the zero side compares. -/
theorem zeroSide_operand (h : body.zeroSide op .inside = some x) :
    ∃ left kind right, body.binaryParts op = some (left, kind, right) ∧ (x = left ∨ x = right) := by
  obtain ⟨⟨left, kind, right⟩, hordered, hside⟩ := bind_eq_some_iff.mp h
  obtain ⟨hkind, hwritten⟩ := ordered_parts hordered
  have hx : x = right := by
    obtain rfl | rfl := hkind
    · exact (Option.some.inj (ite_none_right_eq_some.mp hside).2).symm
    · exact (Option.some.inj (ite_none_right_eq_some.mp hside).2).symm
  obtain hwritten | ⟨turned, -, hwritten⟩ := hwritten
  · exact ⟨left, kind, right, hwritten, .inr hx⟩
  · exact ⟨right, turned, left, hwritten, .inl hx⟩

/-- Two halves of one expression are held apart, so that their common operand is read alike. -/
theorem halves_same {zero bound x left right : Operand}
    {zeroRight boundRight : Bool} (hsides : zeroRight ≠ boundRight)
    (hzeroHeld : ∀ child, zero = .expr child → body.holder child = .operandOf id zeroRight)
    (hboundHeld : ∀ child, bound = .expr child → body.holder child = .operandOf id boundRight)
    (hzero : body.zeroSide zero .inside = some x)
    (hbound : body.boundSide bound x .inside = some (left, kind, right)) (hs : meaning.reached s) :
    meaning.run left s = meaning.run x s ∧ ∃ value, meaning.run left s = readOf value s := by
  obtain ⟨hordered, hsame, -⟩ := boundSide_parts hbound
  have hx (child) (h : x = .expr child) :
      ∃ e isRight, zero = .expr e ∧ body.holder child = .operandOf e isRight := by
    obtain ⟨l, k, r, hparts, hx⟩ := zeroSide_operand hzero
    exact binaryParts_holder hparts (hx.imp (fun hl => hl.symm.trans h) fun hr => hr.symm.trans h)
  have hleft (child) (h : left = .expr child) :
      ∃ e isRight, bound = .expr e ∧ body.holder child = .operandOf e isRight := by
    obtain ⟨-, hwritten | ⟨turned, -, hwritten⟩⟩ := ordered_parts hordered
    · exact binaryParts_holder hwritten (.inl h)
    · exact binaryParts_holder hwritten (.inr h)
  refine operandSame_run meaning hsame (fun child index h hlet => ?_) (fun child index h hlet => ?_)
    (fun child h h' => ?_) hs
  · obtain ⟨e, isRight, -, hheld⟩ := hleft child h
    rw [hheld] at hlet
    cases hlet
  · obtain ⟨e, isRight, -, hheld⟩ := hx child h
    rw [hheld] at hlet
    cases hlet
  · obtain ⟨e, isRight, rfl, hheld⟩ := hleft child h
    obtain ⟨e', isRight', rfl, hheld'⟩ := hx child h'
    rw [hheld] at hheld'
    obtain ⟨rfl, -⟩ := Holder.operandOf.inj hheld'
    have hsame := (hboundHeld e rfl).symm.trans (hzeroHeld e rfl)
    exact hsides (Holder.operandOf.inj hsame).2.symm

end Sides

section Numbers

/-- A pattern of half a power is below a bound exactly where its number is not negative and
below the bound. -/
theorem emod_lt_iff {half number bound : Int} (hlow : -half ≤ number) (hhigh : number < half)
    (hbound : bound < half) (hpos : 0 ≤ bound) :
    (number % (2 * half) < bound % (2 * half) ↔ 0 ≤ number ∧ number < bound) ∧
      (number % (2 * half) ≤ bound % (2 * half) ↔ 0 ≤ number ∧ number ≤ bound) := by
  have hboundMod : bound % (2 * half) = bound := Int.emod_eq_of_lt hpos (by omega)
  rw [hboundMod]
  by_cases hneg : 0 ≤ number
  · rw [Int.emod_eq_of_lt hneg (by omega)]
    constructor <;> omega
  · have hmod : number % (2 * half) = number + 2 * half := by
      rw [← Int.add_emod_right, Int.emod_eq_of_lt (by omega) (by omega)]
    rw [hmod]
    constructor <;> omega

variable {type unsigned : IntType}

theorem unsignedOf_cases (h : unsignedOf type = some unsigned) :
    (type = ⟨true, 32⟩ ∧ unsigned = ⟨false, 32⟩) ∨
      (type = ⟨true, 64⟩ ∧ unsigned = ⟨false, 64⟩) := by
  unfold unsignedOf at h
  split at h
  next htype => exact .inl ⟨htype, (Option.some.inj h).symm⟩
  next =>
    split at h
    next htype => exact .inr ⟨htype, (Option.some.inj h).symm⟩
    next => cases h

/-- A number against a bound of the same type that is not negative: the unsigned comparison
holds exactly where the number is not negative and the signed one holds. -/
theorem cast_holds (h : unsignedOf type = some unsigned)
    (hkind : kind = .lt ∨ kind = .ltEq) {number bound : Int}
    (hnumber : Within type number) (hbound : Within type bound) (hpos : 0 ≤ bound) :
    kind.holdsOn (castTo unsigned (.int number : Val Obj)) (castTo unsigned (.int bound)) =
      (decide (0 ≤ number) && kind.holds number bound) := by
  obtain ⟨half, hpow, hlow, hhigh, hlast⟩ : ∃ half : Int, 2 ^ unsigned.width = 2 * half ∧
      -half ≤ number ∧ number < half ∧ bound < half := by
    obtain ⟨rfl, rfl⟩ | ⟨rfl, rfl⟩ := unsignedOf_cases h
    · exact ⟨2 ^ 31, by decide, hnumber.1, hnumber.2, hbound.2⟩
    · exact ⟨2 ^ 63, by decide, hnumber.1, hnumber.2, hbound.2⟩
  have hiff := emod_lt_iff hlow hhigh hlast hpos
  rw [castTo, castTo, hpow]
  obtain rfl | rfl := hkind
  · exact (decide_eq_decide.mpr hiff.1).trans (Bool.decide_and _ _)
  · exact (decide_eq_decide.mpr hiff.2).trans (Bool.decide_and _ _)

end Numbers

section Conjunctions

variable {body : Body} (meaning : Meaning body Obj World)

variable {left right : Operand} {op : BinaryOp} {out : Fused}

/-- An expression that the rule rewrites: its parts, and which half is which. -/
theorem applyExpr_parts
    (hkind : body.exprs id = .binary left op right) (hop : op = .and ∨ op = .bitAnd)
    (h : body.applyExpr id = some out) :
    body.isBool id = true ∧ body.isPureNontrapping right = true ∧
      (body.halves left right .inside).or (body.halves right left .inside) =
        some (out.left, out.op, out.right) ∧
      ∃ type, body.operandType out.left = some type ∧ unsignedOf type = some out.unsigned := by
  obtain ⟨⟨l, k, r⟩, hfused, hrest⟩ := bind_eq_some_iff.mp h
  obtain ⟨unsigned, hunsigned, hout⟩ := bind_eq_some_iff.mp hrest
  obtain ⟨type, htype, hof⟩ := bind_eq_some_iff.mp hunsigned
  obtain rfl := Option.some.inj hout
  rw [fused, hkind] at hfused
  have hinside : (if !body.isBool id || !body.isPureNontrapping right then none
      else (body.halves left right .inside).or (body.halves right left .inside)) =
        some (l, k, r) := by
    obtain rfl | rfl := hop <;> exact hfused
  split at hinside
  next => cases hinside
  next hguard =>
    rw [Bool.or_eq_true, not_or, Bool.not_eq_true', Bool.not_eq_true', Bool.not_eq_false,
      Bool.not_eq_false] at hguard
    exact ⟨hguard.1, hguard.2, hinside, type, htype, hof⟩

variable {first second : Bool}

/-- How the conjunction runs where its left half gives a truth value and its right half gives
another, if it runs. -/
theorem conjunction_run
    (hkind : body.exprs id = .binary left op right) (hop : op = .and ∨ op = .bitAnd)
    (hbool : body.isBool id = true) {s t t' : State Obj World}
    (hs : meaning.reached s) (hleft : meaning.run left s = .next (.bool first) t)
    (hright : meaning.run right t = .next (.bool second) t') :
    (op = .and ∧ first = false ∧ meaning.run (.expr id) s = .next (.bool false) t) ∨
      meaning.run (.expr id) s = .next (.bool (first && second)) t' := by
  obtain rfl | rfl := hop
  · rw [meaning.run_and hkind hs, runAnd, hleft, next_andThen]
    cases first with
    | true => exact .inr hright
    | false => exact .inl ⟨rfl, rfl, rfl⟩
  · right
    rw [meaning.run_bitAnd hkind hbool hs, runBoth, hleft, next_andThen, hright]
    rfl

variable {left right x index bound : Operand}

variable {op kind : BinaryOp}

/-- What the halves of a conjunction that is tested against zero first give. -/
theorem zeroFirst_reads (hkind : body.exprs id = .binary left op right)
    (hpure : body.isPureNontrapping right = true) (hzero : body.zeroSide left .inside = some x)
    (hbound : body.boundSide right x .inside = some (index, kind, bound)) (hs : meaning.reached s) :
    ∃ v w s', meaning.run x s = .next v s ∧ meaning.run index s = .next v s ∧
      meaning.run bound s = .next w s' ∧
      meaning.run right s = .next (.bool (kind.holdsOn v w)) s' ∧
      Off (meaning.ownLocals right) s s' := by
  obtain ⟨hordered, -, -⟩ := boundSide_parts hbound
  obtain ⟨result, s', hrun, hoff⟩ := meaning.run_pure hpure hs
  have hsame {t : State Obj World} (ht : meaning.reached t) :
      meaning.run index t = meaning.run x t ∧ ∃ value, meaning.run index t = readOf value t :=
    halves_same meaning Bool.false_ne_true (fun child h => body.holder_left (h ▸ hkind))
      (fun child h => body.holder_right (h ▸ hkind)) hzero hbound ht
  obtain ⟨heq, value, hread⟩ := hsame hs
  obtain ⟨-, hwritten⟩ | ⟨-, hwritten⟩ := ordered_run meaning hordered
  · -- the operand is read first, and its read has no effect
    rw [hwritten s hs, runBoth, hread] at hrun
    cases value with
    | none => cases hrun
    | some v =>
      rw [readOf, next_andThen] at hrun
      obtain ⟨w, t, hboundRun, hresult⟩ := andThen_eq_next hrun
      obtain ⟨-, rfl⟩ := next_inj hresult
      refine ⟨v, w, t, heq.symm.trans hread, hread, hboundRun, ?_, hoff⟩
      rw [hwritten s hs, runBoth, hread, readOf, next_andThen, hboundRun, next_andThen]
  · -- the bound is evaluated first, and binds nothing that the operand reads
    rw [hwritten s hs, runBoth] at hrun
    obtain ⟨w, t, hboundRun, hlast⟩ := andThen_eq_next hrun
    have ht := meaning.reached_run hs hboundRun
    obtain ⟨heqLast, valueLast, hreadLast⟩ := hsame ht
    rw [hreadLast] at hlast
    cases valueLast with
    | none => cases hlast
    | some v =>
      obtain ⟨-, rfl⟩ := next_inj hlast
      obtain ⟨a, k, b, hparts, hx⟩ := zeroSide_operand hzero
      have hxRun := meaning.outside hkind hparts hx ht hs hoff.symm (heqLast.symm.trans hreadLast)
      refine ⟨v, w, t, hxRun, heq.trans hxRun, hboundRun, ?_, hoff⟩
      rw [hwritten s hs, runBoth, hboundRun, next_andThen, hreadLast, readOf, next_andThen]

/-- The conjunction that tests against zero first is what it fuses into. -/
theorem zeroFirst_alike
    (hkind : body.exprs id = .binary left op right) (hop : op = .and ∨ op = .bitAnd)
    (hbool : body.isBool id = true) (hpure : body.isPureNontrapping right = true)
    (htype : body.operandType out.left = some type)
    (hunsigned : unsignedOf type = some out.unsigned)
    (hhalves : body.halves left right .inside = some (out.left, out.op, out.right))
    (hs : meaning.reached s) :
    Alike (meaning.ownLocals right) (meaning.run (.expr id) s) (out.run meaning s) := by
  obtain ⟨x, hzero, hbound⟩ := bind_eq_some_iff.mp hhalves
  obtain ⟨hordered, -, hnonNegative⟩ := boundSide_parts hbound
  obtain ⟨v, w, s', hx, hindex, hboundRun, hright, hoff⟩ :=
    zeroFirst_reads meaning hkind hpure hzero hbound hs
  obtain ⟨number, rfl, hnumber⟩ := meaning.run_typed htype hs hindex
  obtain ⟨last, rfl, hlast⟩ :=
    meaning.run_typed ((ordered_type meaning hordered).symm.trans htype) hs hboundRun
  have hread : meaning.run x s = readOf (some (.int number)) s := hx
  have hleft : meaning.run left s = .next (.bool (decide (0 ≤ number))) s :=
    zeroSide_run meaning hzero hs hread
  have hlastPos := nonNegative_run meaning hnonNegative hs hboundRun
  have hout : out.run meaning s =
      .next (.bool (decide (0 ≤ number) && out.op.holds number last)) s' := by
    rw [Fused.run, runBoth, hindex, next_andThen, hboundRun, next_andThen,
      cast_holds hunsigned (ordered_parts hordered).1 hnumber hlast hlastPos]
  rw [hout]
  obtain ⟨-, hneg, hrun⟩ | hrun := conjunction_run meaning hkind hop hbool hs hleft hright
  · rw [hrun, hneg]
    exact Alike.next _ hoff
  · rw [hrun]
    exact Alike.next _ (Off.refl s')

/-- A conjunction whose left half is left early is left there. -/
theorem conjunction_left
    (hkind : body.exprs id = .binary left op right) (hop : op = .and ∨ op = .bitAnd)
    (hbool : body.isBool id = true) (hs : meaning.reached s)
    (hexit : (meaning.run left s).exit ≠ .next) :
    meaning.run (.expr id) s = meaning.run left s := by
  obtain rfl | rfl := hop
  · rw [meaning.run_and hkind hs, runAnd, andThen_left hexit]
  · rw [meaning.run_bitAnd hkind hbool hs, runBoth, andThen_left hexit]

/-- Where the right half tests against zero, the checked operand reads as a number everywhere. -/
theorem boundFirst_reads (hkind : body.exprs id = .binary left op right)
    (hpure : body.isPureNontrapping right = true) (hzero : body.zeroSide right .inside = some x)
    (hbound : body.boundSide left x .inside = some (index, kind, bound))
    (htype : body.operandType index = some type) (hs : meaning.reached s) :
    ∃ number, meaning.run index s = .next (.int number) s ∧
      meaning.run x s = .next (.int number) s ∧ Within type number ∧
      meaning.run right s = .next (.bool (decide (0 ≤ number))) s := by
  obtain ⟨heq, value, hread⟩ := halves_same meaning Bool.false_ne_true.symm
    (fun child h => body.holder_right (h ▸ hkind)) (fun child h => body.holder_left (h ▸ hkind))
    hzero hbound hs
  have hright := zeroSide_run meaning hzero hs (heq.symm.trans hread)
  obtain ⟨result, s', hrun, -⟩ := meaning.run_pure hpure hs
  cases value with
  | none =>
    rw [hright] at hrun
    cases hrun
  | some v =>
    obtain ⟨number, rfl, hnumber⟩ := meaning.run_typed htype hs hread
    exact ⟨number, hread, heq.symm.trans hread, hnumber, hright⟩

theorem alike_bool_iff {hidden : List Nat} {a b : Bool} :
    Alike hidden (.next (.bool a) s) (.next (.bool b) s) ↔ a = b := by
  constructor
  · intro h
    exact Val.bool.inj h.value
  · rintro rfl
    exact Alike.next _ (Off.refl s)

theorem both_bounds_iff (p q : Prop) [Decidable p] [Decidable q] (b b' : Bool) :
    (b' && decide q) = (decide p && b) ↔ (p ∧ b = true ↔ q ∧ b' = true) := by
  rw [Bool.eq_iff_iff, Bool.and_eq_true, Bool.and_eq_true, decide_eq_true_iff, decide_eq_true_iff,
    and_comm]
  exact iff_comm

theorem same_bound_iff (p q : Prop) [Decidable p] [Decidable q] (b : Bool) :
    (b && decide q) = (decide p && b) ↔ (b = true → (p ↔ q)) := by
  rw [both_bounds_iff]
  cases b <;> simp

/-- The condition on a bound, at what the operands read. -/
theorem boundKeeps_iff
    (hfirst : body.halves left right .inside = none) (hzero : body.zeroSide right .inside = some x)
    (hordered : body.ordered left = some (index, kind, bound))
    {m v v' : Int} (hbound : meaning.run bound s = .next (.int m) s')
    (hindex : meaning.run index s = .next (.int v) s) (hx : meaning.run x s' = .next (.int v') s') :
    BoundKeeps meaning left right s ↔ if body.binaryParts left = some (index, kind, bound) then
        kind.holds v m = true → (0 ≤ v ↔ 0 ≤ v')
      else (0 ≤ v ∧ kind.holds v m = true ↔ 0 ≤ v' ∧ kind.holds v' m = true) := by
  constructor
  · intro h
    obtain h | h := h
    · rw [hfirst] at h
      cases h
    · exact h x index kind bound m s' v v' hzero hordered hbound hindex hx
  · intro h
    right
    intro x₁ index₁ kind₁ bound₁ m₁ t v₁ v₁' hzero₁ hordered₁ hbound₁ hindex₁ hx₁
    obtain rfl := Option.some.inj (hzero.symm.trans hzero₁)
    obtain ⟨rfl, rfl, rfl⟩ := Option.some.inj (hordered.symm.trans hordered₁)
    obtain ⟨hm, rfl⟩ := next_inj (hbound.symm.trans hbound₁)
    obtain rfl := Val.int.inj hm
    obtain rfl := Val.int.inj (next_inj (hindex.symm.trans hindex₁)).1
    obtain rfl := Val.int.inj (next_inj (hx.symm.trans hx₁)).1
    exact h

/-- A conjunction whose halves both give a truth value gives the conjunction of the two. -/
theorem conjunction_both
    (hkind : body.exprs id = .binary left op right) (hop : op = .and ∨ op = .bitAnd)
    (hbool : body.isBool id = true)
    (hs : meaning.reached s) (hleft : meaning.run left s = .next (.bool first) t)
    (hright : meaning.run right t = .next (.bool second) t) :
    meaning.run (.expr id) s = .next (.bool (first && second)) t := by
  obtain ⟨-, rfl, hrun⟩ | hrun := conjunction_run meaning hkind hop hbool hs hleft hright
  · exact hrun
  · exact hrun

/-- The conjunction that tests against its bound first is what it fuses into exactly where the
bound keeps the checked operand in or out of the range. -/
theorem boundFirst_iff
    (hkind : body.exprs id = .binary left op right) (hop : op = .and ∨ op = .bitAnd)
    (hbool : body.isBool id = true) (hpure : body.isPureNontrapping right = true)
    (htype : body.operandType out.left = some type)
    (hunsigned : unsignedOf type = some out.unsigned)
    (hfirst : body.halves left right .inside = none)
    (hhalves : body.halves right left .inside = some (out.left, out.op, out.right))
    (hs : meaning.reached s) :
    Alike (meaning.ownLocals right) (meaning.run (.expr id) s) (out.run meaning s) ↔
      BoundKeeps meaning left right s := by
  obtain ⟨x, hzero, hbound⟩ := bind_eq_some_iff.mp hhalves
  obtain ⟨hordered, -, hnonNegative⟩ := boundSide_parts hbound
  obtain ⟨number, hindex, -, hnumber, -⟩ :=
    boundFirst_reads meaning hkind hpure hzero hbound htype hs
  have hout : out.run meaning s = (meaning.run out.right s).andThen fun w t =>
      .next (.bool (out.op.holdsOn (castTo out.unsigned (.int number))
        (castTo out.unsigned w))) t := by
    rw [Fused.run, runBoth, hindex, next_andThen]
  by_cases hexit : (meaning.run out.right s).exit = .next
  · obtain ⟨w, s', hboundRun⟩ : ∃ w s', meaning.run out.right s = .next w s' :=
      ⟨_, _, eq_next hexit⟩
    have hs' := meaning.reached_run hs hboundRun
    obtain ⟨last, rfl, hlast⟩ :=
      meaning.run_typed ((ordered_type meaning hordered).symm.trans htype) hs hboundRun
    obtain ⟨after, hindexAfter, hxAfter, -, hright⟩ :=
      boundFirst_reads meaning hkind hpure hzero hbound htype hs'
    rw [hboundRun, next_andThen, cast_holds hunsigned (ordered_parts hordered).1 hnumber hlast
      (nonNegative_run meaning hnonNegative hs hboundRun)] at hout
    rw [hout, boundKeeps_iff meaning hfirst hzero hordered hboundRun hindex hxAfter]
    obtain ⟨hparts, hwritten⟩ | ⟨hparts, hwritten⟩ := ordered_run meaning hordered
    · have hleft : meaning.run left s = .next (.bool (out.op.holds number last)) s' := by
        rw [hwritten s hs, runBoth, hindex, next_andThen, hboundRun, next_andThen]
        rfl
      rw [conjunction_both meaning hkind hop hbool hs hleft hright, alike_bool_iff, if_pos hparts]
      exact same_bound_iff _ _ _
    · have hleft : meaning.run left s = .next (.bool (out.op.holds after last)) s' := by
        rw [hwritten s hs, runBoth, hboundRun, next_andThen, hindexAfter, next_andThen]
        rfl
      rw [conjunction_both meaning hkind hop hbool hs hleft hright, alike_bool_iff, if_neg hparts]
      exact both_bounds_iff _ _ _ _
  · have hleft : meaning.run left s = meaning.run out.right s := by
      obtain ⟨-, hwritten⟩ | ⟨-, hwritten⟩ := ordered_run meaning hordered
      · rw [hwritten s hs, runBoth, hindex, next_andThen, andThen_left hexit]
      · rw [hwritten s hs, runBoth, andThen_left hexit]
    have hrun := conjunction_left meaning hkind hop hbool hs (hleft ▸ hexit)
    rw [hrun, hleft, hout, andThen_left hexit]
    refine iff_of_true ⟨rfl, rfl, Off.refl _⟩ (.inr ?_)
    intro x' index' kind' bound' m s' v v' _ hordered' hboundRun
    rw [hordered] at hordered'
    obtain ⟨rfl, rfl, rfl⟩ := Option.some.inj hordered'
    rw [hboundRun] at hexit
    exact absurd rfl hexit

/-- A conjunction does what it fuses into exactly where its bound, if that is evaluated before
the test against zero, keeps the checked operand in or out of the range. -/
theorem applyExpr_exact {id : Nat} {left right : Operand} {op : BinaryOp} {out : Fused}
    (hkind : body.exprs id = .binary left op right) (hop : op = .and ∨ op = .bitAnd)
    (h : body.applyExpr id = some out) {s : State Obj World} (hs : meaning.reached s) :
    Alike (meaning.ownLocals right) (meaning.run (.expr id) s) (out.run meaning s) ↔
      BoundKeeps meaning left right s := by
  obtain ⟨hbool, hpure, hhalves, type, htype, hunsigned⟩ := applyExpr_parts hkind hop h
  obtain hzeroFirst | ⟨hnone, hboundFirst⟩ := Option.or_eq_some_iff.mp hhalves
  · refine iff_of_true
      (zeroFirst_alike meaning hkind hop hbool hpure htype hunsigned hzeroFirst hs) (.inl ?_)
    rw [hzeroFirst]
    rfl
  · exact boundFirst_iff meaning hkind hop hbool hpure htype hunsigned hnone hboundFirst hs

end Conjunctions

section Moving

def zeroConst : IntConst := ⟨⟨true, 32⟩, 0, by decide⟩

/-- `x < { x = -1; xs }.used && 0 <= x`, with `x` the local 0. -/
def movingBody : Body where
  exprs
    | 0 => .binary (.expr 1) .and (.expr 4)
    | 1 => .binary (.expr 2) .lt (.expr 3)
    | 2 => .localVar 0
    | 3 => .fieldAccess true 1
    | 4 => .binary (.value 0) .ltEq (.expr 5)
    | 5 => .localVar 0
    | _ => .other
  values := fun _ => .int zeroConst
  operandType := fun op =>
    if op ∈ [.expr 2, .expr 3, .expr 5, .value 0] then some ⟨true, 32⟩ else none
  isBool := fun _ => true
  binds := fun _ => none
  captureBlockBinding := fun _ => none
  isPureNontrapping := fun op => op == .expr 4
  holder
    | 1 => .operandOf 0 false
    | 4 => .operandOf 0 true
    | 2 => .operandOf 1 false
    | 3 => .operandOf 1 true
    | 5 => .operandOf 4 true
    | _ => .letOf 0
  holder_left := by
    intro id child op right h
    rcases id with _ | _ | _ | _ | _ | _ | id <;> cases h <;> rfl
  holder_right := by
    intro id child op left h
    rcases id with _ | _ | _ | _ | _ | _ | id <;> cases h <;> rfl
  holder_let := fun h => nomatch h

/-- How the operands of the example run: the bound is 1, and sets the local to -1. -/
def movingRun : Operand → State Unit Unit → Outcome Unit Unit
  | .value _ => fun s => .next (.int 0) s
  | .expr 2 => fun s => .next (s.locals 0) s
  | .expr 3 => fun s => .next (.int 1) (s.set 0 (.int (-1)))
  | .expr 5 => fun s => .next (s.locals 0) s
  | .expr 1 => runBoth (fun s => .next (s.locals 0) s)
      (fun s => .next (.int 1) (s.set 0 (.int (-1)))) BinaryOp.lt.holdsOn
  | .expr 4 => runBoth (fun s => .next (.int 0) s) (fun s => .next (s.locals 0) s)
      BinaryOp.ltEq.holdsOn
  | .expr 0 => runAnd
      (runBoth (fun s => .next (s.locals 0) s) (fun s => .next (.int 1) (s.set 0 (.int (-1))))
        BinaryOp.lt.holdsOn)
      (runBoth (fun s => .next (.int 0) s) (fun s => .next (s.locals 0) s)
        BinaryOp.ltEq.holdsOn)
  | .expr _ => .trap

/-- The local holds an `i32`. -/
def movingReached (s : State Unit Unit) : Prop :=
  ∃ number, s.locals 0 = .int number ∧ Within ⟨true, 32⟩ number

theorem movingRun_state {s s' : State Unit Unit} {v : Val Unit}
    (hs : movingReached s) (h : movingRun op s = .next v s') :
    s' = s ∨ s' = s.set 0 (.int (-1)) := by
  obtain ⟨number, hx, -⟩ := hs
  cases op with
  | value id => exact .inl (next_inj h).2.symm
  | expr id =>
    rcases id with _ | _ | _ | _ | _ | _ | id
    · simp only [movingRun, runAnd, runBoth, next_andThen] at h
      split at h
      · exact .inr (next_inj h).2.symm
      · exact .inr (next_inj h).2.symm
    · exact .inr (next_inj h).2.symm
    · exact .inl (next_inj h).2.symm
    · exact .inr (next_inj h).2.symm
    · exact .inl (next_inj h).2.symm
    · exact .inl (next_inj h).2.symm
    · cases (mk.inj h).1

def movingMeaning : Meaning movingBody Unit Unit where
  run := movingRun
  reached := movingReached
  ownLocals := fun _ => []
  reached_run := by
    intro op s v s' hs h
    obtain rfl | rfl := movingRun_state hs h
    · exact hs
    · exact ⟨-1, rfl, by decide⟩
  run_local := by
    intro id index s h hs
    rcases id with _ | _ | _ | _ | _ | _ | id <;> cases h <;> rfl
  run_value := fun id _ => ⟨some (.int 0), rfl⟩
  run_int := by
    intro id value s h hs
    obtain rfl := ValueKind.int.inj h
    rfl
  run_order := by
    intro op left kind right s h horder hs
    cases op with
    | value id => cases h
    | expr id =>
      rcases id with _ | _ | _ | _ | _ | _ | id <;> cases h
      · cases horder
      · rfl
      · rfl
  run_and := by
    intro id left right s h hs
    rcases id with _ | _ | _ | _ | _ | _ | id <;> cases h
    rfl
  run_bitAnd := by
    intro id left right s h
    rcases id with _ | _ | _ | _ | _ | _ | id <;> cases h
  run_typed := by
    intro op type s v s' h hs hrun
    obtain ⟨number, hx, hnumber⟩ := hs
    obtain ⟨hmem, htype⟩ := Option.ite_none_right_eq_some.mp h
    rw [← Option.some.inj htype]
    simp only [List.mem_cons, List.not_mem_nil, or_false] at hmem
    obtain rfl | rfl | rfl | rfl := hmem
    · exact ⟨number, by rw [← (next_inj hrun).1, hx], hnumber⟩
    · exact ⟨1, (next_inj hrun).1.symm, by decide⟩
    · exact ⟨number, by rw [← (next_inj hrun).1, hx], hnumber⟩
    · exact ⟨0, (next_inj hrun).1.symm, by decide⟩
  type_order := by
    intro op left kind right h horder
    cases op with
    | value id => cases h
    | expr id =>
      rcases id with _ | _ | _ | _ | _ | _ | id <;> cases h
      · cases horder
      · rfl
      · rfl
  run_length := by
    intro op s v s' h hs hrun
    cases op with
    | value id => cases h
    | expr id =>
      rcases id with _ | _ | _ | _ | _ | _ | id <;> cases h
      exact ⟨1, (next_inj hrun).1.symm, by decide, by decide⟩
  bind_local := fun _ h => nomatch h
  bind_value := fun _ h => nomatch h
  bind_from := fun _ h => nomatch h
  capture_from := fun h => nomatch h
  run_pure := by
    intro op s h hs
    obtain rfl := beq_iff_eq.mp h
    exact ⟨_, s, rfl, Off.refl s⟩
  outside := by
    intro id left op right a kind b x s s' v _ _ _ _ _ hoff hrun
    obtain rfl : s = s' := state_eq hoff.world fun i => hoff.locals i List.not_mem_nil
    exact hrun

/-- The local is 0. -/
def movingState : State Unit Unit := ⟨fun _ => .int 0, ()⟩

theorem movingState_reached : movingMeaning.reached movingState := ⟨0, rfl, by decide⟩

theorem applyExpr_exact_moving :
    Alike (movingMeaning.ownLocals (.expr 4)) (movingMeaning.run (.expr 0) movingState)
        (Fused.run movingMeaning ⟨.expr 2, .lt, .expr 3, ⟨false, 32⟩⟩ movingState) ↔
      BoundKeeps movingMeaning (.expr 1) (.expr 4) movingState :=
  applyExpr_exact movingMeaning
    (show movingBody.exprs 0 = .binary (.expr 1) .and (.expr 4) from rfl) (.inl rfl) rfl
    movingState_reached

/-- The conjunction is false, since the local is -1 when it is tested; the fused comparison read
it before, and is true. -/
theorem applyExpr_moved : movingBody.applyExpr 0 = some ⟨.expr 2, .lt, .expr 3, ⟨false, 32⟩⟩ ∧
      movingMeaning.reached movingState ∧
      (movingMeaning.run (.expr 0) movingState).value = .bool false ∧
      (Fused.run movingMeaning ⟨.expr 2, .lt, .expr 3, ⟨false, 32⟩⟩ movingState).value =
        .bool true :=
  ⟨rfl, movingState_reached, rfl, rfl⟩

end Moving

end RangeCheck

end Wado.Nir
