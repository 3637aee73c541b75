/-
A footprint bounds what a run writes: a local it does not name keeps its value,
and a field it does not name keeps its value in every object.
-/
import Wado.Wir.Frame

namespace Wado.Wir

open List

variable {Op Ty Val Rest : Type}

def KeepsLocal (x : Ident) (s t : State Val Rest) : Prop :=
  t.locals x = s.locals x

def KeepsField (f : Ident) (s t : State Val Rest) : Prop :=
  s.store.Kept f t.store

/-- A call of this function leaves a field alone in every object. -/
def CallKeeps (call : Caller Val Rest) (f : Ident) (funcId : Nat) : Prop :=
  ∀ (stack : List Val) (store : Store Val Rest), store.Kept f (call funcId stack store).2.2

theorem Store.Kept.refl (f : Ident) (store : Store Val Rest) : store.Kept f store :=
  fun _ _ h => h

variable {f : Ident}

theorem Store.Kept.trans {a b c : Store Val Rest} (h : a.Kept f b) (h' : b.Kept f c) : a.Kept f c :=
  fun address value hvalue => h' address value (h address value hvalue)

theorem Store.kept_setField {f g : Ident} (hne : g ≠ f) (store : Store Val Rest)
    (address : Nat) (value : Val) : store.Kept f (store.setField address g value) := by
  intro other old hold
  by_cases heq : other = address
  · subst heq
    simpa [Store.setField, Function.update_of_ne hne.symm] using hold
  · simpa [Store.setField, Function.update_of_ne heq] using hold

theorem keepsLocal_framed (x : Ident) : Framed (@KeepsLocal Val Rest x) where
  refl _ := rfl
  trans _ _ _ h h' := Eq.trans h' h
  stack _ _ _ _ h := h

theorem keepsField_framed (f : Ident) : Framed (@KeepsField Val Rest f) where
  refl s := Store.Kept.refl f s.store
  trans _ _ _ h h' := Store.Kept.trans h h'
  stack _ _ _ _ h := h

theorem State.bindAll_framed {R : State Val Rest → State Val Rest → Prop} (hR : Framed R)
    {targets : List (Option Ident)}
    (h : ∀ x ∈ targets.filterMap id, ∀ t value, R t (t.assign x value)) (s : State Val Rest) :
    R s (s.bindAll targets).state := by
  induction targets generalizing s with
  | nil => exact hR.refl s
  | cons target targets ih =>
    cases target with
    | none =>
      exact hR.pop fun _ t => ih (fun x hx => h x (by simpa using hx)) t
    | some name =>
      refine hR.pop fun value t => hR.trans _ _ _ (h name (by simp) t value) (ih ?_ _)
      exact fun x hx => h x (mem_cons_of_mem _ hx)

variable {machine : Machine Op Val Rest} {call : Caller Val Rest} {head : Head Op Ty}

theorem step_keepsLocal {x : Ident}
    (h : x ∉ head.localWrites) (dropped : Bool) (s : State Val Rest) :
    KeepsLocal x s (head.step machine call dropped s).state := by
  have hR := @keepsLocal_framed Val Rest x
  have hassign : ∀ name, name ≠ x → ∀ (t : State Val Rest) value,
      KeepsLocal x t (t.assign name value) :=
    fun name hne t value => Function.update_of_ne hne.symm _ _
  cases head with
  | localSet name =>
    exact hR.pop fun value t =>
      hassign name (fun heq => h (by simp [Head.localWrites, heq])) t value
  | localTee name =>
    exact hR.pop fun value t =>
      hassign name (fun heq => h (by simp [Head.localWrites, heq])) t value
  | structGet typeId fieldName resultTy =>
    refine hR.pop fun reference t => ?_
    split
    · exact hR.refl t
    · split
      · exact hR.refl t
      · exact hR.enter _
  | structSet typeId fieldName =>
    refine hR.pop fun value t => hR.pop fun reference t => ?_
    split
    · exact hR.refl t
    · split
      · exact hR.refl t
      · rfl
  | brIf depth =>
    refine hR.pop fun value t => ?_
    split <;> exact hR.refl t
  | brTable targets default => exact hR.pop fun value t => hR.refl t
  | drop =>
    rw [Head.step]
    split
    · exact hR.pop fun value t => hR.refl t
    · exact hR.refl s
  | callIndirect typeId table =>
    refine hR.pop fun value t => ?_
    unfold State.invokeRef
    split <;> rfl
  | callRef typeId =>
    refine hR.pop fun value t => ?_
    unfold State.invokeRef
    split <;> rfl
  | multiValueLocalBind locals =>
    refine State.bindAll_framed hR (fun name hname t value => hassign name ?_ t value) s
    intro heq
    subst heq
    exact h (by simpa [Head.localWrites] using hname)
  | op operation =>
    rw [Head.step, State.applyOp]
    split <;> rfl
  | _ => rfl

/-- A node that writes no field of this name, by itself or in what it calls. -/
def Head.Confined (call : Caller Val Rest) (f : Ident) : Head Op Ty → Prop
  | .structSet _ fieldName => fieldName ≠ f
  | .call funcId => CallKeeps call f funcId
  | .callIndirect _ _ => False
  | .callRef _ => False
  | _ => True

theorem step_keepsField (h : head.Confined call f) (dropped : Bool) (s : State Val Rest) :
    KeepsField f s (head.step machine call dropped s).state := by
  have hR := @keepsField_framed Val Rest f
  cases head with
  | localSet name => exact hR.pop fun value t => hR.refl t
  | localTee name => exact hR.pop fun value t => hR.refl t
  | structGet typeId fieldName resultTy =>
    refine hR.pop fun reference t => ?_
    split
    · exact hR.refl t
    · split
      · exact hR.refl t
      · exact hR.enter _
  | structSet typeId fieldName =>
    refine hR.pop fun value t => hR.pop fun reference t => ?_
    split
    · exact hR.refl t
    · split
      · exact hR.refl t
      · exact Store.kept_setField h _ _ _
  | brIf depth =>
    refine hR.pop fun value t => ?_
    split <;> exact hR.refl t
  | brTable targets default => exact hR.pop fun value t => hR.refl t
  | drop =>
    rw [Head.step]
    split
    · exact hR.pop fun value t => hR.refl t
    · exact hR.refl s
  | call funcId => exact h s.stack s.store
  | callIndirect typeId table => exact h.elim
  | callRef typeId => exact h.elim
  | multiValueLocalBind locals =>
    exact State.bindAll_framed hR (fun name hname t value => Store.Kept.refl f t.store) s
  | op operation =>
    rw [Head.step, State.applyOp]
    split
    · exact hR.refl s
    next stack store happly => exact machine.apply_kept _ _ _ _ _ _ happly
  | _ => exact Store.Kept.refl f s.store

/-- The callee table answers for the calls that are made. -/
def CalleesSound (callees : Option CalleeWrites) (call : Caller Val Rest) : Prop :=
  ∀ table, callees = some table → ∀ funcId fields, table.of funcId = some fields →
    ∀ f ∉ fields, CallKeeps call f funcId

theorem CalleesSound.arm {callees : Option CalleeWrites}
    (h : CalleesSound callees call) (arm : List (WirInstr Op Ty)) :
    CalleesSound (armCallees arm callees) call := by
  unfold armCallees
  split
  · intro table htable
    cases htable
  · exact h

namespace Footprint

variable {callees : Option CalleeWrites} {call : Caller Val Rest}

theorem locals_writesOfNode {x : Ident}
    (h : x ∉ (writesOfNode callees head).locals) : x ∉ head.localWrites := by
  cases head <;> first | exact h | simp [Head.localWrites]

theorem confined_writesOfNode (hsound : CalleesSound callees call)
    (hcall : (writesOfNode callees head).call = false)
    (h : f ∉ (writesOfNode callees head).fields) : head.Confined call f := by
  cases head with
  | structSet typeId fieldName =>
    rw [writesOfNode, mem_singleton] at h
    exact fun heq => h heq.symm
  | call funcId =>
    rw [writesOfNode] at hcall h
    cases callees with
    | none => cases hcall
    | some table =>
      simp only [Option.bind_some] at hcall h
      cases hof : table.of funcId with
      | none =>
        rw [hof] at hcall
        cases hcall
      | some fields =>
        rw [hof] at h
        exact hsound table rfl funcId fields hof f h
  | callIndirect typeId table => cases hcall
  | callRef typeId => cases hcall
  | _ => trivial

mutual

theorem locals_writes {x : Ident} : ∀ (callees : Option CalleeWrites) (instr : WirInstr Op Ty),
    x ∉ (writes callees instr).locals → instr.EveryHead fun head => x ∉ head.localWrites
  | callees, .block _ body, h => locals_writesAll callees body h
  | callees, .loop body, h => locals_writesAll callees body h
  | callees, .ite condition _ thenBody none, h => by
    simp only [writes, union, append_nil, mem_append, not_or] at h
    exact ⟨locals_writes callees condition h.1, locals_writesAll _ thenBody h.2, trivial⟩
  | callees, .ite condition _ thenBody (some elseBody), h => by
    simp only [writes, union, mem_append, not_or] at h
    exact ⟨locals_writes callees condition h.1, locals_writesAll _ thenBody h.2.1,
      locals_writesAll _ elseBody h.2.2⟩
  | callees, .node head operands, h => by
    simp only [writes, union, mem_append, not_or] at h
    exact ⟨locals_writesOfNode h.1, locals_writesAll callees operands h.2⟩

theorem locals_writesAll {x : Ident} :
    ∀ (callees : Option CalleeWrites) (instrs : List (WirInstr Op Ty)),
    x ∉ (writesAll callees instrs).locals →
      WirInstr.EveryHeadAll (fun head => x ∉ head.localWrites) instrs
  | _, [], _ => trivial
  | callees, instr :: rest, h => by
    simp only [writesAll, union, mem_append, not_or] at h
    exact ⟨locals_writes callees instr h.1, locals_writesAll callees rest h.2⟩

end

mutual

theorem confined_writes {f : Ident} :
    ∀ {callees : Option CalleeWrites} (_ : CalleesSound callees call) (instr : WirInstr Op Ty),
    (writes callees instr).call = false → f ∉ (writes callees instr).fields →
      instr.EveryHead (Head.Confined call f)
  | _, hsound, .block _ body, hcall, h => confined_writesAll hsound body hcall h
  | _, hsound, .loop body, hcall, h => confined_writesAll hsound body hcall h
  | _, hsound, .ite condition _ thenBody none, hcall, h => by
    simp only [writes, union, Bool.or_eq_false_iff] at hcall
    simp only [writes, union, append_nil, mem_append, not_or] at h
    exact ⟨confined_writes hsound condition hcall.1 h.1,
      confined_writesAll (hsound.arm thenBody) thenBody hcall.2.1 h.2, trivial⟩
  | _, hsound, .ite condition _ thenBody (some elseBody), hcall, h => by
    simp only [writes, union, Bool.or_eq_false_iff] at hcall
    simp only [writes, union, mem_append, not_or] at h
    exact ⟨confined_writes hsound condition hcall.1 h.1,
      confined_writesAll (hsound.arm thenBody) thenBody hcall.2.1 h.2.1,
      confined_writesAll (hsound.arm elseBody) elseBody hcall.2.2 h.2.2⟩
  | _, hsound, .node head operands, hcall, h => by
    simp only [writes, union, Bool.or_eq_false_iff] at hcall
    simp only [writes, union, mem_append, not_or] at h
    exact ⟨confined_writesOfNode hsound hcall.1 h.1, confined_writesAll hsound operands hcall.2 h.2⟩

theorem confined_writesAll {f : Ident} :
    ∀ {callees : Option CalleeWrites} (_ : CalleesSound callees call)
      (instrs : List (WirInstr Op Ty)),
    (writesAll callees instrs).call = false → f ∉ (writesAll callees instrs).fields →
      WirInstr.EveryHeadAll (Head.Confined call f) instrs
  | _, _, [], _, _ => trivial
  | _, hsound, instr :: rest, hcall, h => by
    simp only [writesAll, union, Bool.or_eq_false_iff] at hcall
    simp only [writesAll, union, mem_append, not_or] at h
    exact ⟨confined_writes hsound instr hcall.1 h.1, confined_writesAll hsound rest hcall.2 h.2⟩

end

end Footprint

end Wado.Wir
