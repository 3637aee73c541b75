/-
A call of a function whose written fields are known writes no other field, at
any depth of calls.
-/
import Wado.Wir.Writes

namespace Wado.Wir

open Option

variable {Op Ty Val Rest : Type}

namespace Direct

variable {package : WirPackage Op Ty}

/-- A node whose writes and calls are among those listed. -/
def Covers (package : WirPackage Op Ty) (direct : Direct) (head : Head Op Ty) : Prop :=
  ∀ fields, direct.own = some fields → match head with
    | .structSet _ fieldName => fieldName ∈ fields
    | .call funcId => ∃ position, package.definedFuncPosition funcId = some position ∧
        position ∈ direct.calls
    | .callIndirect _ _ => False
    | .callRef _ => False
    | _ => True

/-- What is listed later: more, or nothing known at all. -/
structure Grows (a b : Direct) : Prop where
  own : ∀ fields, b.own = some fields → ∃ fields', a.own = some fields' ∧ fields' ⊆ fields
  calls : a.calls ⊆ b.calls

theorem Grows.refl (a : Direct) : Grows a a :=
  ⟨fun fields h => ⟨fields, h, fun _ hx => hx⟩, fun _ hx => hx⟩

theorem Grows.trans {a b c : Direct} (h : Grows a b) (h' : Grows b c) : Grows a c := by
  refine ⟨?_, fun x hx => h'.calls (h.calls hx)⟩
  intro fields hfields
  obtain ⟨fields', hfields', hsub'⟩ := h'.own fields hfields
  obtain ⟨fields'', hfields'', hsub''⟩ := h.own fields' hfields'
  exact ⟨fields'', hfields'', fun x hx => hsub' (hsub'' hx)⟩

variable {a b : Direct}

theorem Covers.grows (h : Grows a b) (head : Head Op Ty)
    (hcovers : Covers package a head) : Covers package b head := by
  intro fields hfields
  obtain ⟨fields', hfields', hsub⟩ := h.own fields hfields
  have hhead := hcovers fields' hfields'
  cases head with
  | structSet typeId fieldName => exact hsub hhead
  | call funcId =>
    obtain ⟨position, hposition, hin⟩ := hhead
    exact ⟨position, hposition, h.calls hin⟩
  | _ => exact hhead

theorem ofNode_covers (head : Head Op Ty) (direct : Direct) :
    Grows direct (ofNode package head direct) ∧
      Covers package (ofNode package head direct) head := by
  cases head with
  | structSet typeId fieldName =>
    refine ⟨⟨?_, fun x hx => hx⟩, ?_⟩
    · intro fields hfields
      obtain ⟨own, hown, rfl⟩ := map_eq_some_iff.mp hfields
      exact ⟨own, hown, fun x hx => List.mem_insert_of_mem hx⟩
    · intro fields hfields
      obtain ⟨own, hown, rfl⟩ := map_eq_some_iff.mp hfields
      exact List.mem_insert_self
  | call funcId =>
    rw [ofNode]
    cases hposition : package.definedFuncPosition funcId with
    | none =>
      refine ⟨⟨?_, fun x hx => hx⟩, ?_⟩ <;> intro fields hfields <;> cases hfields
    | some position =>
      refine ⟨⟨fun fields h => ⟨fields, h, fun _ hx => hx⟩, ?_⟩, ?_⟩
      · exact List.subset_append_left _ _
      · exact fun fields hfields => ⟨position, hposition, by simp⟩
  | callIndirect typeId table =>
    refine ⟨⟨?_, fun x hx => hx⟩, ?_⟩ <;> intro fields hfields <;> cases hfields
  | callRef typeId =>
    refine ⟨⟨?_, fun x hx => hx⟩, ?_⟩ <;> intro fields hfields <;> cases hfields
  | _ => exact ⟨Grows.refl direct, fun fields hfields => trivial⟩

theorem everyHead_grows (h : Grows a b) (instr : WirInstr Op Ty)
    (hcovers : instr.EveryHead (Covers package a)) : instr.EveryHead (Covers package b) :=
  WirInstr.EveryHead.mono (Covers.grows h) instr hcovers

theorem everyHeadAll_grows (h : Grows a b) (instrs : List (WirInstr Op Ty))
    (hcovers : WirInstr.EveryHeadAll (Covers package a) instrs) :
    WirInstr.EveryHeadAll (Covers package b) instrs :=
  WirInstr.EveryHeadAll.mono (Covers.grows h) instrs hcovers

mutual

theorem writes_covers : ∀ (instr : WirInstr Op Ty) (direct : Direct),
    Grows direct (writes package instr direct) ∧
      instr.EveryHead (Covers package (writes package instr direct))
  | .block _ body, direct => writesAll_covers body direct
  | .loop body, direct => writesAll_covers body direct
  | .ite condition _ thenBody none, direct => by
    have hcondition := writes_covers condition direct
    have hthen := writesAll_covers thenBody (writes package condition direct)
    exact ⟨hcondition.1.trans hthen.1,
      everyHead_grows hthen.1 condition hcondition.2, hthen.2, trivial⟩
  | .ite condition _ thenBody (some elseBody), direct => by
    have hcondition := writes_covers condition direct
    have hthen := writesAll_covers thenBody (writes package condition direct)
    have helse := writesAll_covers elseBody
      (writesAll package thenBody (writes package condition direct))
    exact ⟨(hcondition.1.trans hthen.1).trans helse.1,
      everyHead_grows (hthen.1.trans helse.1) condition hcondition.2,
      everyHeadAll_grows helse.1 thenBody hthen.2, helse.2⟩
  | .node head operands, direct => by
    have hhead := @ofNode_covers Op Ty package head direct
    have hoperands := writesAll_covers operands (ofNode package head direct)
    exact ⟨hhead.1.trans hoperands.1, hhead.2.grows hoperands.1, hoperands.2⟩

theorem writesAll_covers : ∀ (instrs : List (WirInstr Op Ty)) (direct : Direct),
    Grows direct (writesAll package instrs direct) ∧
      WirInstr.EveryHeadAll (Covers package (writesAll package instrs direct)) instrs
  | [], direct => ⟨Grows.refl direct, trivial⟩
  | instr :: rest, direct => by
    have hinstr := writes_covers instr direct
    have hrest := writesAll_covers rest (writes package instr direct)
    exact ⟨hinstr.1.trans hrest.1, everyHead_grows hrest.1 instr hinstr.2, hrest.2⟩

end

end Direct

namespace CalleeWrites

variable {package : WirPackage Op Ty}

variable {index position : Nat}

section

variable (h : package.definedFuncPosition index = some position)
include h

theorem definedFuncPosition_eq_some :
    package.definedFuncBase ≤ index ∧ position = index - package.definedFuncBase := by
  unfold WirPackage.definedFuncPosition at h
  split at h
  next hrange => exact ⟨hrange.1, (Option.some.inj h).symm⟩
  · cases h

theorem of_position :
    (ofModule package).of index = (ofModule package).fields position := by
  obtain ⟨hbase, rfl⟩ := definedFuncPosition_eq_some h
  exact if_pos hbase

end

/-- Every node of a function's body writes and calls within its known row. -/
theorem body_confined {call : Caller Val Rest} {position : Nat} {func : WirFunction Op Ty}
    {body : List (WirInstr Op Ty)} {fields : List Ident} {f : Ident}
    (hfunc : package.functions[position]? = some func) (hbody : func.body = some body)
    (hfields : (ofModule package).fields position = some fields) (hf : f ∉ fields)
    (hcalls : ∀ index fields', (ofModule package).of index = some fields' → f ∉ fields' →
      CallKeeps call f index) :
    WirInstr.EveryHeadAll (Head.Confined call f) body := by
  obtain ⟨⟨own, hown, hsub⟩, hclosed⟩ := ofModule_closed hfields
  have hdirect : direct package position = Direct.writesAll package body ⟨some [], []⟩ := by
    rw [direct, hfunc]
    dsimp only
    rw [Direct.ofFunction, hbody]
  have hcovers := (@Direct.writesAll_covers Op Ty package body ⟨some [], []⟩).2
  rw [← hdirect] at hcovers
  refine WirInstr.EveryHeadAll.mono ?_ body hcovers
  intro head hhead
  have hhead' := hhead own hown
  cases head with
  | structSet typeId fieldName => exact fun heq => hf (hsub (heq ▸ hhead'))
  | call funcId =>
    obtain ⟨callee, hcallee, hin⟩ := hhead'
    by_cases hself : callee = position
    · subst hself
      exact hcalls funcId fields ((of_position hcallee).trans hfields) hf
    · have hcall : callee ∈ calls package position :=
        List.mem_filter.mpr ⟨List.mem_dedup.mpr hin, by simpa using hself⟩
      obtain ⟨written, hwritten, hsub'⟩ := hclosed callee hcall
      exact hcalls funcId written ((of_position hcallee).trans hwritten)
        (fun h => hf (hsub' h))
  | callIndirect typeId table => exact hhead'.elim
  | callRef typeId => exact hhead'.elim
  | _ => trivial

theorem finish_store (results : Nat) (outer : List Val) (outcome : Outcome Val Rest) :
    (outcome.finish results outer).2.2 = outcome.state.store := by
  unfold Outcome.finish
  split <;> rfl

variable (machine : Machine Op Val Rest)

/-- The table answers for every call of the module. -/
theorem run_keeps {f : Ident} (fuel : Nat) :
    ∀ index fields, (ofModule package).of index = some fields → f ∉ fields →
      CallKeeps (package.run machine fuel) f index := by
  induction fuel with
  | zero => exact fun index fields hof hf stack store => Store.Kept.refl f store
  | succ fuel ih =>
    intro index fields hof hf stack store
    have hbase : package.definedFuncBase ≤ index := by
      by_contra hlt
      rw [CalleeWrites.of, if_neg] at hof
      · cases hof
      · exact hlt
    have hfields : (ofModule package).fields (index - package.definedFuncBase) = some fields := by
      rw [← hof]
      exact (if_pos hbase).symm
    obtain ⟨⟨own, hown, -⟩, -⟩ := ofModule_closed hfields
    cases hfunc : package.functions[index - package.definedFuncBase]? with
    | none =>
      rw [ownFields, direct, hfunc] at hown
      cases hown
    | some func =>
      cases hbody : func.body with
      | none =>
        rw [ownFields, direct, hfunc] at hown
        simp only [Direct.ofFunction, hbody] at hown
        cases hown
      | some body =>
        have hposition : package.definedFuncPosition index =
            some (index - package.definedFuncBase) := by
          have hlt := (List.getElem?_eq_some_iff.mp hfunc).1
          rw [WirPackage.definedFuncPosition, if_pos ⟨hbase, hlt⟩]
        have hconfined := body_confined hfunc hbody hfields hf ih
        have hrun := @evalAll_framed Op Ty Val Rest _ machine (package.run machine fuel) fuel
          (keepsField_framed f) body
          (WirInstr.EveryHeadAll.mono (fun head h => step_keepsField h) body hconfined)
        rw [WirPackage.run, hposition]
        simp only [bind_some, hfunc, hbody]
        split
        · exact Store.Kept.refl f store
        · rw [finish_store]
          exact hrun ⟨_, [], store⟩

theorem calleesSound (fuel : Nat) :
    CalleesSound (some (ofModule package)) (package.run machine fuel) := by
  intro table htable funcId fields hof f hf
  cases htable
  exact run_keeps machine fuel funcId fields hof hf

end CalleeWrites

/-- A footprint bounds a run: whatever is run, with calls to any depth, a local it does not name
keeps its value, and where every callee is known, a field it does not name does in every object. -/
theorem footprint_sound (machine : Machine Op Val Rest) (package : WirPackage Op Ty)
    (depth fuel : Nat) (body : List (WirInstr Op Ty)) (s : State Val Rest) :
    let footprint := Footprint.writesAll (some (CalleeWrites.ofModule package)) body
    let t := (WirInstr.evalAll machine (package.run machine depth) fuel body s).state
    (∀ x ∉ footprint.locals, KeepsLocal x s t) ∧
      (footprint.call = false → ∀ f ∉ footprint.fields, KeepsField f s t) := by
  refine ⟨fun x hx => ?_, fun hcall f hf => ?_⟩
  · exact evalAll_framed (keepsLocal_framed x) body
      (WirInstr.EveryHeadAll.mono (fun _ h => step_keepsLocal h) body
        (Footprint.locals_writesAll _ body hx)) s
  · exact evalAll_framed (keepsField_framed f) body
      (WirInstr.EveryHeadAll.mono (fun _ h => step_keepsField h) body
        (Footprint.confined_writesAll (CalleeWrites.calleesSound machine depth) body hcall hf)) s

end Wado.Wir
