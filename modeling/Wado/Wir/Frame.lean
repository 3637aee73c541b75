/-
What a run leaves as it was: a relation between states that every node's own
step respects holds across the whole run, however it ends.
-/
import Wado.Wir.CalleeWrites
import Wado.Wir.Exec

namespace Wado.Wir

open WirInstr

variable {Op Ty Val Rest : Type}

namespace WirInstr

mutual

/-- A property of every node of an instruction. -/
def EveryHead (P : Head Op Ty → Prop) : WirInstr Op Ty → Prop
  | .block _ body => EveryHeadAll P body
  | .loop body => EveryHeadAll P body
  | .ite condition _ thenBody elseBody =>
    condition.EveryHead P ∧ EveryHeadAll P thenBody ∧ match elseBody with
      | some elseBody => EveryHeadAll P elseBody
      | none => True
  | .node head operands => P head ∧ EveryHeadAll P operands

def EveryHeadAll (P : Head Op Ty → Prop) : List (WirInstr Op Ty) → Prop
  | [] => True
  | instr :: rest => instr.EveryHead P ∧ EveryHeadAll P rest

end

mutual

theorem EveryHead.mono {P Q : Head Op Ty → Prop} (h : ∀ head, P head → Q head) :
    ∀ instr : WirInstr Op Ty, instr.EveryHead P → instr.EveryHead Q
  | .block _ body, hP => EveryHeadAll.mono h body hP
  | .loop body, hP => EveryHeadAll.mono h body hP
  | .ite condition _ thenBody none, hP =>
    ⟨EveryHead.mono h condition hP.1, EveryHeadAll.mono h thenBody hP.2.1, trivial⟩
  | .ite condition _ thenBody (some elseBody), hP =>
    ⟨EveryHead.mono h condition hP.1, EveryHeadAll.mono h thenBody hP.2.1,
      EveryHeadAll.mono h elseBody hP.2.2⟩
  | .node head operands, hP => ⟨h head hP.1, EveryHeadAll.mono h operands hP.2⟩

theorem EveryHeadAll.mono {P Q : Head Op Ty → Prop} (h : ∀ head, P head → Q head) :
    ∀ instrs : List (WirInstr Op Ty), EveryHeadAll P instrs → EveryHeadAll Q instrs
  | [], _ => trivial
  | instr :: rest, hP => ⟨EveryHead.mono h instr hP.1, EveryHeadAll.mono h rest hP.2⟩

end

mutual

theorem everyHead_localNames {P : Ident → Prop} :
    ∀ instr : WirInstr Op Ty, (∀ x ∈ instr.localNames, P x) →
      instr.EveryHead fun head => ∀ x ∈ head.localNames, P x
  | .block _ body, h => everyHeadAll_localNames body h
  | .loop body, h => everyHeadAll_localNames body h
  | .ite condition _ thenBody none, h => by
    simp only [localNames, List.append_nil, List.mem_append] at h
    exact ⟨everyHead_localNames condition fun x hx => h x (Or.inl hx),
      everyHeadAll_localNames thenBody fun x hx => h x (Or.inr hx), trivial⟩
  | .ite condition _ thenBody (some elseBody), h => by
    simp only [localNames, List.mem_append] at h
    exact ⟨everyHead_localNames condition fun x hx => h x (Or.inl (Or.inl hx)),
      everyHeadAll_localNames thenBody fun x hx => h x (Or.inl (Or.inr hx)),
      everyHeadAll_localNames elseBody fun x hx => h x (Or.inr hx)⟩
  | .node head operands, h => by
    simp only [localNames, List.mem_append] at h
    exact ⟨fun x hx => h x (Or.inl hx),
      everyHeadAll_localNames operands fun x hx => h x (Or.inr hx)⟩

theorem everyHeadAll_localNames {P : Ident → Prop} :
    ∀ instrs : List (WirInstr Op Ty), (∀ x ∈ localNamesAll instrs, P x) →
      EveryHeadAll (fun head => ∀ x ∈ head.localNames, P x) instrs
  | [], _ => trivial
  | instr :: rest, h => by
    simp only [localNamesAll, List.mem_append] at h
    exact ⟨everyHead_localNames instr fun x hx => h x (Or.inl hx),
      everyHeadAll_localNames rest fun x hx => h x (Or.inr hx)⟩

end

end WirInstr

/-- A relation between states that says nothing of their stacks and composes. -/
structure Framed (R : State Val Rest → State Val Rest → Prop) : Prop where
  refl : ∀ s, R s s
  trans : ∀ s t u, R s t → R t u → R s u
  stack : ∀ s t stack stack', R s t → R { s with stack := stack } { t with stack := stack' }

namespace Framed

variable {R : State Val Rest → State Val Rest → Prop} {s t : State Val Rest}

theorem enter (hR : Framed R) (stack : List Val) : R s { s with stack := stack } :=
  hR.stack s s s.stack stack (hR.refl s)

variable {outcome : Outcome Val Rest}

theorem andThen (hR : Framed R) {k : State Val Rest → Outcome Val Rest} (h : R s outcome.state)
    (hk : ∀ t, R t (k t).state) : R s (outcome.andThen k).state := by
  unfold Outcome.andThen
  split
  · exact hR.trans _ _ _ h (hk _)
  · exact h

theorem leave (hR : Framed R) {arity : Nat} {outer : List Val}
    (h : R s outcome.state) : R s (outcome.leave arity outer).state := by
  unfold Outcome.leave
  split
  · exact hR.stack _ _ s.stack _ h
  · exact hR.stack _ _ s.stack _ h
  · exact h
  · exact h

theorem pop (hR : Framed R) {k : Val → State Val Rest → Outcome Val Rest}
    (hk : ∀ value t, R t (k value t).state) : R s (s.pop k).state := by
  unfold State.pop
  split
  · exact hR.refl s
  · exact hR.trans _ _ _ (hR.enter _) (hk _ _)

theorem iterate (hR : Framed R) {body : State Val Rest → Outcome Val Rest}
    (hbody : ∀ t, R t (body t).state) (fuel : Nat) : R s (Wir.iterate body fuel s).state := by
  induction fuel generalizing s with
  | zero => exact hR.refl s
  | succ fuel ih =>
    have hturn : R s (body { s with stack := [] }).state :=
      hR.trans _ _ _ (hR.enter []) (hbody _)
    rw [Wir.iterate]
    split
    · exact hR.trans _ _ _ hturn ih
    · exact hturn

end Framed

section

variable {R : State Val Rest → State Val Rest → Prop} {machine : Machine Op Val Rest}
  {call : Caller Val Rest} {fuel : Nat}

mutual

/-- A run frames what each of its steps frames. -/
theorem eval_framed (hR : Framed R) : ∀ instr : WirInstr Op Ty,
      instr.EveryHead (fun head => ∀ dropped s, R s (head.step machine call dropped s).state) →
      ∀ s, R s (instr.eval machine call fuel s).state
  | .block result body, h, s => by
    rw [eval]
    exact hR.leave (hR.trans _ _ _ (hR.enter []) (evalAll_framed hR body h _))
  | .loop body, h, s => by
    rw [eval]
    exact hR.leave (hR.iterate (evalAll_framed hR body h) fuel)
  | .ite condition result thenBody none, h, s => by
    rw [eval]
    refine hR.andThen (eval_framed hR condition h.1 s) fun t => hR.pop fun value t => ?_
    refine hR.leave ?_
    split
    · exact hR.trans _ _ _ (hR.enter []) (evalAll_framed hR thenBody h.2.1 _)
    · exact hR.enter []
  | .ite condition result thenBody (some elseBody), h, s => by
    rw [eval]
    refine hR.andThen (eval_framed hR condition h.1 s) fun t => hR.pop fun value t => ?_
    refine hR.leave ?_
    split
    · exact hR.trans _ _ _ (hR.enter []) (evalAll_framed hR thenBody h.2.1 _)
    · exact hR.trans _ _ _ (hR.enter []) (evalAll_framed hR elseBody h.2.2 _)
  | .node head operands, h, s => by
    rw [eval]
    exact hR.andThen (evalAll_framed hR operands h.2 s) (h.1 _)

theorem evalAll_framed (hR : Framed R) : ∀ instrs : List (WirInstr Op Ty),
      WirInstr.EveryHeadAll (fun head => ∀ dropped s, R s (head.step machine call dropped s).state)
        instrs →
      ∀ s, R s (evalAll machine call fuel instrs s).state
  | [], _, s => hR.refl s
  | instr :: rest, h, s => by
    rw [evalAll]
    exact hR.andThen (eval_framed hR instr h.1 s) (evalAll_framed hR rest h.2)

end

end

end Wado.Wir
