/-
Where control can go from an arm: a branch out of it is written in it, and an
arm that counts as diverging does not fall through unless a branch in it lands
on the end of an `if`.
-/
import Wado.Wir.Exec

namespace Wado.Wir

open List Outcome

variable {Op Ty Val Rest : Type}

namespace WirInstr

mutual

/-- Whether a branch in an instruction lands on a marked label, where `marks`
marks the labels around it, the innermost first, and `nested` its own `if`s. -/
def landsOn (nested : Bool) (marks : List Bool) : WirInstr Op Ty → Bool
  | .block _ body => landsOnAny nested (false :: marks) body
  | .loop body => landsOnAny nested (false :: marks) body
  | .ite condition _ thenBody elseBody =>
    condition.landsOn nested marks || landsOnAny nested (nested :: marks) thenBody ||
      match elseBody with
      | some elseBody => landsOnAny nested (nested :: marks) elseBody
      | none => false
  | .node head operands =>
    (head.targets.any fun depth => marks.getD depth false) || landsOnAny nested marks operands

def landsOnAny (nested : Bool) (marks : List Bool) : List (WirInstr Op Ty) → Bool
  | [] => false
  | instr :: rest => instr.landsOn nested marks || landsOnAny nested marks rest

end

/-- An arm that ends in an instruction which counts as diverging has in it no
branch to the end of its own `if` or of one around it, and that instruction
none to the end of an `if` within it. -/
def endSettled (marks : List Bool) (arm : List (WirInstr Op Ty)) : Bool :=
  match arm.getLast? with
  | none => true
  | some last =>
    !last.alwaysDiverges || (!landsOnAny false marks arm && !last.landsOn true [])

mutual

/-- Every arm of an instruction is settled, where `ifs` marks the `if`s among
the labels around it. -/
def armsSettled (ifs : List Bool) : WirInstr Op Ty → Bool
  | .block _ body => armsSettledAll (false :: ifs) body
  | .loop body => armsSettledAll (false :: ifs) body
  | .ite condition _ thenBody elseBody =>
    condition.armsSettled ifs && (endSettled (true :: ifs) thenBody &&
      armsSettledAll (true :: ifs) thenBody) &&
      match elseBody with
      | some elseBody =>
        endSettled (true :: ifs) elseBody && armsSettledAll (true :: ifs) elseBody
      | none => true
  | .node _ operands => armsSettledAll ifs operands

def armsSettledAll (ifs : List Bool) : List (WirInstr Op Ty) → Bool
  | [] => true
  | instr :: rest => instr.armsSettled ifs && armsSettledAll ifs rest

end

end WirInstr

variable {machine : Machine Op Val Rest} {call : Caller Val Rest} {fuel : Nat}

variable {outcome : Outcome Val Rest}

theorem andThen_exit {k : State Val Rest → Outcome Val Rest} {exit : Exit}
    (h : (outcome.andThen k).exit = exit) :
    (outcome.exit ≠ .next ∧ outcome.exit = exit) ∨
      (outcome.exit = .next ∧ (k outcome.state).exit = exit) := by
  unfold andThen at h
  split at h
  next hnext => exact Or.inr ⟨hnext, h⟩
  next hnext => exact Or.inl ⟨hnext, h⟩

theorem leave_branch {arity depth : Nat}
    {outer : List Val} (h : (outcome.leave arity outer).exit = .branch depth) :
    outcome.exit = .branch (depth + 1) := by
  obtain ⟨exit, state⟩ := outcome
  cases exit with
  | branch depth' =>
    cases depth' with
    | zero => cases h
    | succ depth' => rw [Exit.branch.inj h]
  | _ => cases h

theorem leave_next {arity : Nat} {outer : List Val}
    (h : (outcome.leave arity outer).exit = .next) :
    outcome.exit = .next ∨ outcome.exit = .branch 0 := by
  obtain ⟨exit, state⟩ := outcome
  cases exit with
  | next => exact Or.inl rfl
  | branch depth =>
    cases depth with
    | zero => exact Or.inr rfl
    | succ depth => cases h
  | _ => cases h

variable {s : State Val Rest} {depth : Nat}

theorem iterate_branch {body : State Val Rest → Outcome Val Rest} {fuel : Nat}
    (h : (iterate body fuel s).exit = .branch depth) :
    ∃ t, (body t).exit = .branch depth := by
  induction fuel generalizing s with
  | zero => cases h
  | succ fuel ih =>
    rw [iterate] at h
    split at h
    · exact ih h
    · exact ⟨_, h⟩

theorem State.pop_exit {k : Val → State Val Rest → Outcome Val Rest}
    {exit : Exit} (h : (s.pop k).exit = exit) :
    exit = .trap ∨ ∃ value t, (k value t).exit = exit := by
  unfold State.pop at h
  split at h
  · exact Or.inl h.symm
  · exact Or.inr ⟨_, _, h⟩

/-- Calls end by returning, trapping or running out of fuel. -/
def CallsReturn (call : Caller Val Rest) : Prop :=
  ∀ funcId stack store depth, (call funcId stack store).1 ≠ .branch depth

theorem bindAll_branch {targets : List (Option Ident)} :
    (s.bindAll targets).exit ≠ .branch depth := by
  induction targets generalizing s with
  | nil => exact fun h => by cases h
  | cons target targets ih =>
    intro h
    cases target with
    | none =>
      rcases State.pop_exit h with h | ⟨value, t, h⟩
      · cases h
      · exact ih h
    | some name =>
      rcases State.pop_exit h with h | ⟨value, t, h⟩
      · cases h
      · exact ih h

/-- A step that branches goes to one of its targets. -/
theorem step_branch (hcalls : CallsReturn call) {head : Head Op Ty} {dropped : Bool}
    (h : (head.step machine call dropped s).exit = .branch depth) : depth ∈ head.targets := by
  cases head with
  | localSet name =>
    rcases State.pop_exit h with h | ⟨value, t, h⟩ <;> cases h
  | localTee name =>
    rcases State.pop_exit h with h | ⟨value, t, h⟩ <;> cases h
  | structGet typeId fieldName ty =>
    rcases State.pop_exit h with h | ⟨value, t, h⟩
    · cases h
    · split at h
      · cases h
      · split at h <;> cases h
  | structSet typeId fieldName =>
    rcases State.pop_exit h with h | ⟨value, t, h⟩
    · cases h
    rcases State.pop_exit h with h | ⟨reference, t, h⟩
    · cases h
    · split at h
      · cases h
      · split at h <;> cases h
  | br depth' =>
    cases h
    exact mem_singleton_self _
  | brIf depth' =>
    rcases State.pop_exit h with h | ⟨value, t, h⟩
    · cases h
    · split at h
      · cases h
        exact mem_singleton_self _
      · cases h
  | brTable targets default =>
    rcases State.pop_exit h with h | ⟨value, t, h⟩
    · cases h
    · cases h
      rw [Head.targets, mem_append, mem_singleton, getD_eq_getElem?_getD]
      cases hget : targets[machine.toNat value]? with
      | none => exact Or.inr rfl
      | some target => exact Or.inl (mem_of_getElem? hget)
  | drop =>
    rw [Head.step] at h
    split at h
    · rcases State.pop_exit h with h | ⟨value, t, h⟩ <;> cases h
    · cases h
  | call funcId => exact absurd h (hcalls _ _ _ _)
  | callIndirect typeId table =>
    rcases State.pop_exit h with h | ⟨value, t, h⟩
    · cases h
    · unfold State.invokeRef at h
      split at h
      · cases h
      · exact absurd h (hcalls _ _ _ _)
  | callRef typeId =>
    rcases State.pop_exit h with h | ⟨value, t, h⟩
    · cases h
    · unfold State.invokeRef at h
      split at h
      · cases h
      · exact absurd h (hcalls _ _ _ _)
  | multiValueLocalBind locals => exact absurd h bindAll_branch
  | op operation =>
    rw [Head.step, State.applyOp] at h
    split at h <;> cases h
  | _ => cases h

namespace WirInstr

mutual

/-- A branch that leaves an instruction lands on no label it has no branch to. -/
theorem branch_lands (hcalls : CallsReturn call) (nested : Bool) :
    ∀ (instr : WirInstr Op Ty) (marks : List Bool), instr.landsOn nested marks = false →
      ∀ s depth, (instr.eval machine call fuel s).exit = .branch depth →
        marks.getD depth false = false
  | .block result body, marks, hlands, s, depth, h => by
    rw [eval] at h
    exact branchAll_lands hcalls nested body (false :: marks) hlands _ _ (leave_branch h)
  | .loop body, marks, hlands, s, depth, h => by
    rw [eval] at h
    obtain ⟨t, ht⟩ := iterate_branch (leave_branch h)
    exact branchAll_lands hcalls nested body (false :: marks) hlands _ _ ht
  | .ite condition result thenBody none, marks, hlands, s, depth, h => by
    simp only [landsOn, Bool.or_false, Bool.or_eq_false_iff] at hlands
    rw [eval] at h
    rcases andThen_exit h with ⟨-, h⟩ | ⟨-, h⟩
    · exact branch_lands hcalls nested condition marks hlands.1 _ _ h
    rcases State.pop_exit h with h | ⟨value, t, h⟩
    · cases h
    have hleave := leave_branch h
    split at hleave
    · exact branchAll_lands hcalls nested thenBody (nested :: marks) hlands.2 _ _ hleave
    · cases hleave
  | .ite condition result thenBody (some elseBody), marks, hlands, s, depth, h => by
    simp only [landsOn, Bool.or_eq_false_iff] at hlands
    rw [eval] at h
    rcases andThen_exit h with ⟨-, h⟩ | ⟨-, h⟩
    · exact branch_lands hcalls nested condition marks hlands.1.1 _ _ h
    rcases State.pop_exit h with h | ⟨value, t, h⟩
    · cases h
    have hleave := leave_branch h
    split at hleave
    · exact branchAll_lands hcalls nested thenBody (nested :: marks) hlands.1.2 _ _ hleave
    · exact branchAll_lands hcalls nested elseBody (nested :: marks) hlands.2 _ _ hleave
  | .node head operands, marks, hlands, s, depth, h => by
    simp only [landsOn, Bool.or_eq_false_iff] at hlands
    rw [eval] at h
    rcases andThen_exit h with ⟨-, h⟩ | ⟨-, h⟩
    · exact branchAll_lands hcalls nested operands marks hlands.2 _ _ h
    · have htarget := any_eq_false.mp hlands.1 depth (step_branch hcalls h)
      simpa using htarget

theorem branchAll_lands (hcalls : CallsReturn call) (nested : Bool) :
    ∀ (instrs : List (WirInstr Op Ty)) (marks : List Bool), landsOnAny nested marks instrs = false →
      ∀ s depth, (evalAll machine call fuel instrs s).exit = .branch depth →
        marks.getD depth false = false
  | [], _, _, _, _, h => by cases h
  | instr :: rest, marks, hlands, s, depth, h => by
    simp only [landsOnAny, Bool.or_eq_false_iff] at hlands
    rw [evalAll] at h
    rcases andThen_exit h with ⟨-, h⟩ | ⟨-, h⟩
    · exact branch_lands hcalls nested instr marks hlands.1 _ _ h
    · exact branchAll_lands hcalls nested rest marks hlands.2 _ _ h

end

theorem evalAll_diverges {instrs : List (WirInstr Op Ty)} {instr : WirInstr Op Ty}
    (hin : instr ∈ instrs) (h : ∀ s, (instr.eval machine call fuel s).exit ≠ .next)
    (s : State Val Rest) : (evalAll machine call fuel instrs s).exit ≠ .next := by
  induction instrs generalizing s with
  | nil => cases hin
  | cons first rest ih =>
    intro hnext
    rw [evalAll] at hnext
    rcases andThen_exit hnext with ⟨hnot, hfirst⟩ | ⟨hfirst, hrest⟩
    · exact hnot hfirst
    · rcases mem_cons.mp hin with rfl | hin
      · exact h s hfirst
      · exact ih hin _ hrest

mutual

/-- What counts as diverging does not fall through, unless a branch in it lands
on the end of an `if` within it. -/
theorem diverges (hcalls : CallsReturn call) :
    ∀ (instr : WirInstr Op Ty) (marks : List Bool), instr.landsOn true marks = false →
      instr.alwaysDiverges = true → ∀ s, (instr.eval machine call fuel s).exit ≠ .next
  | .ite condition result thenBody (some elseBody), marks, hlands, hdiverges, s, hnext => by
    simp only [landsOn, Bool.or_eq_false_iff] at hlands
    simp only [alwaysDiverges, Bool.and_eq_true] at hdiverges
    rw [eval] at hnext
    rcases andThen_exit hnext with ⟨hnot, h⟩ | ⟨-, h⟩
    · exact hnot h
    rcases State.pop_exit h with h | ⟨value, t, h⟩
    · cases h
    rcases leave_next h with h | h
    · split at h
      · exact divergesAll hcalls thenBody _ hlands.1.2 hdiverges.1 _ h
      · exact divergesAll hcalls elseBody _ hlands.2 hdiverges.2 _ h
    · split at h
      · have hmark := branchAll_lands hcalls true thenBody _ hlands.1.2 _ _ h
        cases hmark
      · have hmark := branchAll_lands hcalls true elseBody _ hlands.2 _ _ h
        cases hmark
  | .ite condition result thenBody none, marks, hlands, hdiverges, s, hnext => by
    rw [alwaysDiverges, Bool.and_false] at hdiverges
    cases hdiverges
  | .node head operands, marks, hlands, hdiverges, s, hnext => by
    simp only [landsOn, Bool.or_eq_false_iff] at hlands
    rw [eval] at hnext
    rcases andThen_exit hnext with ⟨hnot, h⟩ | ⟨hoperands, h⟩
    · exact hnot h
    have hseq : seqAlwaysDiverges operands = true → False := fun hseq =>
      divergesAll hcalls operands marks hlands.2 hseq s hoperands
    cases head with
    | br depth => cases h
    | brTable targets default =>
      rcases State.pop_exit h with h | ⟨value, t, h⟩ <;> cases h
    | ret => cases h
    | unreachable => cases h
    | seq => exact hseq hdiverges
    | drop => exact hseq hdiverges
    | blackBox => exact hseq hdiverges
    | branchHint likely => exact hseq hdiverges
    | _ => cases hdiverges

theorem divergesAll (hcalls : CallsReturn call) :
    ∀ (instrs : List (WirInstr Op Ty)) (marks : List Bool),
      landsOnAny true marks instrs = false → seqAlwaysDiverges instrs = true →
      ∀ s, (evalAll machine call fuel instrs s).exit ≠ .next
  | instr :: rest, marks, hlands, hdiverges, s, hnext => by
    simp only [landsOnAny, Bool.or_eq_false_iff] at hlands
    rw [seqAlwaysDiverges, Bool.or_eq_true] at hdiverges
    rw [evalAll] at hnext
    rcases andThen_exit hnext with ⟨hnot, h⟩ | ⟨hinstr, h⟩
    · exact hnot h
    rcases hdiverges with hdiverges | hdiverges
    · exact diverges hcalls instr marks hlands.1 hdiverges s hinstr
    · exact divergesAll hcalls rest marks hlands.2 hdiverges _ h

end

/-- An arm that counts as diverging neither falls through nor branches to the
end of an `if`. -/
theorem settled_end (hcalls : CallsReturn call) {marks : List Bool}
    {arm : List (WirInstr Op Ty)} (hsettled : endSettled marks arm = true)
    (hdiverges : arm.getLast?.any alwaysDiverges = true) (s : State Val Rest) :
    (evalAll machine call fuel arm s).exit ≠ .next ∧
      ∀ depth, (evalAll machine call fuel arm s).exit = .branch depth →
        marks.getD depth false = false := by
  cases hlast : arm.getLast? with
  | none =>
    rw [hlast] at hdiverges
    cases hdiverges
  | some last =>
    rw [hlast, Option.any_some] at hdiverges
    rw [endSettled, hlast] at hsettled
    simp only [hdiverges, Bool.not_true, Bool.false_or, Bool.and_eq_true,
      Bool.not_eq_true'] at hsettled
    refine ⟨evalAll_diverges (mem_of_getLast? hlast)
      (diverges hcalls last [] hsettled.2 hdiverges) s, ?_⟩
    exact branchAll_lands hcalls false arm marks hsettled.1 s

end WirInstr

end Wado.Wir
