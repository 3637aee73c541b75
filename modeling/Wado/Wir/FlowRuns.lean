/-
Runs of the backward pass, their fuel aside: what is live at a place of the code, from
what is live at its end and at the labels around it.
-/
import Wado.Wir.FlowShape

namespace Wado.Wir.Liveness

open Option

variable {flow : Flow}

theorem bind_mono {α β : Type} {o o' : Option α} {f f' : α → Option β} {r : β}
    (h : o.bind f = some r) (ho : ∀ a, o = some a → o' = some a)
    (hf : ∀ a r, f a = some r → f' a = some r) : o'.bind f' = some r := by
  obtain ⟨a, ha, hr⟩ := bind_eq_some_iff.mp h
  rw [ho a ha, bind_some, hf a r hr]

/-- More fuel gives the same answer. -/
theorem region_succ (fuel : Nat) : (∀ labels start pos live backward r,
      region flow fuel labels start pos live backward = some r →
        region flow (fuel + 1) labels start pos live backward = some r) ∧
    (∀ labels opening closing after head backward r,
      looped flow fuel labels opening closing after head backward = some r →
        looped flow (fuel + 1) labels opening closing after head backward = some r) := by
  induction fuel with
  | zero =>
    refine ⟨?_, ?_⟩
    · intro _ _ _ _ _ _ h
      simp only [region, reduceCtorEq] at h
    · intro _ _ _ _ _ _ _ h
      simp only [looped, reduceCtorEq] at h
  | succ fuel ih =>
    obtain ⟨ihr, ihl⟩ := ih
    refine ⟨?_, ?_⟩
    · intro labels start pos live backward r h
      rw [region] at h ⊢
      by_cases hpos : pos ≤ start
      · rwa [if_pos hpos] at h ⊢
      · rw [if_neg hpos] at h ⊢
        cases hevent : flow.events[pos - 1]? with
        | none => simp only [hevent, reduceCtorEq] at h
        | some event =>
          simp only [hevent] at h ⊢
          cases event with
          | read | store | br | brIf | brTable | exit => exact ihr _ _ _ _ _ _ h
          | blockEnd =>
            exact bind_mono h (fun _ => ihr _ _ _ _ _ _) fun _ _ => ihr _ _ _ _ _ _
          | loopEnd =>
            exact bind_mono h (fun _ => ihl _ _ _ _ _ _ _) fun _ _ => ihr _ _ _ _ _ _
          | ifEnd =>
            refine bind_mono h ?_ fun _ _ h => bind_mono h (fun _ => ihr _ _ _ _ _ _)
              fun _ _ => ihr _ _ _ _ _ _
            cases flow.elseOf (flow.startOf (pos - 1)) with
            | none => exact fun _ h => h
            | some split => exact fun _ => ihr _ _ _ _ _ _
          | blockStart | loopStart | ifStart | ifElse => cases h
    · intro labels opening closing after head backward r h
      rw [looped] at h ⊢
      refine bind_mono h (fun _ => ihr _ _ _ _ _ _) ?_
      rintro ⟨next, passed⟩ r h
      dsimp only at h ⊢
      by_cases hhead : next ∪ head = head
      · rwa [if_pos hhead] at h ⊢
      · rw [if_neg hhead] at h ⊢
        exact ihl _ _ _ _ _ _ _ h

variable {r : Bits × Backward}

variable {fuel fuel' : Nat} {labels : List Bits} {backward : Backward}

theorem region_mono (hle : fuel ≤ fuel') {start pos : Nat} {live : Bits}
    (h : region flow fuel labels start pos live backward = some r) :
    region flow fuel' labels start pos live backward = some r := by
  induction hle with
  | refl => exact h
  | step _ ih => exact (region_succ _).1 _ _ _ _ _ _ ih

theorem looped_mono (hle : fuel ≤ fuel') {opening closing : Nat} {after head : Bits}
    (h : looped flow fuel labels opening closing after head backward = some r) :
    looped flow fuel' labels opening closing after head backward = some r := by
  induction hle with
  | refl => exact h
  | step _ ih => exact (region_succ _).2 _ _ _ _ _ _ _ ih

/-- What is live at `start`, whatever fuel that takes. -/
def Region (flow : Flow) (labels : List Bits) (start pos : Nat) (live : Bits)
    (backward : Backward) (r : Bits × Backward) : Prop :=
  ∃ fuel, region flow fuel labels start pos live backward = some r

def Looped (flow : Flow) (labels : List Bits) (opening closing : Nat) (after head : Bits)
    (backward : Backward) (r : Bits × Backward) : Prop :=
  ∃ fuel, looped flow fuel labels opening closing after head backward = some r

section Steps

variable {labels : List Bits} {start pos opening closing : Nat} {live after head : Bits}
  {backward : Backward} {r : Bits × Backward}

theorem Region.refl : Region flow labels start start live backward (live, backward) :=
  ⟨1, by rw [region, if_pos le_rfl]⟩

section

variable (hle : start ≤ pos)
include hle

theorem Region.read {name : Ident} (hevent : flow.events[pos]? = some (.read name))
    (h : Region flow labels start pos (insert name live) backward r) :
    Region flow labels start (pos + 1) live backward r := by
  obtain ⟨fuel, h⟩ := h
  refine ⟨fuel + 1, ?_⟩
  rw [region, if_neg (by omega)]
  simp only [Nat.add_sub_cancel, hevent]
  exact h

theorem Region.store {write : Store} (hevent : flow.events[pos]? = some (.store write))
    (h : Region flow labels start pos (live \ write.writes) (backward.store write live) r) :
    Region flow labels start (pos + 1) live backward r := by
  obtain ⟨fuel, h⟩ := h
  refine ⟨fuel + 1, ?_⟩
  rw [region, if_neg (by omega)]
  simp only [Nat.add_sub_cancel, hevent]
  exact h

theorem Region.br {depth : Nat} (hevent : flow.events[pos]? = some (.br depth))
    (h : Region flow labels start pos (target labels depth) backward r) :
    Region flow labels start (pos + 1) live backward r := by
  obtain ⟨fuel, h⟩ := h
  refine ⟨fuel + 1, ?_⟩
  rw [region, if_neg (by omega)]
  simp only [Nat.add_sub_cancel, hevent]
  exact h

theorem Region.brIf {depth : Nat} (hevent : flow.events[pos]? = some (.brIf depth))
    (h : Region flow labels start pos (live ∪ target labels depth) backward r) :
    Region flow labels start (pos + 1) live backward r := by
  obtain ⟨fuel, h⟩ := h
  refine ⟨fuel + 1, ?_⟩
  rw [region, if_neg (by omega)]
  simp only [Nat.add_sub_cancel, hevent]
  exact h

theorem Region.brTable {depths : List Nat} (hevent : flow.events[pos]? = some (.brTable depths))
    (h : Region flow labels start pos
      (depths.foldl (fun live depth => live ∪ target labels depth) ∅) backward r) :
    Region flow labels start (pos + 1) live backward r := by
  obtain ⟨fuel, h⟩ := h
  refine ⟨fuel + 1, ?_⟩
  rw [region, if_neg (by omega)]
  simp only [Nat.add_sub_cancel, hevent]
  exact h

theorem Region.exit (hevent : flow.events[pos]? = some .exit)
    (h : Region flow labels start pos ∅ backward r) :
    Region flow labels start (pos + 1) live backward r := by
  obtain ⟨fuel, h⟩ := h
  refine ⟨fuel + 1, ?_⟩
  rw [region, if_neg (by omega)]
  simp only [Nat.add_sub_cancel, hevent]
  exact h

end

variable {inner : Bits × Backward}

section

variable (hle : start ≤ pos)
include hle

theorem Region.block (hevent : flow.events[pos]? = some .blockEnd)
    (hinner : Region flow (live :: labels) (flow.startOf pos + 1) pos live backward inner)
    (h : Region flow labels start (flow.startOf pos) inner.1 inner.2 r) :
    Region flow labels start (pos + 1) live backward r := by
  obtain ⟨fuel, hinner⟩ := hinner
  obtain ⟨fuel', h⟩ := h
  refine ⟨max fuel fuel' + 1, ?_⟩
  rw [region, if_neg (by omega)]
  simp only [Nat.add_sub_cancel, hevent]
  rw [region_mono (le_max_left fuel fuel') hinner, bind_some]
  exact region_mono (le_max_right fuel fuel') h

theorem Region.loop (hevent : flow.events[pos]? = some .loopEnd)
    (hinner : Looped flow labels (flow.startOf pos) pos live
      ((backward.loopHeads (flow.startOf pos)).getD ∅) backward inner)
    (h : Region flow labels start (flow.startOf pos) inner.1 inner.2 r) :
    Region flow labels start (pos + 1) live backward r := by
  obtain ⟨fuel, hinner⟩ := hinner
  obtain ⟨fuel', h⟩ := h
  refine ⟨max fuel fuel' + 1, ?_⟩
  rw [region, if_neg (by omega)]
  simp only [Nat.add_sub_cancel, hevent]
  rw [looped_mono (le_max_left fuel fuel') hinner, bind_some]
  exact region_mono (le_max_right fuel fuel') h

theorem Region.ifThen
    (hevent : flow.events[pos]? = some .ifEnd) (helse : flow.elseOf (flow.startOf pos) = none)
    (hinner : Region flow (live :: labels) (flow.startOf pos + 1) pos live backward inner)
    (h : Region flow labels start (flow.startOf pos) (inner.1 ∪ live) inner.2 r) :
    Region flow labels start (pos + 1) live backward r := by
  obtain ⟨fuel, hinner⟩ := hinner
  obtain ⟨fuel', h⟩ := h
  refine ⟨max fuel fuel' + 1, ?_⟩
  rw [region, if_neg (by omega)]
  simp only [Nat.add_sub_cancel, hevent, helse, bind_some, getD_none]
  rw [region_mono (le_max_left fuel fuel') hinner, bind_some]
  exact region_mono (le_max_right fuel fuel') h

theorem Region.ifElse {split : Nat} {elseSide thenSide : Bits × Backward}
    (hevent : flow.events[pos]? = some .ifEnd)
    (hsplit : flow.elseOf (flow.startOf pos) = some split)
    (helse : Region flow (live :: labels) (split + 1) pos live backward elseSide)
    (hthen : Region flow (live :: labels) (flow.startOf pos + 1) split live elseSide.2 thenSide)
    (h : Region flow labels start (flow.startOf pos) (thenSide.1 ∪ elseSide.1) thenSide.2 r) :
    Region flow labels start (pos + 1) live backward r := by
  obtain ⟨fuel, helse⟩ := helse
  obtain ⟨fuel', hthen⟩ := hthen
  obtain ⟨fuel'', h⟩ := h
  refine ⟨max fuel (max fuel' fuel'') + 1, ?_⟩
  rw [region, if_neg (by omega)]
  simp only [Nat.add_sub_cancel, hevent, hsplit, getD_some]
  rw [region_mono (le_max_left _ _) helse, bind_some,
    region_mono (le_trans (le_max_left fuel' fuel'') (le_max_right _ _)) hthen, bind_some]
  exact region_mono (le_trans (le_max_right fuel' fuel'') (le_max_right _ _)) h

end

variable {passed : Backward}

/-- A pass whose head stays. -/
theorem Looped.stop {next : Bits}
    (hpass : Region flow (head :: labels) (opening + 1) closing after backward (next, passed))
    (hhead : next ∪ head = head) :
    Looped flow labels opening closing after head backward
      (head, passed.setHead opening head) := by
  obtain ⟨fuel, hpass⟩ := hpass
  refine ⟨fuel + 1, ?_⟩
  rw [looped, hpass, bind_some]
  exact if_pos hhead

/-- A pass whose head moves. -/
theorem Looped.again {next : Bits}
    (hpass : Region flow (head :: labels) (opening + 1) closing after backward (next, passed))
    (hhead : next ∪ head ≠ head) (h : Looped flow labels opening closing after (next ∪ head)
      (passed.rollback backward.mark) r) :
    Looped flow labels opening closing after head backward r := by
  obtain ⟨fuel, hpass⟩ := hpass
  obtain ⟨fuel', h⟩ := h
  refine ⟨max fuel fuel' + 1, ?_⟩
  rw [looped, region_mono (le_max_left _ _) hpass, bind_some]
  exact (if_neg hhead).trans (looped_mono (le_max_right _ _) h)

end Steps

end Wado.Wir.Liveness
