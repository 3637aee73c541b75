/-
The pre-order numbers of a body's stores: no two stores of one local share one.
-/
import Wado.Wir.FlowExact

namespace Wado.Wir.Liveness

open List

def Store.ids : Store → List Nat
  | .one _ id => [id]
  | .bind _ => []

/-- The numbers of the code's stores of one local. -/
def Code.ids : Code → List Nat
  | .done => []
  | .store write rest => write.ids ++ rest.ids
  | .block body rest => body.ids ++ rest.ids
  | .loop body rest => body.ids ++ rest.ids
  | .ifThen thenBody rest => thenBody.ids ++ rest.ids
  | .ifElse thenBody elseBody rest => thenBody.ids ++ (elseBody.ids ++ rest.ids)
  | .read _ rest => rest.ids
  | .br _ rest => rest.ids
  | .brIf _ rest => rest.ids
  | .brTable _ rest => rest.ids
  | .exit rest => rest.ids

theorem Code.ids_eq (code : Code) : ∀ frames : List Frame,
    (code.stores frames).flatMap (fun entry => entry.1.ids) = code.ids := by
  induction code with
  | done => exact fun _ => rfl
  | store write rest ih =>
    intro frames
    rw [stores, flatMap_cons, ih, ids]
  | block body rest ihb ihr | loop body rest ihb ihr | ifThen body rest ihb ihr =>
    intro frames
    rw [stores, flatMap_append, ihb, ihr, ids]
  | ifElse thenBody elseBody rest iht ihe ihr =>
    intro frames
    rw [stores, flatMap_append, flatMap_append, iht, ihe, ihr, ids]
  | read _ rest ih | br _ rest ih | brIf _ rest ih | brTable _ rest ih | exit rest ih =>
    exact fun frames => ih frames

theorem unique_of_nodup {stores : List (Store × Place)} {x y : Ident} {id : Nat}
    {after after' : Place} (h : (stores.flatMap (fun entry => entry.1.ids)).Nodup)
    (hx : (Store.one x id, after) ∈ stores) (hy : (Store.one y id, after') ∈ stores) :
    x = y ∧ after = after' := by
  induction stores with
  | nil => cases hx
  | cons entry stores ih =>
    rw [flatMap_cons, nodup_append] at h
    obtain ⟨-, hrest, hapart⟩ := h
    have hmem : ∀ {z a}, (Store.one z id, a) ∈ stores →
        id ∈ stores.flatMap (fun entry => entry.1.ids) := fun hin =>
      mem_flatMap.mpr ⟨_, hin, mem_singleton.mpr rfl⟩
    rcases mem_cons.mp hx with hx' | hx' <;> rcases mem_cons.mp hy with hy' | hy'
    · cases hx'.trans hy'.symm
      exact ⟨rfl, rfl⟩
    · subst hx'
      exact absurd rfl (hapart id (mem_singleton.mpr rfl) id (hmem hy'))
    · subst hy'
      exact absurd rfl (hapart id (mem_singleton.mpr rfl) id (hmem hx'))
    · exact ih hrest hx' hy'

section Numbers

variable {Op Ty : Type}

/-- Numbers of a range, each once. -/
def Numbers (first last : Nat) (own : List Nat) : Prop :=
  own.Nodup ∧ ∀ id ∈ own, first ≤ id ∧ id < last

theorem Numbers.nil {first last : Nat} : Numbers first last [] :=
  ⟨nodup_nil, fun _ h => absurd h not_mem_nil⟩

theorem Numbers.widen {first last first' last' : Nat} {own : List Nat}
    (h : Numbers first last own) (hfirst : first' ≤ first) (hlast : last ≤ last') :
    Numbers first' last' own :=
  ⟨h.1, fun id hid => ⟨by have := h.2 id hid; omega, by have := h.2 id hid; omega⟩⟩

theorem Numbers.append {first middle last : Nat} {own own' : List Nat}
    (h : Numbers first middle own) (h' : Numbers middle last own') (hle : first ≤ middle)
    (hle' : middle ≤ last) : Numbers first last (own ++ own') := by
  refine ⟨nodup_append.mpr ⟨h.1, h'.1, ?_⟩, ?_⟩
  · intro i hi j hj
    have := h.2 i hi
    have := h'.2 j hj
    omega
  · intro i hi
    rcases mem_append.mp hi with hi | hi
    · have := h.2 i hi
      omega
    · have := h'.2 i hi
      omega

/-- What an instruction's code adds to the numbers of the rest. -/
def Adds (first last : Nat) (code : Code → Code) : Prop :=
  ∃ own : List Nat, (∀ rest, (code rest).ids = own ++ rest.ids) ∧ Numbers first last own

theorem adds_headCode (id : Nat) (head : Head Op Ty) :
    ∃ own : List Nat, (∀ rest, (headCode id head rest).ids = own ++ rest.ids) ∧
      (own = [] ∨ own = [id]) := by
  cases head with
  | localSet name | localTee name => exact ⟨[id], fun _ => rfl, Or.inr rfl⟩
  | multiValueLocalBind locals =>
    refine ⟨[], fun rest => ?_, Or.inl rfl⟩
    simp only [headCode]
    split <;> rfl
  | _ => exact ⟨[], fun _ => rfl, Or.inl rfl⟩

mutual

theorem adds_codeOf : ∀ (instr : WirInstr Op Ty) (id : Nat),
    Adds id (id + nodes instr) (codeOf id instr)
  | .block _ body, id => by
    obtain ⟨own, hown, hnumbers⟩ := adds_codeOfAll body (id + 1)
    refine ⟨own, fun rest => ?_, hnumbers.widen (by omega) (by rw [nodes]; omega)⟩
    rw [codeOf, Code.ids, hown, Code.ids, append_nil]
  | .loop body, id => by
    obtain ⟨own, hown, hnumbers⟩ := adds_codeOfAll body (id + 1)
    refine ⟨own, fun rest => ?_, hnumbers.widen (by omega) (by rw [nodes]; omega)⟩
    rw [codeOf, Code.ids, hown, Code.ids, append_nil]
  | .ite condition _ thenBody none, id => by
    obtain ⟨own, hown, hnumbers⟩ := adds_codeOf condition (id + 1)
    obtain ⟨own', hown', hnumbers'⟩ := adds_codeOfAll thenBody (id + 1 + nodes condition)
    refine ⟨own ++ own', fun rest => ?_, ?_⟩
    · rw [codeOf, hown, Code.ids, hown', Code.ids, append_nil, append_assoc]
    · rw [nodes]
      exact (hnumbers.append hnumbers' (by omega) (by omega)).widen (by omega) (by omega)
  | .ite condition _ thenBody (some elseBody), id => by
    obtain ⟨own, hown, hnumbers⟩ := adds_codeOf condition (id + 1)
    obtain ⟨own', hown', hnumbers'⟩ := adds_codeOfAll thenBody (id + 1 + nodes condition)
    obtain ⟨own'', hown'', hnumbers''⟩ :=
      adds_codeOfAll elseBody (id + 1 + nodes condition + nodesAll thenBody)
    refine ⟨own ++ (own' ++ own''), fun rest => ?_, ?_⟩
    · rw [codeOf, hown, Code.ids, hown', hown'', Code.ids, append_nil, append_nil,
        append_assoc, append_assoc]
    · have hboth := hnumbers'.append hnumbers'' (by omega) (by omega)
      rw [nodes]
      exact (hnumbers.append hboth (by omega) (by omega)).widen (by omega) (by omega)
  | .node head operands, id => by
    obtain ⟨own, hown, hnumbers⟩ := adds_codeOfAll operands (id + 1)
    obtain ⟨own', hown', hself⟩ := adds_headCode id head
    refine ⟨own ++ own', fun rest => ?_, ?_⟩
    · rw [codeOf, hown, hown', append_assoc]
    · rw [nodes]
      rcases hself with rfl | rfl
      · rw [append_nil]
        exact hnumbers.widen (by omega) (by omega)
      · refine ⟨nodup_append.mpr ⟨hnumbers.1, by simp, ?_⟩, ?_⟩
        · intro i hi j hj
          have := hnumbers.2 i hi
          rw [mem_singleton.mp hj]
          omega
        · intro i hi
          rcases mem_append.mp hi with hi | hi
          · have := hnumbers.2 i hi
            omega
          · rw [mem_singleton.mp hi]
            omega

theorem adds_codeOfAll : ∀ (body : List (WirInstr Op Ty)) (id : Nat),
    Adds id (id + nodesAll body) (codeOfAll id body)
  | [], id => ⟨[], fun _ => rfl, .nil⟩
  | instr :: instrs, id => by
    obtain ⟨own, hown, hnumbers⟩ := adds_codeOf instr id
    obtain ⟨own', hown', hnumbers'⟩ := adds_codeOfAll instrs (id + nodes instr)
    refine ⟨own ++ own', fun rest => ?_, ?_⟩
    · rw [codeOfAll, hown, hown', append_assoc]
    · rw [nodesAll]
      exact (hnumbers.append hnumbers' (by omega) (by omega)).widen (by omega) (by omega)

end

/-- The body's stores of one local have numbers of their own. -/
theorem bodyStores_unique {body : List (WirInstr Op Ty)} {x y : Ident} {id : Nat}
    {after after' : Place} (hx : (Store.one x id, after) ∈ bodyStores body)
    (hy : (Store.one y id, after') ∈ bodyStores body) : x = y ∧ after = after' := by
  obtain ⟨own, hown, hnumbers⟩ := adds_codeOfAll body 0
  refine unique_of_nodup ?_ hx hy
  rw [bodyStores, Code.ids_eq, bodyCode, hown, Code.ids, append_nil]
  exact hnumbers.1

end Numbers

end Wado.Wir.Liveness
