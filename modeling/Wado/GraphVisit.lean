/-
A `CutWalk` over a labelled graph: a leaf answers its label, and an inner node
asks its successors until one does not answer as a cut does.
-/
import Wado.CutMemo
import Wado.LeafGraph

namespace Wado

open LeafGraph

variable {κ : Type} [DecidableEq κ]

namespace CutMemo

/-- The open nodes that rests come down to, `fuel` bounding the chain of closed
ones. -/
def restsOpen (memo : CutMemo κ) : Nat → List OpenNode → List OpenNode
  | 0, _ => []
  | fuel + 1, restsOn =>
    restsOn.flatMap fun rest =>
      if memo.openSerials[rest.1]? = some rest.2 then [rest]
      else
        match memo.closedAsCut rest.2 with
        | some rests => restsOpen memo fuel rests
        | none => []

/-- Whether the walk being made has cut at every open node that the answer `get`
gives for `key` rests on, the innermost one apart. -/
def carries (memo : CutMemo κ) (key : κ) : Bool :=
  match memo.answers key with
  | none => true
  | some answer =>
    (memo.restsOpen (memo.nextSerial + 1) answer.restsOn).all fun rest =>
      rest.1 + 1 = memo.depth || rest ∈ memo.cuts

end CutMemo

namespace CutWalk

/-- The disjunction of the successors' answers where a cut answers `false`, and
their conjunction where it answers `true`. -/
def walkSuccs (visit : κ → CutWalk κ → Option (Visited × CutWalk κ)) :
    List κ → CutWalk κ → Option (Bool × CutWalk κ)
  | [], self => some (self.memo.cutAnswer, self)
  | m :: succs, self => do
    let (visited, self) ← visit m self
    if visited.answer = self.memo.cutAnswer then walkSuccs visit succs self
    else return (visited.answer, self)

/-- The walk of one node. -/
def walkNode (graph : κ → Node κ) (visit : κ → CutWalk κ → Option (Visited × CutWalk κ))
    (n : κ) (self : CutWalk κ) : Option (Bool × CutWalk κ) :=
  match graph n with
  | .leaf label => some (label, self)
  | .inner succs => walkSuccs visit succs self

/-- A visit of `n`, `fuel` bounding the nodes open at once. -/
def visitNode (graph : κ → Node κ) : Nat → κ → CutWalk κ → Option (Visited × CutWalk κ)
  | 0, _, _ => none
  | fuel + 1, n, self => visit (walkNode graph (visitNode graph fuel) n) n self

/-- Visits made one after another on one walk. -/
def visitAll (graph : κ → Node κ) (fuel : Nat) :
    List κ → CutWalk κ → Option (List Visited × CutWalk κ)
  | [], self => some ([], self)
  | n :: keys, self => do
    let (visited, self) ← visitNode graph fuel n self
    let (rest, self) ← visitAll graph fuel keys self
    return (visited :: rest, self)

/-- The walk as it is when the walk of `key` starts. -/
def entered (key : κ) (self : CutWalk κ) : CutWalk κ :=
  { self with openKeys := self.openKeys ++ [key], memo := self.memo.begin.2.openNode }

/-- Whether `carried` holds of every successor that `walkSuccs` visits. -/
def carriedSuccs (visit : κ → CutWalk κ → Option (Visited × CutWalk κ))
    (carried : κ → CutWalk κ → Bool) : List κ → CutWalk κ → Bool
  | [], _ => true
  | m :: succs, self =>
    carried m self &&
      match visit m self with
      | none => true
      | some (visited, self) =>
        visited.answer ≠ self.memo.cutAnswer || carriedSuccs visit carried succs self

/-- Whether every answer that the visit of `n` takes from the memo is carried. -/
def carriedNode (graph : κ → Node κ) : Nat → κ → CutWalk κ → Bool
  | 0, _, _ => true
  | fuel + 1, n, self =>
    if (self.memo.get n).isSome then self.memo.carries n
    else if n ∈ self.openKeys then true
    else
      match graph n with
      | .leaf _ => true
      | .inner succs =>
        carriedSuccs (visitNode graph fuel) (carriedNode graph fuel) succs (self.entered n)

/-- Whether every answer that the visits take from the memo is carried. -/
def carriedAll (graph : κ → Node κ) (fuel : Nat) : List κ → CutWalk κ → Bool
  | [], _ => true
  | n :: keys, self =>
    carriedNode graph fuel n self &&
      match visitNode graph fuel n self with
      | none => true
      | some (_, self) => carriedAll graph fuel keys self

end CutWalk

end Wado

/-
What a memo's answers say of the graph while a walk is under way.  An answer a
cut gave is right with the nodes it rests on avoided; a walk that carries those
nodes to whatever reuses the answer keeps every record right.
-/

namespace Wado

open LeafGraph

variable {κ : Type}

/-- The nodes that own the serials of some cuts. -/
def owners (owner : Nat → κ) (cuts : List OpenNode) : Set κ :=
  { y | ∃ cut ∈ cuts, owner cut.2 = y }

variable {graph : κ → Node κ} {owner owner' : Nat → κ}

variable {cuts : List OpenNode}

theorem owners_congr (h : ∀ cut ∈ cuts, owner' cut.2 = owner cut.2) :
    owners owner' cuts = owners owner cuts := by
  ext y
  constructor
  · rintro ⟨cut, hcut, rfl⟩
    exact ⟨cut, hcut, (h cut hcut).symm⟩
  · rintro ⟨cut, hcut, rfl⟩
    exact ⟨cut, hcut, h cut hcut⟩

namespace CutMemo

/-- An insertion by index adds the cut, when the cuts at its index are that cut. -/
theorem mem_insertCut {i serial : Nat}
    (hsame : ∀ cut ∈ cuts, cut.1 = i → cut.2 = serial) (cut : OpenNode) :
    cut ∈ insertCut i serial cuts ↔ cut = (i, serial) ∨ cut ∈ cuts := by
  induction cuts with
  | nil => simp [insertCut]
  | cons head cuts ih =>
    obtain ⟨j, s⟩ := head
    have ih := ih fun cut hcut => hsame cut (List.mem_cons_of_mem _ hcut)
    by_cases heq : i = j
    · obtain rfl : s = serial := hsame (j, s) List.mem_cons_self heq.symm
      simp [insertCut, heq]
    · by_cases hlt : i < j
      · simp [insertCut, heq, hlt]
      · simp only [insertCut, heq, hlt, if_false, List.mem_cons, ih]
        constructor
        · rintro (h | h | h)
          · exact Or.inr (Or.inl h)
          · exact Or.inl h
          · exact Or.inr (Or.inr h)
        · rintro (h | h | h)
          · exact Or.inr (Or.inl h)
          · exact Or.inl h
          · exact Or.inr (Or.inr h)

/-- The cuts stop at nodes that are open. -/
def CutsOpen (openSerials : List Nat) (cuts : List OpenNode) : Prop :=
  ∀ cut ∈ cuts, openSerials[cut.1]? = some cut.2

variable {memo : CutMemo κ}

theorem cut_eq {i serial : Nat} (hcuts : CutsOpen memo.openSerials memo.cuts)
    (hserial : memo.openSerials[i]? = some serial) :
    ∃ cuts, memo.cut i = (memo.cutAnswer, { memo with cuts }) ∧
      ∀ cut, cut ∈ cuts ↔ cut = (i, serial) ∨ cut ∈ memo.cuts := by
  refine ⟨insertCut i serial memo.cuts, ?_, mem_insertCut ?_⟩
  · simp [cut, List.getD, hserial]
  · intro cut hcut hi
    have hopen := hcuts cut hcut
    rw [hi, hserial] at hopen
    exact (Option.some.inj hopen).symm

/-- Restoring the outer cuts adds them to the cuts of the inner walk. -/
theorem restore_eq {outerCuts : List OpenNode} {memo : CutMemo κ}
    (hcuts : CutsOpen memo.openSerials memo.cuts)
    (houter : CutsOpen memo.openSerials outerCuts) :
    ∃ cuts, memo.restore outerCuts = { memo with cuts } ∧
      ∀ cut, cut ∈ cuts ↔ cut ∈ outerCuts ∨ cut ∈ memo.cuts := by
  induction outerCuts generalizing memo with
  | nil => exact ⟨memo.cuts, rfl, by simp⟩
  | cons outer outerCuts ih =>
    have hserial := houter outer List.mem_cons_self
    obtain ⟨cuts, hcut, hmem⟩ := cut_eq hcuts hserial
    have hcuts' : CutsOpen memo.openSerials cuts := by
      intro cut hin
      rcases (hmem cut).mp hin with rfl | hin
      · exact hserial
      · exact hcuts cut hin
    obtain ⟨cuts', hrestore, hmem'⟩ := @ih { memo with cuts } hcuts'
      fun cut hin => houter cut (List.mem_cons_of_mem _ hin)
    refine ⟨cuts', ?_, ?_⟩
    · have hfirst : (memo.cut outer.1).2 = { memo with cuts } := by
        rw [hcut]
      unfold restore at hrestore ⊢
      rw [List.foldl_cons, hfirst, hrestore]
    · intro cut
      rw [hmem', List.mem_cons]
      show cut ∈ outerCuts ∨ cut ∈ cuts ↔ _
      rw [hmem, ← or_assoc, or_comm (a := cut ∈ outerCuts)]

/-- Every record of the memo is true of the graph, `owner` naming the node that
each serial was given to. -/
structure Tells (graph : κ → Node κ) (owner : Nat → κ) (memo : CutMemo κ) : Prop where
  ascending : memo.openSerials.Pairwise (· < ·)
  serial_lt : ∀ s ∈ memo.openSerials, s < memo.nextSerial
  cuts_open : CutsOpen memo.openSerials memo.cuts
  rests_lt : ∀ {y : κ} {answer : Answer}, memo.answers y = some answer →
    ∀ rest ∈ answer.restsOn, rest.2 < memo.nextSerial
  closed_lt : ∀ {s : Nat} {rests : List OpenNode}, memo.closedAsCut s = some rests →
    s < memo.nextSerial ∧ ∀ rest ∈ rests, rest.2 < s
  closed_stays : ∀ {s : Nat} {rests : List OpenNode}, memo.closedAsCut s = some rests →
    ¬ Escapes graph (!memo.cutAnswer) (owners owner rests) (owner s)
  answer_stays : ∀ {y : κ} {answer : Answer}, memo.answers y = some answer →
    answer.answer = memo.cutAnswer →
      ¬ Escapes graph (!memo.cutAnswer) (owners owner answer.restsOn) y
  answer_reaches : ∀ {y : κ} {answer : Answer}, memo.answers y = some answer →
    answer.answer ≠ memo.cutAnswer → Reaches graph (!memo.cutAnswer) y

theorem Tells.congr {memo : CutMemo κ} (h : Tells graph owner memo)
    (hsame : ∀ s < memo.nextSerial, owner' s = owner s) : Tells graph owner' memo where
  ascending := h.ascending
  serial_lt := h.serial_lt
  cuts_open := h.cuts_open
  rests_lt := h.rests_lt
  closed_lt := h.closed_lt
  closed_stays := by
    intro s rests hclosed
    obtain ⟨hs, hrests⟩ := h.closed_lt hclosed
    rw [owners_congr fun rest hrest => hsame _ (Nat.lt_trans (hrests rest hrest) hs), hsame s hs]
    exact h.closed_stays hclosed
  answer_stays := by
    intro y answer hanswer hcut
    rw [owners_congr fun rest hrest => hsame _ (h.rests_lt hanswer rest hrest)]
    exact h.answer_stays hanswer hcut
  answer_reaches := h.answer_reaches

theorem Tells.cut_lt (h : Tells graph owner memo) {cut : OpenNode}
    (hcut : cut ∈ memo.cuts) : cut.2 < memo.nextSerial :=
  h.serial_lt _ (List.mem_of_getElem? (h.cuts_open cut hcut))

theorem new_tells (graph : κ → Node κ) (owner : Nat → κ) (cutAnswer : Bool) :
    Tells graph owner (new cutAnswer) := by
  constructor <;> simp [new, CutsOpen]

/-- Opening the walk of a node keeps the records, whoever the new serial's owner
is. -/
theorem Tells.entered (h : Tells graph owner memo) :
    Tells graph owner memo.begin.2.openNode where
  ascending := by
    show (memo.openSerials ++ [memo.nextSerial]).Pairwise (· < ·)
    rw [List.pairwise_append]
    refine ⟨h.ascending, List.pairwise_singleton _ _, ?_⟩
    intro s hs s' hs'
    rw [List.mem_singleton.mp hs']
    exact h.serial_lt s hs
  serial_lt := by
    intro s hs
    show s < memo.nextSerial + 1
    rcases List.mem_append.mp hs with hs | hs
    · exact Nat.lt_succ_of_lt (h.serial_lt s hs)
    · rw [List.mem_singleton.mp hs]
      exact Nat.lt_succ_self _
  cuts_open := by
    intro cut hcut
    cases hcut
  rests_lt := fun hanswer rest hrest => Nat.lt_succ_of_lt (h.rests_lt hanswer rest hrest)
  closed_lt := fun hclosed =>
    ⟨Nat.lt_succ_of_lt (h.closed_lt hclosed).1, (h.closed_lt hclosed).2⟩
  closed_stays := h.closed_stays
  answer_stays := h.answer_stays
  answer_reaches := h.answer_reaches

variable {restsOn : List OpenNode}

/-- What rests come down to is open. -/
theorem mem_restsOpen [DecidableEq κ] {fuel : Nat}
    {rest : OpenNode} (h : rest ∈ memo.restsOpen fuel restsOn) :
    memo.openSerials[rest.1]? = some rest.2 := by
  induction fuel generalizing restsOn with
  | zero => cases h
  | succ fuel ih =>
    obtain ⟨first, -, hrest⟩ := List.mem_flatMap.mp h
    split at hrest
    · rename_i hopen
      rw [List.mem_singleton.mp hrest]
      exact hopen
    · cases hclosed : memo.closedAsCut first.2 with
      | none =>
        rw [hclosed] at hrest
        cases hrest
      | some rests =>
        rw [hclosed] at hrest
        exact ih hrest

/-- A rest that still holds is open, or its node stays: with the open nodes that
it comes down to avoided, no leaf is reached from it. -/
theorem Tells.stays_of_stillHolds [DecidableEq κ]
    (h : Tells graph owner memo) {avoid : Set κ} {fuel : Nat}
    (hholds : memo.stillHolds fuel restsOn = true)
    (havoid : owners owner (memo.restsOpen fuel restsOn) ⊆ avoid) :
    ∀ rest ∈ restsOn, owner rest.2 ∈ avoid ∨
      ¬ Escapes graph (!memo.cutAnswer) avoid (owner rest.2) := by
  induction fuel generalizing restsOn with
  | zero => cases hholds
  | succ fuel ih =>
    intro rest hrest
    have hrest' := List.all_eq_true.mp hholds rest hrest
    by_cases hopen : memo.openSerials[rest.1]? = some rest.2
    · refine Or.inl (havoid ⟨rest, ?_, rfl⟩)
      exact List.mem_flatMap.mpr ⟨rest, hrest, by simp [hopen]⟩
    · cases hclosed : memo.closedAsCut rest.2 with
      | none => simp [hopen, hclosed] at hrest'
      | some rests =>
        have hdeep : memo.stillHolds fuel rests = true := by
          simpa [hopen, hclosed] using hrest'
        have hstays := ih hdeep (by
          rintro y ⟨rest', hrest', rfl⟩
          refine havoid ⟨rest', ?_, rfl⟩
          exact List.mem_flatMap.mpr ⟨rest, hrest, by simpa [hopen, hclosed] using hrest'⟩)
        refine Or.inr (not_escapes_of_stays ?_ (h.closed_stays hclosed))
        rintro z ⟨rest', hmem, rfl⟩
        exact hstays rest' hmem

/-- Closing a node's walk: its record is true where it stays with the cuts below
it avoided, or reaches a leaf. -/
theorem Tells.left [DecidableEq κ] {memo : CutMemo κ} (h : Tells graph owner memo)
    {outer : List Nat} {serial : Nat} (hopen : memo.openSerials = outer ++ [serial])
    {outerCuts : List OpenNode} (houter : CutsOpen outer outerCuts) {answer : Bool}
    (hstays : answer = memo.cutAnswer → ¬ Escapes graph (!memo.cutAnswer)
      (owners owner (memo.cuts.filter fun cut => cut.1 < outer.length)) (owner serial))
    (hreaches : answer ≠ memo.cutAnswer → Reaches graph (!memo.cutAnswer) (owner serial)) :
    ∃ settled memo', (memo.close answer).endWalk (owner serial) outer.length answer outerCuts =
        (settled, memo') ∧
      Tells graph owner memo' ∧ memo'.openSerials = outer ∧
      memo'.cutAnswer = memo.cutAnswer ∧ memo'.nextSerial = memo.nextSerial ∧
      ∀ cut, cut ∈ memo'.cuts ↔
        cut ∈ outerCuts ∨ cut ∈ memo.cuts.filter fun cut => cut.1 < outer.length := by
  have hdrop : memo.openSerials.dropLast = outer := by simp [hopen]
  have hlast : memo.openSerials.getLast? = some serial := by simp [hopen]
  have hretained : CutsOpen outer (memo.cuts.filter fun cut => cut.1 < outer.length) := by
    intro cut hcut
    obtain ⟨hin, hlt⟩ := List.mem_filter.mp hcut
    have hserial := h.cuts_open cut hin
    rw [hopen, List.getElem?_append_left (by simpa using hlt)] at hserial
    exact hserial
  have hclose : ∃ closedAsCut, memo.close answer = { memo with openSerials := outer, closedAsCut } ∧
      ∀ {s : Nat} {rests : List OpenNode}, closedAsCut s = some rests →
        memo.closedAsCut s = some rests ∨ answer = memo.cutAnswer ∧ s = serial ∧
          rests = memo.cuts.filter fun cut => cut.1 < outer.length := by
    unfold close
    rw [hlast]
    by_cases hcut : answer = memo.cutAnswer
    · refine ⟨Function.update memo.closedAsCut serial
        (some (memo.cuts.filter fun cut => cut.1 < outer.length)),
        by simp only [hcut, if_true, hdrop], ?_⟩
      intro s rests hclosed
      by_cases hs : s = serial
      · subst hs
        rw [Function.update_self] at hclosed
        exact Or.inr ⟨hcut, rfl, (Option.some.inj hclosed).symm⟩
      · rw [Function.update_of_ne hs] at hclosed
        exact Or.inl hclosed
    · exact ⟨memo.closedAsCut, by simp only [hcut, if_false, hdrop], Or.inl⟩
  obtain ⟨closedAsCut, hclose, hclosed⟩ := hclose
  obtain ⟨cuts, hrestore, hmem⟩ := @restore_eq _ outerCuts
    { memo with
      openSerials := outer
      cuts := memo.cuts.filter fun cut => cut.1 < outer.length
      closedAsCut
      answers := Function.update memo.answers (owner serial) (some ⟨answer,
        if answer = memo.cutAnswer then memo.cuts.filter fun cut => cut.1 < outer.length
        else []⟩) } hretained houter
  have hlower : ∀ rest ∈ memo.cuts.filter fun cut => cut.1 < outer.length, rest.2 < serial := by
    intro rest hrest
    have hascending := h.ascending
    rw [hopen, List.pairwise_append] at hascending
    exact hascending.2.2 rest.2 (List.mem_of_getElem? (hretained rest hrest)) serial
      (List.mem_singleton_self serial)
  have hserial : serial < memo.nextSerial := h.serial_lt serial (by simp [hopen])
  have hanswer : ∀ {y : κ} {kept : Answer}, Function.update memo.answers (owner serial)
      (some ⟨answer, if answer = memo.cutAnswer then
        memo.cuts.filter fun cut => cut.1 < outer.length else []⟩) y = some kept →
      memo.answers y = some kept ∨ y = owner serial ∧ kept = ⟨answer,
        if answer = memo.cutAnswer then memo.cuts.filter fun cut => cut.1 < outer.length
        else []⟩ := by
    intro y kept hkept
    by_cases hy : y = owner serial
    · subst hy
      rw [Function.update_self] at hkept
      exact Or.inr ⟨rfl, (Option.some.inj hkept).symm⟩
    · rw [Function.update_of_ne hy] at hkept
      exact Or.inl hkept
  rw [hclose]
  unfold endWalk retain
  simp only []
  rw [hrestore]
  refine ⟨_, _, rfl, ?_, rfl, rfl, rfl, hmem⟩
  constructor
  · have hascending := h.ascending
    rw [hopen, List.pairwise_append] at hascending
    exact hascending.1
  · intro s hs
    exact h.serial_lt s (by rw [hopen]; exact List.mem_append_left _ hs)
  · intro cut hcut
    rcases (hmem cut).mp hcut with hcut | hcut
    · exact houter cut hcut
    · exact hretained cut hcut
  · intro y kept hkept rest hrest
    rcases hanswer hkept with hkept | ⟨-, rfl⟩
    · exact h.rests_lt hkept rest hrest
    · by_cases hcut : answer = memo.cutAnswer
      · rw [if_pos hcut] at hrest
        exact Nat.lt_trans (hlower rest hrest) hserial
      · rw [if_neg hcut] at hrest
        cases hrest
  · intro s rests hs
    rcases hclosed hs with hs | ⟨-, rfl, rfl⟩
    · exact h.closed_lt hs
    · exact ⟨hserial, hlower⟩
  · intro s rests hs
    rcases hclosed hs with hs | ⟨hcut, rfl, rfl⟩
    · exact h.closed_stays hs
    · exact hstays hcut
  · intro y kept hkept hcut
    rcases hanswer hkept with hkept | ⟨rfl, rfl⟩
    · exact h.answer_stays hkept hcut
    · rw [if_pos hcut]
      exact hstays hcut
  · intro y kept hkept hcut
    rcases hanswer hkept with hkept | ⟨rfl, rfl⟩
    · exact h.answer_reaches hkept hcut
    · exact hreaches hcut

end CutMemo

end Wado
