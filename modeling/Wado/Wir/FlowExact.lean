/-
The backward pass answers the liveness of the flow graph, exactly: it never runs ahead
of the paths, and where a loop's head stays it has caught up with them.
-/
import Mathlib.Data.Finset.Card
import Wado.Wir.FlowRuns

namespace Wado.Wir.Liveness

open List

theorem landing_cons_succ (frame : Frame) (frames : List Frame) (depth : Nat) :
    landing (frame :: frames) (depth + 1) = landing frames depth := by
  cases frame <;> rfl

variable {n : Nat}

theorem liveWithin_done {x : Ident} {frame : Frame} {frames : List Frame} :
    LiveWithin x (n + 1) ⟨.done, frame :: frames⟩ ↔ LiveWithin x n ⟨frame.rest, frames⟩ := by
  simp [LiveWithin, Place.reads, Place.writes, Place.successors]

theorem Live.done {x : Ident} {frame : Frame} {frames : List Frame}
    (h : Live x ⟨frame.rest, frames⟩) : Live x ⟨.done, frame :: frames⟩ :=
  .step (Finset.notMem_empty x) (mem_singleton.mpr rfl) h

namespace Code

/-- The locals the code reads. -/
def reads : Code → Bits
  | .done => ∅
  | .read name rest => insert name rest.reads
  | .store _ rest => rest.reads
  | .block body rest => body.reads ∪ rest.reads
  | .loop body rest => body.reads ∪ rest.reads
  | .ifThen thenBody rest => thenBody.reads ∪ rest.reads
  | .ifElse thenBody elseBody rest => thenBody.reads ∪ (elseBody.reads ∪ rest.reads)
  | .br _ rest => rest.reads
  | .brIf _ rest => rest.reads
  | .brTable _ rest => rest.reads
  | .exit rest => rest.reads

/-- The loops of the code by their start events, with the places of their heads. -/
def heads : Code → Nat → List Frame → List (Nat × Place)
  | .done, _, _ => []
  | .loop body rest, p, frames =>
    (p, ⟨body, .loop body rest :: frames⟩) :: (body.heads (p + 1) (.loop body rest :: frames) ++
        rest.heads (p + 1 + body.size + 1) frames)
  | .block body rest, p, frames =>
    body.heads (p + 1) (.block rest :: frames) ++ rest.heads (p + 1 + body.size + 1) frames
  | .ifThen thenBody rest, p, frames =>
    thenBody.heads (p + 1) (.block rest :: frames) ++ rest.heads (p + 1 + thenBody.size + 1) frames
  | .ifElse thenBody elseBody rest, p, frames =>
    thenBody.heads (p + 1) (.block rest :: frames) ++
      (elseBody.heads (p + 1 + thenBody.size + 1) (.block rest :: frames) ++
        rest.heads (p + 1 + thenBody.size + 1 + elseBody.size + 1) frames)
  | .read _ rest, p, frames => rest.heads (p + 1) frames
  | .store _ rest, p, frames => rest.heads (p + 1) frames
  | .br _ rest, p, frames => rest.heads (p + 1) frames
  | .brIf _ rest, p, frames => rest.heads (p + 1) frames
  | .brTable _ rest, p, frames => rest.heads (p + 1) frames
  | .exit rest, p, frames => rest.heads (p + 1) frames

theorem heads_bounds (code : Code) : ∀ {p : Nat} {frames : List Frame} {o : Nat} {place : Place},
    (o, place) ∈ code.heads p frames → p ≤ o ∧ o < p + code.size := by
  induction code with
  | done => intro p frames o place h; cases h
  | read _ rest ih | store _ rest ih | br _ rest ih | brIf _ rest ih | brTable _ rest ih
  | exit rest ih =>
  intro p frames o place h
  have := ih h
  simp
  omega
  | block body rest ihb ihr | ifThen body rest ihb ihr =>
    intro p frames o place h
    simp only [heads, mem_append] at h
    simp
    rcases h with h | h
    · have := ihb h
      omega
    · have := ihr h
      omega
  | loop body rest ihb ihr =>
    intro p frames o place h
    simp only [heads, mem_cons, mem_append, Prod.mk.injEq] at h
    simp
    rcases h with ⟨rfl, -⟩ | h | h
    · omega
    · have := ihb h
      omega
    · have := ihr h
      omega
  | ifElse thenBody elseBody rest iht ihe ihr =>
    intro p frames o place h
    simp only [heads, mem_append] at h
    simp
    rcases h with h | h | h
    · have := iht h
      omega
    · have := ihe h
      omega
    · have := ihr h
      omega

theorem heads_apart {code later : Code} {p q : Nat} {frames frames' : List Frame} {o : Nat}
    {place place' : Place} (h : (o, place) ∈ code.heads p frames)
    (h' : (o, place') ∈ later.heads q frames') (hapart : p + code.size ≤ q) : False := by
  have := heads_bounds _ h
  have := heads_bounds _ h'
  omega

/-- A start event is of one loop. -/
theorem heads_unique (code : Code) : ∀ {p : Nat} {frames : List Frame} {o : Nat}
    {place place' : Place}, (o, place) ∈ code.heads p frames → (o, place') ∈ code.heads p frames →
      place = place' := by
  induction code with
  | done => intro p frames o place place' h; cases h
  | read _ rest ih | store _ rest ih | br _ rest ih | brIf _ rest ih | brTable _ rest ih
  | exit rest ih => exact fun h h' => ih h h'
  | block body rest ihb ihr | ifThen body rest ihb ihr =>
    intro p frames o place place' h h'
    simp only [heads, mem_append] at h h'
    rcases h with h | h <;> rcases h' with h' | h'
    · exact ihb h h'
    · exact (heads_apart h h' (by omega)).elim
    · exact (heads_apart h' h (by omega)).elim
    · exact ihr h h'
  | loop body rest ihb ihr =>
    intro p frames o place place' h h'
    simp only [heads, mem_cons, mem_append, Prod.mk.injEq] at h h'
    have hinside : ∀ {place}, (o, place) ∈ body.heads (p + 1) (.loop body rest :: frames) ∨
        (o, place) ∈ rest.heads (p + 1 + body.size + 1) frames → o ≠ p := by
      rintro place (h | h)
      · have := heads_bounds _ h
        omega
      · have := heads_bounds _ h
        omega
    rcases h with ⟨ho, hplace⟩ | h <;> rcases h' with ⟨ho', hplace'⟩ | h'
    · rw [hplace, hplace']
    · exact absurd ho (hinside h')
    · exact absurd ho' (hinside h)
    · rcases h with h | h <;> rcases h' with h' | h'
      · exact ihb h h'
      · exact (heads_apart h h' (by omega)).elim
      · exact (heads_apart h' h (by omega)).elim
      · exact ihr h h'
  | ifElse thenBody elseBody rest iht ihe ihr =>
    intro p frames o place place' h h'
    simp only [heads, mem_append] at h h'
    rcases h with h | h | h <;> rcases h' with h' | h' | h'
    · exact iht h h'
    · exact (heads_apart h h' (by omega)).elim
    · exact (heads_apart h h' (by omega)).elim
    · exact (heads_apart h' h (by omega)).elim
    · exact ihe h h'
    · exact (heads_apart h h' (by omega)).elim
    · exact (heads_apart h' h (by omega)).elim
    · exact (heads_apart h' h (by omega)).elim
    · exact ihr h h'

end Code

section Analysis

variable (flow : Flow) (names : Bits) (loops : List (Nat × Place))

/-- A local the body reads, that a path from the place can still read. -/
def Good (place : Place) (x : Ident) : Prop := x ∈ names ∧ Live x place

/-- What is assumed live at the end and at the labels is live in the flow graph. -/
structure Under (labels : List Bits) (frames : List Frame) (live : Bits) : Prop where
  fall : ∀ x ∈ live, Good names ⟨.done, frames⟩ x
  label : ∀ depth x, x ∈ target labels depth →
    ∃ place, landing frames depth = some place ∧ Good names place x

/-- What paths of so few steps read is assumed live at the end and at the labels. -/
structure Over (labels : List Bits) (frames : List Frame) (live : Bits) (n : Nat) : Prop where
  fall : ∀ x, LiveWithin x (n + 1) ⟨.done, frames⟩ → x ∈ live
  label : ∀ depth place x, landing frames depth = some place → LiveWithin x n place →
    x ∈ target labels depth

/-- The loop heads kept are live in the flow graph. -/
def HeadsUnder (backward : Backward) : Prop :=
  ∀ o head place, backward.loopHeads o = some head → (o, place) ∈ loops →
    ∀ x ∈ head, Good names place x

/-- One of the stores, of this number, writes a local that no path after it reads. -/
def FoundIn (stores : List (Store × Place)) (id : Nat) : Prop :=
  ∃ name after, (Store.one name id, after) ∈ stores ∧ ¬ Live name after

theorem foundIn_append {stores stores' : List (Store × Place)} {id : Nat} :
    FoundIn (stores ++ stores') id ↔ FoundIn stores id ∨ FoundIn stores' id := by
  simp only [FoundIn, mem_append, or_and_right, exists_or]

/-- The pass over the code from its end, and what it finds. -/
structure Analyzed (labels : List Bits) (frames : List Frame) (p : Nat) (code : Code)
    (live : Bits) (backward : Backward) (r : Bits × Backward) : Prop where
  runs : ∀ start, start ≤ p → ∀ out, Region flow labels start p r.1 r.2 out →
    Region flow labels start (p + code.size) live backward out
  under : ∀ x ∈ r.1, Good names ⟨code, frames⟩ x
  heads : HeadsUnder names loops r.2
  dead : backward.dead <+: r.2.dead
  covers : ∀ n, Over labels frames live n → ∀ x, LiveWithin x (n + 1) ⟨code, frames⟩ → x ∈ r.1
  found : (∀ n, Over labels frames live n) → ∀ id,
    id ∈ r.2.dead ↔ id ∈ backward.dead ∨ FoundIn (code.stores frames) id

variable {flow : Flow} {names : Bits} {loops : List (Nat × Place)}
  {labels : List Bits} {frames : List Frame} {p : Nat} {rest body : Code} {live : Bits}
  {backward : Backward} {r : Bits × Backward}

/-- A place goes on being live from the one before it. -/
theorem Good.step {place next : Place} {x : Ident} (hkept : x ∉ place.writes)
    (hnext : next ∈ place.successors) (h : Good names next x) : Good names place x :=
  ⟨h.1, .step hkept hnext h.2⟩

/-- An event that writes nothing and is no construct, before the rest of the code. -/
theorem Analyzed.linear {code : Code} {live' : Bits}
    (h : Analyzed flow names loops labels frames (p + 1) rest live backward r)
    (hsize : code.size = rest.size + 1) (hstores : code.stores frames = rest.stores frames)
    (hrun : ∀ start, start ≤ p → ∀ out, Region flow labels start p live' r.2 out →
      Region flow labels start (p + 1) r.1 r.2 out)
    (hunder : ∀ x ∈ live', Good names ⟨code, frames⟩ x)
    (hover : ∀ n, Over labels frames live n → ∀ x, LiveWithin x (n + 1) ⟨code, frames⟩ →
      x ∈ live') :
    Analyzed flow names loops labels frames p code live backward (live', r.2) where
  runs := by
    intro start hstart out hout
    rw [hsize, show p + (rest.size + 1) = p + 1 + rest.size by omega]
    exact h.runs start (by omega) out (hrun start hstart out hout)
  under := hunder
  heads := h.heads
  dead := h.dead
  covers := hover
  found := by
    rw [hstores]
    exact h.found

theorem Analyzed.read {name : Ident} (hevent : flow.events[p]? = some (.read name))
    (hname : name ∈ names)
    (h : Analyzed flow names loops labels frames (p + 1) rest live backward r) :
    Analyzed flow names loops labels frames p (.read name rest) live backward
      (insert name r.1, r.2) := by
  refine h.linear rfl rfl (fun start hstart out => Region.read hstart hevent) ?_ ?_
  · intro x hx
    rcases Finset.mem_insert.mp hx with rfl | hx
    · exact ⟨hname, .read rfl⟩
    · exact (h.under x hx).step (Finset.notMem_empty x) (mem_singleton.mpr rfl)
  · rintro n hn x (hread | ⟨-, next, hnext, hlive⟩)
    · exact Finset.mem_insert.mpr (Or.inl hread.symm)
    · rw [mem_singleton.mp hnext] at hlive
      exact Finset.mem_insert_of_mem (h.covers n hn x hlive.succ)

theorem Analyzed.br {depth : Nat} (hunder : Under names labels frames live)
    (hevent : flow.events[p]? = some (.br depth))
    (h : Analyzed flow names loops labels frames (p + 1) rest live backward r) :
    Analyzed flow names loops labels frames p (.br depth rest) live backward
      (target labels depth, r.2) := by
  refine h.linear rfl rfl (fun start hstart out => Region.br hstart hevent) ?_ ?_
  · intro x hx
    obtain ⟨place, hplace, hgood⟩ := hunder.label depth x hx
    exact hgood.step (Finset.notMem_empty x) (Option.mem_toList.mpr hplace)
  · rintro n hn x (hread | ⟨-, next, hnext, hlive⟩)
    · cases hread
    · exact hn.label depth next x (Option.mem_toList.mp hnext) hlive

theorem Analyzed.brIf {depth : Nat} (hunder : Under names labels frames live)
    (hevent : flow.events[p]? = some (.brIf depth))
    (h : Analyzed flow names loops labels frames (p + 1) rest live backward r) :
    Analyzed flow names loops labels frames p (.brIf depth rest) live backward
      (r.1 ∪ target labels depth, r.2) := by
  refine h.linear rfl rfl (fun start hstart out => Region.brIf hstart hevent) ?_ ?_
  · intro x hx
    rcases Finset.mem_union.mp hx with hx | hx
    · exact (h.under x hx).step (Finset.notMem_empty x) mem_cons_self
    · obtain ⟨place, hplace, hgood⟩ := hunder.label depth x hx
      exact hgood.step (Finset.notMem_empty x)
        (mem_cons_of_mem _ (Option.mem_toList.mpr hplace))
  · rintro n hn x (hread | ⟨-, next, hnext, hlive⟩)
    · cases hread
    · rcases mem_cons.mp hnext with rfl | hnext
      · exact Finset.mem_union_left _ (h.covers n hn x hlive.succ)
      · exact Finset.mem_union_right _
          (hn.label depth next x (Option.mem_toList.mp hnext) hlive)

variable {depths : List Nat}

theorem mem_foldl_union {x : Ident} : ∀ {live : Bits},
    x ∈ depths.foldl (fun live depth => live ∪ target labels depth) live ↔
      x ∈ live ∨ ∃ depth ∈ depths, x ∈ target labels depth := by
  induction depths with
  | nil => simp
  | cons depth depths ih =>
    intro live
    rw [foldl_cons, ih, Finset.mem_union]
    simp [or_assoc]

theorem Analyzed.brTable (hunder : Under names labels frames live)
    (hevent : flow.events[p]? = some (.brTable depths))
    (h : Analyzed flow names loops labels frames (p + 1) rest live backward r) :
    Analyzed flow names loops labels frames p (.brTable depths rest) live backward
      (depths.foldl (fun live depth => live ∪ target labels depth) ∅, r.2) := by
  refine h.linear rfl rfl (fun start hstart out => Region.brTable hstart hevent) ?_ ?_
  · intro x hx
    obtain hx | ⟨depth, hdepth, hx⟩ := mem_foldl_union.mp hx
    · cases Finset.notMem_empty x hx
    · obtain ⟨place, hplace, hgood⟩ := hunder.label depth x hx
      exact hgood.step (Finset.notMem_empty x)
        (mem_filterMap.mpr ⟨depth, hdepth, hplace⟩)
  · rintro n hn x (hread | ⟨-, next, hnext, hlive⟩)
    · cases hread
    · obtain ⟨depth, hdepth, hplace⟩ := mem_filterMap.mp hnext
      exact mem_foldl_union.mpr (Or.inr ⟨depth, hdepth, hn.label depth next x hplace hlive⟩)

theorem Analyzed.exit (hevent : flow.events[p]? = some .exit)
    (h : Analyzed flow names loops labels frames (p + 1) rest live backward r) :
    Analyzed flow names loops labels frames p (.exit rest) live backward (∅, r.2) := by
  refine h.linear rfl rfl (fun start hstart out => Region.exit hstart hevent) ?_ ?_
  · intro x hx
    cases Finset.notMem_empty x hx
  · rintro n hn x (hread | ⟨-, next, hnext, hlive⟩)
    · cases hread
    · cases hnext

theorem Backward.store_loopHeads (write : Store) (live : Bits) :
    (backward.store write live).loopHeads = backward.loopHeads := by
  cases write with
  | bind => rfl
  | one name id =>
    simp only [Backward.store]
    split <;> rfl

theorem Backward.dead_store (write : Store) (live : Bits) :
    backward.dead <+: (backward.store write live).dead := by
  cases write with
  | bind => exact prefix_rfl
  | one name id =>
    simp only [Backward.store]
    split
    · exact prefix_append _ _
    · exact prefix_rfl

variable {write : Store}

theorem Backward.mem_store {live : Bits} {id : Nat} :
    id ∈ (backward.store write live).dead ↔
      id ∈ backward.dead ∨ ∃ name, write = .one name id ∧ name ∉ live := by
  cases write with
  | bind => simp [Backward.store]
  | one name number =>
    simp only [Backward.store]
    split
    case isTrue h =>
      simp only [mem_append, mem_singleton, Store.one.injEq]
      constructor
      · rintro (hid | rfl)
        · exact Or.inl hid
        · exact Or.inr ⟨name, ⟨rfl, rfl⟩, h.1⟩
      · rintro (hid | ⟨_, ⟨-, hid⟩, -⟩)
        · exact Or.inl hid
        · exact Or.inr hid.symm
    case isFalse h =>
      simp only [Store.one.injEq]
      constructor
      · exact Or.inl
      · rintro (hid | ⟨_, ⟨rfl, rfl⟩, hnot⟩)
        · exact hid
        · exact not_not.mp fun hid => h ⟨hnot, hid⟩

theorem Analyzed.store (hevent : flow.events[p]? = some (.store write))
    (h : Analyzed flow names loops labels frames (p + 1) rest live backward r) :
    Analyzed flow names loops labels frames p (.store write rest) live backward
      (r.1 \ write.writes, r.2.store write r.1) where
  runs := by
    intro start hstart out hout
    rw [Code.size_store, show p + (rest.size + 1) = p + 1 + rest.size by omega]
    exact h.runs start (by omega) out (hout.store hstart hevent)
  under := by
    intro x hx
    obtain ⟨hx, hkept⟩ := Finset.mem_sdiff.mp hx
    exact (h.under x hx).step hkept (mem_singleton.mpr rfl)
  heads := by
    intro o head place hhead
    rw [Backward.store_loopHeads] at hhead
    exact h.heads o head place hhead
  dead := h.dead.trans (Backward.dead_store write r.1)
  covers := by
    rintro n hn x (hread | ⟨hkept, next, hnext, hlive⟩)
    · cases hread
    · rw [mem_singleton.mp hnext] at hlive
      exact Finset.mem_sdiff.mpr ⟨h.covers n hn x hlive.succ, hkept⟩
  found := by
    intro hn id
    have hexact : ∀ x, x ∉ r.1 ↔ ¬ Live x ⟨rest, frames⟩ := by
      intro x
      rw [not_iff_not]
      constructor
      · exact fun hx => (h.under x hx).2
      · intro hlive
        obtain ⟨n, hwithin⟩ := hlive.within
        exact h.covers n (hn n) x hwithin.succ
    rw [Backward.mem_store, h.found hn, or_assoc]
    refine or_congr_right ?_
    simp only [FoundIn, Code.stores, mem_cons, Prod.mk.injEq, hexact]
    constructor
    · rintro (⟨name, after, hstore, hdead⟩ | ⟨name, rfl, hdead⟩)
      · exact ⟨name, after, Or.inr hstore, hdead⟩
      · exact ⟨name, _, Or.inl ⟨rfl, rfl⟩, hdead⟩
    · rintro ⟨name, after, ⟨rfl, rfl⟩ | hstore, hdead⟩
      · exact Or.inr ⟨name, rfl, hdead⟩
      · exact Or.inl ⟨name, after, hstore, hdead⟩

/-- Inside a label: what follows it is live at its end, and `landing` where a branch to
it lands. -/
theorem Under.push {frame : Frame} {after landingLive : Bits}
    (h : Under names labels frames live) (hafter : ∀ x ∈ after, Good names ⟨frame.rest, frames⟩ x)
    (hlanding : ∀ x ∈ landingLive,
      ∃ place, landing (frame :: frames) 0 = some place ∧ Good names place x) :
    Under names (landingLive :: labels) (frame :: frames) after where
  fall := fun x hx => ⟨(hafter x hx).1, (hafter x hx).2.done⟩
  label := by
    intro depth x hx
    cases depth with
    | zero => exact hlanding x hx
    | succ depth =>
      rw [landing_cons_succ]
      exact h.label depth x hx

theorem Over.push {frame : Frame} {after landingLive : Bits} {n : Nat}
    (h : Over labels frames live n)
    (hafter : ∀ x, LiveWithin x (n + 1) ⟨frame.rest, frames⟩ → x ∈ after)
    (hlanding : ∀ place x, landing (frame :: frames) 0 = some place → LiveWithin x n place →
      x ∈ landingLive) :
    Over (landingLive :: labels) (frame :: frames) after n where
  fall := fun x hx => hafter x (liveWithin_done.mp hx).succ
  label := by
    intro depth place x hplace hlive
    cases depth with
    | zero => exact hlanding place x hplace hlive
    | succ depth =>
      rw [landing_cons_succ] at hplace
      exact h.label depth place x hplace hlive

/-- Inside a block, or an arm of an `if`, whose end and label are one place. -/
theorem Under.block (h : Under names labels frames live)
    (hrest : ∀ x ∈ r.1, Good names ⟨rest, frames⟩ x) :
    Under names (r.1 :: labels) (.block rest :: frames) r.1 :=
  h.push hrest fun x hx => ⟨_, rfl, hrest x hx⟩

theorem Over.block (h : Over labels frames live n)
    (hrest : ∀ x, LiveWithin x (n + 1) ⟨rest, frames⟩ → x ∈ r.1) :
    Over (r.1 :: labels) (.block rest :: frames) r.1 n := by
  refine h.push hrest ?_
  rintro place x ⟨⟩ hlive
  exact hrest x hlive.succ

variable {inner : Bits × Backward}

theorem Analyzed.block (hevent : flow.events[p + 1 + body.size]? = some .blockEnd)
    (hstart : flow.startOf (p + 1 + body.size) = p)
    (hrest : Analyzed flow names loops labels frames (p + 1 + body.size + 1) rest live backward r)
    (hbody : Analyzed flow names loops (r.1 :: labels) (.block rest :: frames) (p + 1) body r.1
      r.2 inner) :
    Analyzed flow names loops labels frames p (.block body rest) live backward inner where
  runs := by
    intro start hle out hout
    rw [Code.size_block, show p + (body.size + rest.size + 2) =
      p + 1 + body.size + 1 + rest.size by omega]
    refine hrest.runs start (by omega) out (Region.block (by omega) hevent ?_ (by rwa [hstart]))
    rw [hstart]
    exact hbody.runs (p + 1) le_rfl _ Region.refl
  under := fun x hx =>
    (hbody.under x hx).step (Finset.notMem_empty x) (mem_singleton.mpr rfl)
  heads := hbody.heads
  dead := hrest.dead.trans hbody.dead
  covers := by
    rintro n hn x (hread | ⟨-, next, hnext, hlive⟩)
    · cases hread
    · rw [mem_singleton.mp hnext] at hlive
      exact hbody.covers n (hn.block (hrest.covers n hn)) x hlive.succ
  found := by
    intro hn id
    rw [hbody.found (fun n => (hn n).block (hrest.covers n (hn n))), hrest.found hn, Code.stores,
      foundIn_append, or_assoc, @or_comm (FoundIn (rest.stores frames) id)]

theorem Analyzed.ifThen (hevent : flow.events[p + 1 + body.size]? = some .ifEnd)
    (hstart : flow.startOf (p + 1 + body.size) = p) (hsplit : flow.elseOf p = none)
    (hrest : Analyzed flow names loops labels frames (p + 1 + body.size + 1) rest live backward r)
    (hbody : Analyzed flow names loops (r.1 :: labels) (.block rest :: frames) (p + 1) body r.1
      r.2 inner) :
    Analyzed flow names loops labels frames p (.ifThen body rest) live backward
      (inner.1 ∪ r.1, inner.2) where
  runs := by
    intro start hle out hout
    rw [Code.size_ifThen, show p + (body.size + rest.size + 2) =
      p + 1 + body.size + 1 + rest.size by omega]
    refine hrest.runs start (by omega) out
      (Region.ifThen (by omega) hevent (by rwa [hstart]) ?_ (by rwa [hstart]))
    rw [hstart]
    exact hbody.runs (p + 1) le_rfl _ Region.refl
  under := by
    intro x hx
    rcases Finset.mem_union.mp hx with hx | hx
    · exact (hbody.under x hx).step (Finset.notMem_empty x) mem_cons_self
    · exact (hrest.under x hx).step (Finset.notMem_empty x)
        (mem_cons_of_mem _ mem_cons_self)
  heads := hbody.heads
  dead := hrest.dead.trans hbody.dead
  covers := by
    rintro n hn x (hread | ⟨-, next, hnext, hlive⟩)
    · cases hread
    · rcases mem_cons.mp hnext with rfl | hnext
      · exact Finset.mem_union_left _
          (hbody.covers n (hn.block (hrest.covers n hn)) x hlive.succ)
      · rw [mem_singleton.mp hnext] at hlive
        exact Finset.mem_union_right _ (hrest.covers n hn x hlive.succ)
  found := by
    intro hn id
    rw [hbody.found (fun n => (hn n).block (hrest.covers n (hn n))), hrest.found hn, Code.stores,
      foundIn_append, or_assoc, @or_comm (FoundIn (rest.stores frames) id)]

theorem Analyzed.ifElse {thenBody elseBody : Code} {thenSide elseSide : Bits × Backward}
    (hevent : flow.events[p + 1 + thenBody.size + 1 + elseBody.size]? = some .ifEnd)
    (hstart : flow.startOf (p + 1 + thenBody.size + 1 + elseBody.size) = p)
    (hsplit : flow.elseOf p = some (p + 1 + thenBody.size))
    (hrest : Analyzed flow names loops labels frames
      (p + 1 + thenBody.size + 1 + elseBody.size + 1) rest live backward r)
    (helse : Analyzed flow names loops (r.1 :: labels) (.block rest :: frames)
      (p + 1 + thenBody.size + 1) elseBody r.1 r.2 elseSide)
    (hthen : Analyzed flow names loops (r.1 :: labels) (.block rest :: frames) (p + 1) thenBody
      r.1 elseSide.2 thenSide) :
    Analyzed flow names loops labels frames p (.ifElse thenBody elseBody rest) live backward
      (thenSide.1 ∪ elseSide.1, thenSide.2) where
  runs := by
    intro start hle out hout
    rw [Code.size_ifElse, show p + (thenBody.size + elseBody.size + rest.size + 3) =
      p + 1 + thenBody.size + 1 + elseBody.size + 1 + rest.size by omega]
    refine hrest.runs start (by omega) out
      (Region.ifElse (by omega) hevent (by rwa [hstart])
        (helse.runs (p + 1 + thenBody.size + 1) le_rfl _ Region.refl) ?_ (by rwa [hstart]))
    rw [hstart]
    exact hthen.runs (p + 1) le_rfl _ Region.refl
  under := by
    intro x hx
    rcases Finset.mem_union.mp hx with hx | hx
    · exact (hthen.under x hx).step (Finset.notMem_empty x) mem_cons_self
    · exact (helse.under x hx).step (Finset.notMem_empty x)
        (mem_cons_of_mem _ mem_cons_self)
  heads := hthen.heads
  dead := hrest.dead.trans (helse.dead.trans hthen.dead)
  covers := by
    rintro n hn x (hread | ⟨-, next, hnext, hlive⟩)
    · cases hread
    · have hinside := hn.block (hrest.covers n hn)
      rcases mem_cons.mp hnext with rfl | hnext
      · exact Finset.mem_union_left _ (hthen.covers n hinside x hlive.succ)
      · rw [mem_singleton.mp hnext] at hlive
        exact Finset.mem_union_right _ (helse.covers n hinside x hlive.succ)
  found := by
    intro hn id
    have hinside := fun n => (hn n).block (hrest.covers n (hn n))
    rw [hthen.found hinside, helse.found hinside, hrest.found hn, Code.stores, foundIn_append,
      foundIn_append]
    tauto

/-- The head of a loop at its fixed point, and what its last pass finds. -/
structure Settled (flow : Flow) (names : Bits) (loops : List (Nat × Place))
    (labels : List Bits) (frames : List Frame) (p : Nat) (body rest : Code) (live after : Bits)
    (head : Bits) (backward : Backward) (r : Bits × Backward) : Prop where
  runs : Looped flow labels p (p + 1 + body.size) after head backward r
  under : ∀ x ∈ r.1, Good names ⟨body, .loop body rest :: frames⟩ x
  heads : HeadsUnder names loops r.2
  dead : backward.dead <+: r.2.dead
  covers : ∀ n, Over labels frames live n → (∀ x, LiveWithin x (n + 1) ⟨rest, frames⟩ → x ∈ after) →
    ∀ x, LiveWithin x (n + 1) ⟨body, .loop body rest :: frames⟩ → x ∈ r.1
  found : (∀ n, Over labels frames live n) →
    (∀ n x, LiveWithin x (n + 1) ⟨rest, frames⟩ → x ∈ after) → ∀ id,
      id ∈ r.2.dead ↔ id ∈ backward.dead ∨ FoundIn (body.stores (.loop body rest :: frames)) id

/-- Where a pass adds nothing to the head, no path leaves the head behind. -/
theorem Analyzed.head_closed {after head : Bits}
    (h : Analyzed flow names loops (head :: labels) (.loop body rest :: frames) (p + 1) body after
      backward r) (hstays : r.1 ∪ head = head) (hn : Over labels frames live n)
    (hafter : ∀ x, LiveWithin x (n + 1) ⟨rest, frames⟩ → x ∈ after) {m : Nat} (hm : m ≤ n + 1) :
    ∀ x, LiveWithin x m ⟨body, .loop body rest :: frames⟩ → x ∈ head := by
  induction m with
  | zero =>
    intro x hx
    cases hx
  | succ m ih =>
    intro x hx
    have hover : Over (head :: labels) (.loop body rest :: frames) after m := by
      refine ⟨fun x hx => hafter x ((liveWithin_done.mp hx).mono (by omega)), ?_⟩
      intro depth place x hplace hlive
      cases depth with
      | zero =>
        cases hplace
        exact ih (by omega) x hlive
      | succ depth => exact hn.label depth place x hplace (hlive.mono (by omega))
    exact hstays ▸ Finset.mem_union_left head (h.covers m hover x hx)

/-- Under what is known of the labels around the loop, its head settles: each pass that
moves it adds a local the body reads. -/
theorem settles {after : Bits} (hunder : Under names labels frames live)
    (hbody : ∀ labels live backward, Under names labels (.loop body rest :: frames) live →
      HeadsUnder names loops backward → ∃ r, Analyzed flow names loops labels
        (.loop body rest :: frames) (p + 1) body live backward r)
    (hloop : ∀ place, (p, place) ∈ loops → place = ⟨body, .loop body rest :: frames⟩)
    (hafter : ∀ x ∈ after, Good names ⟨rest, frames⟩ x) : ∀ k head backward,
      (names \ head).card = k → (∀ x ∈ head, Good names ⟨body, .loop body rest :: frames⟩ x) →
      HeadsUnder names loops backward →
      ∃ r, Settled flow names loops labels frames p body rest live after head backward r := by
  intro k
  induction k using Nat.strong_induction_on with
  | _ k ih =>
    intro head backward hcard hhead hheads
    have hinside : Under names (head :: labels) (.loop body rest :: frames) after :=
      hunder.push hafter fun x hx => ⟨_, rfl, hhead x hx⟩
    obtain ⟨⟨next, passed⟩, hpass⟩ := hbody _ _ _ hinside hheads
    have hrun := hpass.runs (p + 1) le_rfl _ Region.refl
    by_cases hstays : next ∪ head = head
    · refine ⟨_, Looped.stop hrun hstays, hhead, ?_, hpass.dead,
        fun n hn hrest => hpass.head_closed hstays hn hrest le_rfl, ?_⟩
      · intro o other place hother hplace x hx
        by_cases ho : o = p
        · subst ho
          cases (Function.update_self _ _ _).symm.trans hother
          rw [hloop place hplace]
          exact hhead x hx
        · exact hpass.heads o other place
            ((Function.update_of_ne ho _ _).symm.trans hother) hplace x hx
      · intro hn hrest id
        refine hpass.found (fun n => ?_) id
        refine (hn n).push (hrest n) ?_
        rintro place x ⟨⟩ hlive
        exact hpass.head_closed hstays (hn n) (hrest n) (Nat.le_succ n) x hlive
    · have hgrown : ∀ x ∈ next ∪ head, Good names ⟨body, .loop body rest :: frames⟩ x := by
        intro x hx
        rcases Finset.mem_union.mp hx with hx | hx
        · exact hpass.under x hx
        · exact hhead x hx
      obtain ⟨x, hx, hnew⟩ : ∃ x ∈ next ∪ head, x ∉ head := by
        by_contra hnone
        exact hstays (Finset.Subset.antisymm
          (fun x hx => by_contra fun hnew => hnone ⟨x, hx, hnew⟩) Finset.subset_union_right)
      have hsmaller : (names \ (next ∪ head)).card < k := by
        rw [← hcard]
        apply Finset.card_lt_card
        refine ⟨Finset.sdiff_subset_sdiff le_rfl Finset.subset_union_right, ?_⟩
        intro hle
        have := hle (Finset.mem_sdiff.mpr ⟨(hgrown x hx).1, hnew⟩)
        exact (Finset.mem_sdiff.mp this).2 hx
      have hback : (passed.rollback backward.mark).dead = backward.dead :=
        (prefix_iff_eq_take.mp hpass.dead).symm
      obtain ⟨r, hr⟩ := ih _ hsmaller (next ∪ head) (passed.rollback backward.mark) rfl hgrown
        hpass.heads
      refine ⟨r, Looped.again hrun hstays hr.runs, hr.under, hr.heads, ?_, hr.covers, ?_⟩
      · rw [← hback]
        exact hr.dead
      · intro hn hrest id
        rw [← hback]
        exact hr.found hn hrest id

theorem Analyzed.loop (hevent : flow.events[p + 1 + body.size]? = some .loopEnd)
    (hstart : flow.startOf (p + 1 + body.size) = p)
    (hrest : Analyzed flow names loops labels frames (p + 1 + body.size + 1) rest live backward r)
    (hbody : Settled flow names loops labels frames p body rest live r.1
      ((r.2.loopHeads p).getD ∅) r.2 inner) :
    Analyzed flow names loops labels frames p (.loop body rest) live backward inner where
  runs := by
    intro start hle out hout
    rw [Code.size_loop, show p + (body.size + rest.size + 2) =
      p + 1 + body.size + 1 + rest.size by omega]
    refine hrest.runs start (by omega) out (Region.loop (by omega) hevent ?_ (by rwa [hstart]))
    rw [hstart]
    exact hbody.runs
  under := fun x hx =>
    (hbody.under x hx).step (Finset.notMem_empty x) (mem_singleton.mpr rfl)
  heads := hbody.heads
  dead := hrest.dead.trans hbody.dead
  covers := by
    rintro n hn x (hread | ⟨-, next, hnext, hlive⟩)
    · cases hread
    · rw [mem_singleton.mp hnext] at hlive
      exact hbody.covers n hn (hrest.covers n hn) x hlive.succ
  found := by
    intro hn id
    rw [hbody.found hn (fun n => hrest.covers n (hn n)), hrest.found hn, Code.stores,
      foundIn_append, or_assoc, @or_comm (FoundIn (rest.stores frames) id)]

/-- The pass runs over any code placed in the flow. -/
theorem analyzes (hunique : ∀ o place place', (o, place) ∈ loops → (o, place') ∈ loops →
      place = place') (code : Code) : ∀ (p : Nat) (frames : List Frame) (labels : List Bits)
    (live : Bits) (backward : Backward), Placed flow p code → code.reads ⊆ names →
      (∀ entry ∈ code.heads p frames, entry ∈ loops) → Under names labels frames live →
      HeadsUnder names loops backward →
      ∃ r, Analyzed flow names loops labels frames p code live backward r := by
  induction code with
  | done =>
    intro p frames labels live backward _ _ _ hunder hheads
    exact ⟨(live, backward), fun _ _ _ hout => hout, hunder.fall, hheads, prefix_rfl,
      fun n hn => hn.fall, fun _ _ => by simp [FoundIn, Code.stores]⟩
  | read name rest ih =>
    intro p frames labels live backward ⟨hevent, hplaced⟩ hreads hin hunder hheads
    obtain ⟨hname, hreads⟩ := Finset.insert_subset_iff.mp hreads
    obtain ⟨r, hr⟩ := ih _ frames labels live backward hplaced hreads hin hunder hheads
    exact ⟨_, hr.read hevent hname⟩
  | store write rest ih =>
    intro p frames labels live backward ⟨hevent, hplaced⟩ hreads hin hunder hheads
    obtain ⟨r, hr⟩ := ih _ frames labels live backward hplaced hreads hin hunder hheads
    exact ⟨_, hr.store hevent⟩
  | br depth rest ih =>
    intro p frames labels live backward ⟨hevent, hplaced⟩ hreads hin hunder hheads
    obtain ⟨r, hr⟩ := ih _ frames labels live backward hplaced hreads hin hunder hheads
    exact ⟨_, hr.br hunder hevent⟩
  | brIf depth rest ih =>
    intro p frames labels live backward ⟨hevent, hplaced⟩ hreads hin hunder hheads
    obtain ⟨r, hr⟩ := ih _ frames labels live backward hplaced hreads hin hunder hheads
    exact ⟨_, hr.brIf hunder hevent⟩
  | brTable depths rest ih =>
    intro p frames labels live backward ⟨hevent, hplaced⟩ hreads hin hunder hheads
    obtain ⟨r, hr⟩ := ih _ frames labels live backward hplaced hreads hin hunder hheads
    exact ⟨_, hr.brTable hunder hevent⟩
  | exit rest ih =>
    intro p frames labels live backward ⟨hevent, hplaced⟩ hreads hin hunder hheads
    obtain ⟨r, hr⟩ := ih _ frames labels live backward hplaced hreads hin hunder hheads
    exact ⟨_, hr.exit hevent⟩
  | block body rest ihb ihr =>
    intro p frames labels live backward ⟨hbody, hevent, hstart, hplaced⟩ hreads hin hunder hheads
    obtain ⟨hreadsBody, hreads⟩ := Finset.union_subset_iff.mp hreads
    obtain ⟨hinBody, hin⟩ := forall_mem_append.mp hin
    obtain ⟨r, hr⟩ := ihr _ frames labels live backward hplaced hreads hin hunder hheads
    obtain ⟨inner, hinner⟩ := ihb _ _ _ _ _ hbody hreadsBody hinBody (hunder.block hr.under)
      hr.heads
    exact ⟨inner, hr.block hevent hstart hinner⟩
  | ifThen body rest ihb ihr =>
    intro p frames labels live backward ⟨hbody, hevent, hstart, hsplit, hplaced⟩ hreads hin
      hunder hheads
    obtain ⟨hreadsBody, hreads⟩ := Finset.union_subset_iff.mp hreads
    obtain ⟨hinBody, hin⟩ := forall_mem_append.mp hin
    obtain ⟨r, hr⟩ := ihr _ frames labels live backward hplaced hreads hin hunder hheads
    obtain ⟨inner, hinner⟩ := ihb _ _ _ _ _ hbody hreadsBody hinBody (hunder.block hr.under)
      hr.heads
    exact ⟨_, hr.ifThen hevent hstart hsplit hinner⟩
  | ifElse thenBody elseBody rest iht ihe ihr =>
    intro p frames labels live backward ⟨hthen, helse, hevent, hstart, hsplit, hplaced⟩ hreads
      hin hunder hheads
    obtain ⟨hreadsThen, hreads⟩ := Finset.union_subset_iff.mp hreads
    obtain ⟨hreadsElse, hreads⟩ := Finset.union_subset_iff.mp hreads
    obtain ⟨hinThen, hin⟩ := forall_mem_append.mp hin
    obtain ⟨hinElse, hin⟩ := forall_mem_append.mp hin
    obtain ⟨r, hr⟩ := ihr _ frames labels live backward hplaced hreads hin hunder hheads
    obtain ⟨elseSide, helseSide⟩ := ihe _ _ _ _ _ helse hreadsElse hinElse
      (hunder.block hr.under) hr.heads
    obtain ⟨thenSide, hthenSide⟩ := iht _ _ _ _ _ hthen hreadsThen hinThen
      (hunder.block hr.under) helseSide.heads
    exact ⟨_, hr.ifElse hevent hstart hsplit helseSide hthenSide⟩
  | loop body rest ihb ihr =>
    intro p frames labels live backward ⟨hbody, hevent, hstart, hplaced⟩ hreads hin hunder hheads
    obtain ⟨hreadsBody, hreads⟩ := Finset.union_subset_iff.mp hreads
    obtain ⟨hhead, hin⟩ := forall_mem_cons.mp hin
    obtain ⟨hinBody, hin⟩ := forall_mem_append.mp hin
    obtain ⟨r, hr⟩ := ihr _ frames labels live backward hplaced hreads hin hunder hheads
    have hcached : ∀ x ∈ (r.2.loopHeads p).getD ∅,
        Good names ⟨body, .loop body rest :: frames⟩ x := by
      intro x hx
      cases hfound : r.2.loopHeads p with
      | none =>
        rw [hfound] at hx
        cases Finset.notMem_empty x hx
      | some head =>
        rw [hfound] at hx
        exact hr.heads p head _ hfound hhead x hx
    obtain ⟨inner, hinner⟩ := settles hunder
      (fun labels live backward => ihb _ _ labels live backward hbody hreadsBody hinBody)
      (fun place hplace => hunique p _ _ hplace hhead) hr.under _ _ _ rfl hcached hr.heads
    exact ⟨inner, hr.loop hevent hstart hinner⟩

end Analysis

section Whole

variable {Op Ty : Type} (body : List (WirInstr Op Ty))

/-- A store of the body, with the place after it. -/
def bodyStores : List (Store × Place) := (bodyCode body).stores []

/-- The pass over a whole body ends, and finds the stores of one local that no path
reads. -/
theorem deadStores_found : ∃ fuel dead, deadStores fuel body = some dead ∧
    ∀ id, id ∈ dead ↔ FoundIn (bodyStores body) id := by
  obtain ⟨flow, hflow, hevents, hplaced⟩ := Flow.of_eq body
  obtain ⟨⟨live, backward⟩, hr⟩ := @analyzes flow (bodyCode body).reads
    ((bodyCode body).heads 0 []) (fun _ _ _ => Code.heads_unique _) (bodyCode body) 0 [] [] ∅
    ⟨[], fun _ => none⟩ hplaced (Finset.Subset.refl _) (fun _ h => h)
    ⟨fun x hx => absurd hx (Finset.notMem_empty x), fun _ x hx =>
      absurd hx (Finset.notMem_empty x)⟩ (fun _ _ _ h => absurd h (by simp))
  have hover : ∀ n, Over [] [] ∅ n := by
    intro n
    refine ⟨?_, fun _ _ _ h => absurd h (by simp [landing])⟩
    rintro x (hread | ⟨-, next, hnext, -⟩)
    · cases hread
    · cases hnext
  obtain ⟨fuel, hfuel⟩ := hr.runs 0 le_rfl _ Region.refl
  refine ⟨fuel, backward.dead, ?_, fun id => (hr.found hover id).trans (by simp [bodyStores])⟩
  rw [Nat.zero_add, Code.size, ← hevents] at hfuel
  rw [deadStores, hflow, Option.bind_some, Flow.run, hfuel, Option.map_some]

/-- However much fuel the pass is given, it answers the same if it answers at all. -/
theorem deadStores_unique {fuel fuel' : Nat} {dead dead' : List Nat}
    (h : deadStores fuel body = some dead) (h' : deadStores fuel' body = some dead') :
    dead = dead' := by
  obtain ⟨flow, hflow, -⟩ := Flow.of_eq body
  rw [deadStores, hflow, Option.bind_some, Option.map_eq_some_iff] at h h'
  obtain ⟨r, hr, rfl⟩ := h
  obtain ⟨r', hr', rfl⟩ := h'
  have hsame := (region_mono (le_max_left fuel fuel') hr).symm.trans
    (region_mono (le_max_right fuel fuel') hr')
  rw [Option.some.inj hsame]

end Whole

end Wado.Wir.Liveness
