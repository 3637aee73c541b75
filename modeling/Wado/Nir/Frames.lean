/-
What running a node leaves alone: a local that it does not set keeps its value, and locals that
it does not mention make no difference to it.
-/
import Wado.Nir.Exec

namespace Wado.Nir

open Outcome

variable {Head Pat Const Obj World : Type} {machine : Machine Head Pat Const Obj World}
  {fuel : Nat}

variable {s s' : State Obj World} {body : State Obj World → Outcome Obj World}

section Kept

variable {index : Nat}

/-- A search that goes on after one that found nothing. -/
theorem clear_then {first second : Scan}
    (h : (match first with | .clear => second | found => found) = .clear) :
    first = .clear ∧ second = .clear := by
  cases first with
  | clear => exact ⟨rfl, h⟩
  | writes => cases h
  | panics => cases h

variable {bindings : List Nat}

theorem binds_clear
    (h : (if bindings.contains index then Scan.panics else .clear) = .clear) :
    bindings.contains index = false := by
  cases hbinds : bindings.contains index with
  | true => rw [hbinds] at h; cases h
  | false => rfl

mutual

/-- A subtree that the search for a write clears does not set the local. -/
theorem scan_clear_sets : ∀ (node : Node Head Pat Const), node.scan index = .clear →
    node.sets index = false
  | .int _, _ => rfl
  | .constant _, _ => rfl
  | .localVar _ _, _ => rfl
  | .eq left right, h => by
    obtain ⟨hright, hleft⟩ := clear_then h
    rw [Node.sets, scan_clear_sets left hleft, scan_clear_sets right hright, Bool.or_false]
  | .project head inner operands, h => by
    obtain ⟨hoperands, hinner⟩ := clear_then h
    rw [Node.sets, scan_clear_sets inner hinner, scanAll_clear_sets operands hoperands,
      Bool.or_false]
  | .mutRef place, h => by
    rw [Node.scan] at h
    split at h
    · cases h
    · exact scan_clear_sets place h
  | .assign target value, h => by
    rw [Node.scan] at h
    split at h
    next => cases h
    next hroot =>
      obtain ⟨hvalue, htarget⟩ := clear_then h
      rw [Node.sets, scan_clear_sets target htarget, scan_clear_sets value hvalue,
        beq_eq_false_iff_ne.mpr hroot, Bool.or_false, Bool.or_false]
  | .op head operands, h => scanAll_clear_sets operands h
  | .ifElse condition thenBlock elseBlock, h => by
    obtain ⟨helse, hrest⟩ := clear_then h
    obtain ⟨hthen, hcondition⟩ := clear_then hrest
    rw [Node.sets, scan_clear_sets condition hcondition, scanAll_clear_sets thenBlock hthen,
      scanAll_clear_sets elseBlock helse, Bool.or_false, Bool.or_false]
  | .ifThen condition thenBlock, h => by
    obtain ⟨hthen, hcondition⟩ := clear_then h
    rw [Node.sets, scan_clear_sets condition hcondition, scanAll_clear_sets thenBlock hthen,
      Bool.or_false]
  | .matchOn scrutinee arms, h => by
    obtain ⟨harms, hscrutinee⟩ := clear_then h
    rw [Node.sets, scan_clear_sets scrutinee hscrutinee, scanAll_clear_sets arms harms,
      Bool.or_false]
  | .arm pattern guard body, h => by
    obtain ⟨hbody, hrest⟩ := clear_then h
    obtain ⟨hguard, hpattern⟩ := clear_then hrest
    rw [Node.sets, scan_clear_sets body hbody, scanAll_clear_sets guard hguard,
      binds_clear hpattern, Bool.or_false, Bool.or_false]
  | .labeled label isUnit block, h => scanAll_clear_sets block h
  | .loop body, h => scanAll_clear_sets body h
  | .letTo isMut bound value, h => by
    rw [Node.scan] at h
    split at h
    next => cases h
    next hne =>
      rw [Node.sets, scan_clear_sets value h, beq_eq_false_iff_ne.mpr hne, Bool.or_false]
  | .letDestructure pattern value, h => by
    obtain ⟨hvalue, hpattern⟩ := clear_then h
    rw [Node.sets, scan_clear_sets value hvalue, binds_clear hpattern, Bool.or_false]
  | .expr operand, h => scan_clear_sets operand h
  | .breakTo label value, h => scanAll_clear_sets value h
  | .continue_, _ => rfl
  | .returnWith value, h => scanAll_clear_sets value h

theorem scanAll_clear_sets : ∀ (nodes : List (Node Head Pat Const)), scanAll index nodes = .clear →
    setsAny index nodes = false
  | [], _ => rfl
  | node :: rest, h => by
    obtain ⟨hrest, hnode⟩ := clear_then h
    rw [setsAny, scan_clear_sets node hnode, scanAll_clear_sets rest hrest, Bool.or_false]

end

/-- The outcome leaves a local as it was. -/
def Kept (index : Nat) (s : State Obj World) (outcome : Outcome Obj World) : Prop :=
  outcome.state.locals index = s.locals index

variable {outcome : Outcome Obj World}

variable {s : State Obj World}

theorem Kept.andThen {k : Val Obj → State Obj World → Outcome Obj World} (h : Kept index s outcome)
    (hk : ∀ v s, Kept index s (k v s)) : Kept index s (outcome.andThen k) := by
  unfold Outcome.andThen
  split
  · exact (hk _ _).trans h
  · exact h

theorem Kept.trap (s : State Obj World) : Kept index s (.trap s) := rfl

theorem set_kept {bound : Nat} (hne : bound ≠ index) (v : Val Obj) (s : State Obj World) :
    (s.set bound v).locals index = s.locals index := if_neg hne.symm

theorem setAll_kept (h : index ∉ bindings) (values : List (Val Obj))
    (s : State Obj World) : (State.setAll bindings values s).locals index = s.locals index := by
  induction bindings generalizing values s with
  | nil => rfl
  | cons bound bindings ih =>
    rw [List.mem_cons, not_or] at h
    cases values with
    | nil => rfl
    | cons v values =>
      rw [State.setAll, ih h.2]
      exact set_kept (Ne.symm h.1) v s

theorem bind_kept {pattern : Pattern Pat} (h : index ∉ pattern.binds) {v : Val Obj}
    (hbind : pattern.bind machine v s = some s') :
    s'.locals index = s.locals index := by
  cases pattern with
  | literal key =>
    cases v with
    | int number =>
      rw [Pattern.bind] at hbind
      rw [← Option.some.inj (Option.ite_none_right_eq_some.mp hbind).2]
    | _ => cases hbind
  | wildcard => rw [Option.some.inj hbind]
  | binding bound =>
    rw [← Option.some.inj hbind]
    exact set_kept (fun heq => h (List.mem_singleton.mpr heq.symm)) v s
  | other head bindings =>
    obtain ⟨values, -, rfl⟩ := Option.map_eq_some_iff.mp hbind
    exact setAll_kept h values s

theorem leaveBlock_kept (h : Kept index s outcome) (label : Option String) (isUnit : Bool) :
    Kept index s (outcome.leaveBlock label isUnit) := by
  unfold leaveBlock
  split
  · exact h
  · split
    · exact h
    · exact h
  · exact h

theorem iterate_kept (hbody : ∀ s, Kept index s (body s)) (turns : Nat) (s : State Obj World) :
    Kept index s (iterate body turns s) := by
  induction turns generalizing s with
  | zero => exact Kept.trap s
  | succ turns ih =>
    rw [iterate]
    unfold again
    split
    · exact (ih _).trans (hbody s)
    · exact (ih _).trans (hbody s)
    · exact hbody s
    · exact hbody s

mutual

/-- A local that is not shared, assigned or bound keeps its value. -/
theorem eval_kept (hshared : machine.shared index = false) :
    ∀ (node : Node Head Pat Const), node.sets index = false → ∀ s,
      Kept index s (eval machine fuel node s)
  | .int _, _, s => rfl
  | .constant _, _, s => rfl
  | .localVar _ _, _, s => rfl
  | .eq left right, h, s => by
    rw [Node.sets, Bool.or_eq_false_iff] at h
    exact (eval_kept hshared left h.1 s).andThen fun v s =>
      (eval_kept hshared right h.2 s).andThen fun w s => rfl
  | .project head inner operands, h, s => by
    rw [Node.sets, Bool.or_eq_false_iff] at h
    refine (eval_kept hshared inner h.1 s).andThen fun v s =>
      evalAll_kept hshared operands h.2 s fun vs s => ?_
    split <;> rfl
  | .mutRef place, h, s => by
    have hplace := eval_kept hshared place h s
    cases place with
    | localVar promoted _ => cases promoted <;> rfl
    | _ => exact hplace
  | .assign target value, h, s => by
    rw [Node.sets, Bool.or_eq_false_iff, Bool.or_eq_false_iff, beq_eq_false_iff_ne] at h
    obtain ⟨⟨hroot, htarget⟩, hvalue⟩ := h
    have hvalue (s : State Obj World) : Kept index s (eval machine fuel value s) :=
      eval_kept hshared value hvalue s
    cases target with
    | localVar promoted bound =>
      cases promoted with
      | true => rfl
      | false =>
        exact (hvalue s).andThen fun v s =>
          set_kept (fun heq => hroot (congrArg some heq)) v s
    | project head inner operands =>
      rw [Node.sets, Bool.or_eq_false_iff] at htarget
      refine (eval_kept hshared inner htarget.1 s).andThen fun object s => ?_
      refine evalAll_kept hshared operands htarget.2 s fun vs s => ?_
      refine (hvalue s).andThen fun v s => ?_
      split <;> rfl
    | _ => rfl
  | .op head operands, h, s => by
    rw [Node.sets] at h
    refine evalAll_kept hshared operands h s fun vs s => ?_
    split
    · exact if_neg (Bool.eq_false_iff.mp hshared)
    · rfl
  | .ifElse condition thenBlock elseBlock, h, s => by
    rw [Node.sets, Bool.or_eq_false_iff, Bool.or_eq_false_iff] at h
    refine (eval_kept hshared condition h.1.1 s).andThen fun v s => ?_
    split
    · exact evalBlock_kept hshared thenBlock h.1.2 .unit s
    · exact evalBlock_kept hshared elseBlock h.2 .unit s
  | .ifThen condition thenBlock, h, s => by
    rw [Node.sets, Bool.or_eq_false_iff] at h
    refine (eval_kept hshared condition h.1 s).andThen fun v s => ?_
    split
    · exact (evalBlock_kept hshared thenBlock h.2 .unit s).andThen fun _ s => rfl
    · rfl
  | .matchOn scrutinee arms, h, s => by
    rw [Node.sets, Bool.or_eq_false_iff] at h
    exact (eval_kept hshared scrutinee h.1 s).andThen fun v s =>
      evalArms_kept hshared arms h.2 v s
  | .arm _ _ _, _, s => rfl
  | .labeled label isUnit block, h, s =>
    leaveBlock_kept (evalBlock_kept hshared block h .unit s) label isUnit
  | .loop body, h, s => iterate_kept (evalBlock_kept hshared body h .unit) fuel s
  | .letTo _ bound value, h, s => by
    rw [Node.sets, Bool.or_eq_false_iff, beq_eq_false_iff_ne] at h
    exact (eval_kept hshared value h.2 s).andThen fun v s => set_kept h.1 v s
  | .letDestructure pattern value, h, s => by
    rw [Node.sets, Bool.or_eq_false_iff] at h
    refine (eval_kept hshared value h.2 s).andThen fun v s => ?_
    split
    next hbind =>
      exact bind_kept (fun hmem => absurd (List.contains_iff_mem.mpr hmem) (by rw [h.1]; decide))
        hbind
    next => rfl
  | .expr operand, h, s => eval_kept hshared operand h s
  | .breakTo label value, h, s => evalAll_kept hshared value h s fun vs s => rfl
  | .continue_, _, s => rfl
  | .returnWith value, h, s => evalAll_kept hshared value h s fun vs s => rfl

theorem evalAll_kept (hshared : machine.shared index = false) :
    ∀ (nodes : List (Node Head Pat Const)), setsAny index nodes = false → ∀ s
      {k : List (Val Obj) → State Obj World → Outcome Obj World}, (∀ vs s, Kept index s (k vs s)) →
        Kept index s (evalAll machine fuel nodes s k)
  | [], _, s, _, hk => hk [] s
  | node :: rest, h, s, _, hk => by
    rw [setsAny, Bool.or_eq_false_iff] at h
    exact (eval_kept hshared node h.1 s).andThen fun v s =>
      evalAll_kept hshared rest h.2 s fun vs s => hk (v :: vs) s

theorem evalBlock_kept (hshared : machine.shared index = false) :
    ∀ (nodes : List (Node Head Pat Const)), setsAny index nodes = false → ∀ last s,
      Kept index s (evalBlock machine fuel nodes last s)
  | [], _, last, s => rfl
  | node :: rest, h, _, s => by
    rw [setsAny, Bool.or_eq_false_iff] at h
    exact (eval_kept hshared node h.1 s).andThen fun v s =>
      evalBlock_kept hshared rest h.2 v s

theorem evalArms_kept (hshared : machine.shared index = false) :
    ∀ (arms : List (Node Head Pat Const)), setsAny index arms = false → ∀ v s,
      Kept index s (evalArms machine fuel arms v s)
  | [], _, v, s => rfl
  | node :: rest, h, v, s => by
    rw [setsAny, Bool.or_eq_false_iff] at h
    cases node with
    | arm pattern guard body =>
      rw [Node.sets, Bool.or_eq_false_iff, Bool.or_eq_false_iff] at h
      obtain ⟨⟨⟨hpattern, hguard⟩, hbody⟩, hrest⟩ := h
      have hfresh : index ∉ pattern.binds := fun hmem =>
        absurd (List.contains_iff_mem.mpr hmem) (Bool.eq_false_iff.mp hpattern)
      rw [evalArms]
      split
      · exact evalArms_kept hshared rest hrest v s
      next s' hbind =>
        refine Eq.trans ?_ (bind_kept hfresh hbind)
        refine evalAll_kept hshared guard hguard s' fun vs s'' => ?_
        split
        · exact eval_kept hshared body hbody s''
        · exact eval_kept hshared body hbody s''
        · exact evalArms_kept hshared rest hrest v s''
    | _ => exact evalArms_kept hshared rest h.2 v s

end

end Kept

section Alike

variable {hidden : List Nat}

theorem mentions_storageRoot {index : Nat} : ∀ (node : Node Head Pat Const),
    node.storageRoot = some index → node.mentions index = true
  | .localVar promoted i, h => by
    cases promoted with
    | true => cases h
    | false => rw [Node.mentions, Option.some.inj h, beq_self_eq_true]
  | .project _ inner _, h => by
    rw [Node.mentions, mentions_storageRoot inner h, Bool.true_or]
  | .mutRef place, h => mentions_storageRoot place h

mutual

/-- A local that is set is mentioned. -/
theorem mentions_sets {index : Nat} : ∀ (node : Node Head Pat Const),
    node.mentions index = false → node.sets index = false
  | .int _, _ => rfl
  | .constant _, _ => rfl
  | .localVar _ _, _ => rfl
  | .eq left right, h => by
    rw [Node.mentions, Bool.or_eq_false_iff] at h
    rw [Node.sets, mentions_sets left h.1, mentions_sets right h.2, Bool.or_false]
  | .project head inner operands, h => by
    rw [Node.mentions, Bool.or_eq_false_iff] at h
    rw [Node.sets, mentions_sets inner h.1, mentionsAny_sets operands h.2, Bool.or_false]
  | .mutRef place, h => mentions_sets place h
  | .assign target value, h => by
    rw [Node.mentions, Bool.or_eq_false_iff] at h
    have hroot : target.storageRoot ≠ some index := fun hroot =>
      absurd (mentions_storageRoot target hroot) (Bool.eq_false_iff.mp h.1)
    rw [Node.sets, mentions_sets target h.1, mentions_sets value h.2,
      beq_eq_false_iff_ne.mpr hroot, Bool.or_false, Bool.or_false]
  | .op head operands, h => mentionsAny_sets operands h
  | .ifElse condition thenBlock elseBlock, h => by
    rw [Node.mentions, Bool.or_eq_false_iff, Bool.or_eq_false_iff] at h
    rw [Node.sets, mentions_sets condition h.1.1, mentionsAny_sets thenBlock h.1.2,
      mentionsAny_sets elseBlock h.2, Bool.or_false, Bool.or_false]
  | .ifThen condition thenBlock, h => by
    rw [Node.mentions, Bool.or_eq_false_iff] at h
    rw [Node.sets, mentions_sets condition h.1, mentionsAny_sets thenBlock h.2, Bool.or_false]
  | .matchOn scrutinee arms, h => by
    rw [Node.mentions, Bool.or_eq_false_iff] at h
    rw [Node.sets, mentions_sets scrutinee h.1, mentionsAny_sets arms h.2, Bool.or_false]
  | .arm pattern guard body, h => by
    rw [Node.mentions, Bool.or_eq_false_iff, Bool.or_eq_false_iff] at h
    rw [Node.sets, h.1.1, mentionsAny_sets guard h.1.2, mentions_sets body h.2, Bool.or_false,
      Bool.or_false]
  | .labeled label isUnit block, h => mentionsAny_sets block h
  | .loop body, h => mentionsAny_sets body h
  | .letTo isMut bound value, h => by
    rw [Node.mentions, Bool.or_eq_false_iff] at h
    rw [Node.sets, h.1, mentions_sets value h.2, Bool.or_false]
  | .letDestructure pattern value, h => by
    rw [Node.mentions, Bool.or_eq_false_iff] at h
    rw [Node.sets, h.1, mentions_sets value h.2, Bool.or_false]
  | .expr operand, h => mentions_sets operand h
  | .breakTo label value, h => mentionsAny_sets value h
  | .continue_, _ => rfl
  | .returnWith value, h => mentionsAny_sets value h

theorem mentionsAny_sets {index : Nat} : ∀ (nodes : List (Node Head Pat Const)),
    mentionsAny index nodes = false → setsAny index nodes = false
  | [], _ => rfl
  | node :: rest, h => by
    rw [mentionsAny, Bool.or_eq_false_iff] at h
    rw [setsAny, mentions_sets node h.1, mentionsAny_sets rest h.2, Bool.or_false]

end

/-- The same world, and the same locals but for the hidden ones. -/
structure Off (hidden : List Nat) (s s' : State Obj World) : Prop where
  world : s.world = s'.world
  locals : ∀ i, i ∉ hidden → s.locals i = s'.locals i

theorem Off.refl (s : State Obj World) : Off hidden s s := ⟨rfl, fun _ _ => rfl⟩

theorem state_eq (hworld : s.world = s'.world)
    (hlocals : ∀ i, s.locals i = s'.locals i) : s = s' := by
  obtain ⟨locals, world⟩ := s
  obtain ⟨locals', world'⟩ := s'
  obtain rfl : locals = locals' := funext hlocals
  obtain rfl : world = world' := hworld
  rfl

section

variable (h : Off hidden s s')
include h

theorem Off.symm : Off hidden s' s :=
  ⟨h.world.symm, fun i hi => (h.locals i hi).symm⟩

theorem Off.set (index : Nat) (v : Val Obj) :
    Off hidden (s.set index v) (s'.set index v) where
  world := h.world
  locals := fun i hi => by
    unfold State.set
    dsimp only
    rw [h.locals i hi]

theorem Off.setAll (bindings : List Nat) (values : List (Val Obj)) :
    Off hidden (State.setAll bindings values s) (State.setAll bindings values s') := by
  induction bindings generalizing values s s' with
  | nil => exact h
  | cons index bindings ih =>
    cases values with
    | nil => exact h
    | cons v values => exact ih (h.set index v) values

theorem Off.withWorld (world : World) :
    Off hidden { s with world := world } { s' with world := world } := ⟨rfl, h.locals⟩

end

/-- The same exit and value, from states that differ in the hidden locals only. -/
structure Alike (hidden : List Nat) (o o' : Outcome Obj World) : Prop where
  exit : o.exit = o'.exit
  value : o.value = o'.value
  state : Off hidden o.state o'.state

variable {o o' : Outcome Obj World}

theorem Alike.andThen (h : Alike hidden o o') {k k' : Val Obj → State Obj World → Outcome Obj World}
    (hk : ∀ v s s', Off hidden s s' → Alike hidden (k v s) (k' v s')) :
    Alike hidden (o.andThen k) (o'.andThen k') := by
  unfold Outcome.andThen
  rw [← h.exit, ← h.value]
  split
  · exact hk _ _ _ h.state
  · exact h

theorem Alike.next (v : Val Obj) (h : Off hidden s s') :
    Alike hidden (.next v s) (.next v s') := ⟨rfl, rfl, h⟩

theorem Alike.trap (h : Off hidden s s') :
    Alike hidden (.trap s) (.trap s') := ⟨rfl, rfl, h⟩

theorem Alike.leaveBlock (h : Alike hidden o o') (label : Option String) (isUnit : Bool) :
    Alike hidden (o.leaveBlock label isUnit) (o'.leaveBlock label isUnit) := by
  unfold Outcome.leaveBlock
  rw [← h.exit, ← h.value]
  split
  · exact Alike.next _ h.state
  · split
    · exact Alike.next _ h.state
    · exact h
  · exact h

theorem iterate_alike
    (hbody : ∀ s s', Off hidden s s' → Alike hidden (body s) (body s')) (turns : Nat)
    (h : Off hidden s s') :
    Alike hidden (iterate body turns s) (iterate body turns s') := by
  induction turns generalizing s s' with
  | zero => exact Alike.trap h
  | succ turns ih =>
    have hturn := hbody s s' h
    rw [iterate, iterate]
    unfold again
    rw [← hturn.exit]
    split
    · exact ih hturn.state
    · exact ih hturn.state
    · exact Alike.next _ hturn.state
    · exact hturn

/-- A pattern binds alike in both states, or in neither. -/
theorem bind_alike (machine : Machine Head Pat Const Obj World) (pattern : Pattern Pat)
    (v : Val Obj) (h : Off hidden s s') :
    (pattern.bind machine v s = none ∧ pattern.bind machine v s' = none) ∨
      ∃ t t', pattern.bind machine v s = some t ∧ pattern.bind machine v s' = some t' ∧
        Off hidden t t' := by
  cases pattern with
  | literal key =>
    cases v with
    | int number =>
      rw [Pattern.bind, Pattern.bind]
      split
      · exact .inr ⟨s, s', rfl, rfl, h⟩
      · exact .inl ⟨rfl, rfl⟩
    | _ => exact .inl ⟨rfl, rfl⟩
  | wildcard => exact .inr ⟨s, s', rfl, rfl, h⟩
  | binding index => exact .inr ⟨_, _, rfl, rfl, h.set index v⟩
  | other head bindings =>
    rw [Pattern.bind, Pattern.bind]
    cases machine.matchOther head v with
    | none => exact .inl ⟨rfl, rfl⟩
    | some values => exact .inr ⟨_, _, rfl, rfl, h.setAll bindings values⟩

/-- None of the hidden locals is mentioned. -/
def Avoids (hidden : List Nat) (node : Node Head Pat Const) : Prop :=
  ∀ i ∈ hidden, node.mentions i = false

def AvoidsAll (hidden : List Nat) (nodes : List (Node Head Pat Const)) : Prop :=
  ∀ i ∈ hidden, mentionsAny i nodes = false

theorem avoids_or {f g : Nat → Bool} (h : ∀ i ∈ hidden, (f i || g i) = false) :
    (∀ i ∈ hidden, f i = false) ∧ ∀ i ∈ hidden, g i = false :=
  ⟨fun i hi => (Bool.or_eq_false_iff.mp (h i hi)).1,
    fun i hi => (Bool.or_eq_false_iff.mp (h i hi)).2⟩

theorem AvoidsAll.cons {node : Node Head Pat Const} {rest : List (Node Head Pat Const)}
    (h : AvoidsAll hidden (node :: rest)) : Avoids hidden node ∧ AvoidsAll hidden rest :=
  avoids_or h

/-- A call from either state sees and writes the same. -/
theorem op_alike (hshared : ∀ i ∈ hidden, machine.shared i = false) (head : Head)
    (vs : List (Val Obj)) (h : Off hidden s s') :
    Alike hidden
      (match machine.op head vs s.world (s.seen machine) with
        | some (result, world, written) => .next result (s.afterCall machine world written)
        | none => .trap s)
      (match machine.op head vs s'.world (s'.seen machine) with
        | some (result, world, written) => .next result (s'.afterCall machine world written)
        | none => .trap s') := by
  have hseen : s.seen machine = s'.seen machine := by
    funext i
    unfold State.seen
    split
    next hi => exact h.locals i fun hmem => absurd (hshared i hmem) (by rw [hi]; decide)
    next => rfl
  rw [h.world, hseen]
  split
  · refine Alike.next _ ⟨rfl, fun i hi => ?_⟩
    unfold State.afterCall
    dsimp only
    rw [h.locals i hi]
  · exact Alike.trap h

mutual

/-- Locals that are neither shared nor mentioned make no difference. -/
theorem eval_alike (hshared : ∀ i ∈ hidden, machine.shared i = false) :
    ∀ (node : Node Head Pat Const), Avoids hidden node → ∀ s s', Off hidden s s' →
      Alike hidden (eval machine fuel node s) (eval machine fuel node s')
  | .int _, _, s, s', hoff => Alike.next _ hoff
  | .constant _, _, s, s', hoff => Alike.next _ hoff
  | .localVar _ index, h, s, s', hoff => by
    have hindex : index ∉ hidden := fun hmem =>
      absurd (h index hmem) (by rw [Node.mentions, beq_self_eq_true]; decide)
    rw [eval, eval, hoff.locals index hindex]
    exact Alike.next _ hoff
  | .eq left right, h, s, s', hoff => by
    obtain ⟨hleft, hright⟩ := avoids_or h
    refine (eval_alike hshared left hleft s s' hoff).andThen fun v s s' hoff => ?_
    exact (eval_alike hshared right hright s s' hoff).andThen fun w s s' hoff =>
      Alike.next _ hoff
  | .project head inner operands, h, s, s', hoff => by
    obtain ⟨hinner, hoperands⟩ := avoids_or h
    refine (eval_alike hshared inner hinner s s' hoff).andThen fun v s s' hoff => ?_
    refine evalAll_alike hshared operands hoperands s s' hoff fun vs s s' hoff => ?_
    rw [hoff.world]
    split
    · exact Alike.next _ hoff
    · exact Alike.trap hoff
  | .mutRef place, h, s, s', hoff => by
    have hplace := eval_alike hshared place h s s' hoff
    cases place with
    | localVar promoted index =>
      cases promoted with
      | true => exact hplace
      | false => exact Alike.next _ hoff
    | _ => exact hplace
  | .assign target value, h, s, s', hoff => by
    obtain ⟨htarget, havoids⟩ := avoids_or h
    have hvalue (s s' : State Obj World) (hoff : Off hidden s s') :
        Alike hidden (eval machine fuel value s) (eval machine fuel value s') :=
      eval_alike hshared value havoids s s' hoff
    cases target with
    | localVar promoted index =>
      cases promoted with
      | true => exact Alike.trap hoff
      | false =>
        exact (hvalue s s' hoff).andThen fun v s s' hoff => Alike.next _ (hoff.set index v)
    | project head inner operands =>
      obtain ⟨hinner, hoperands⟩ := avoids_or htarget
      refine (eval_alike hshared inner hinner s s' hoff).andThen fun object s s' hoff => ?_
      refine evalAll_alike hshared operands hoperands s s' hoff fun vs s s' hoff => ?_
      refine (hvalue s s' hoff).andThen fun v s s' hoff => ?_
      rw [hoff.world]
      split
      · exact Alike.next _ (hoff.withWorld _)
      · exact Alike.trap hoff
    | _ => exact Alike.trap hoff
  | .op head operands, h, s, s', hoff =>
    evalAll_alike hshared operands h s s' hoff fun vs _ _ hoff => op_alike hshared head vs hoff
  | .ifElse condition thenBlock elseBlock, h, s, s', hoff => by
    obtain ⟨hrest, helse⟩ := avoids_or h
    obtain ⟨hcondition, hthen⟩ := avoids_or hrest
    refine (eval_alike hshared condition hcondition s s' hoff).andThen fun v s s' hoff => ?_
    split
    · exact evalBlock_alike hshared thenBlock hthen .unit s s' hoff
    · exact evalBlock_alike hshared elseBlock helse .unit s s' hoff
  | .ifThen condition thenBlock, h, s, s', hoff => by
    obtain ⟨hcondition, hthen⟩ := avoids_or h
    refine (eval_alike hshared condition hcondition s s' hoff).andThen fun v s s' hoff => ?_
    split
    · exact (evalBlock_alike hshared thenBlock hthen .unit s s' hoff).andThen
        fun _ _ _ hoff => Alike.next _ hoff
    · exact Alike.next _ hoff
  | .matchOn scrutinee arms, h, s, s', hoff => by
    obtain ⟨hscrutinee, harms⟩ := avoids_or h
    exact (eval_alike hshared scrutinee hscrutinee s s' hoff).andThen fun v s s' hoff =>
      evalArms_alike hshared arms harms v s s' hoff
  | .arm _ _ _, _, s, s', hoff => Alike.trap hoff
  | .labeled label isUnit block, h, s, s', hoff =>
    (evalBlock_alike hshared block h .unit s s' hoff).leaveBlock label isUnit
  | .loop body, h, s, s', hoff =>
    iterate_alike (evalBlock_alike hshared body h .unit) fuel hoff
  | .letTo _ index value, h, s, s', hoff => by
    exact (eval_alike hshared value (avoids_or h).2 s s' hoff).andThen fun v s s' hoff =>
      Alike.next _ (hoff.set index v)
  | .letDestructure pattern value, h, s, s', hoff => by
    refine (eval_alike hshared value (avoids_or h).2 s s' hoff).andThen fun v s s' hoff => ?_
    obtain ⟨hs, hs'⟩ | ⟨t, t', hs, hs', ht⟩ := bind_alike machine pattern v hoff
    · rw [hs, hs']
      exact Alike.trap hoff
    · rw [hs, hs']
      exact Alike.next _ ht
  | .expr operand, h, s, s', hoff => eval_alike hshared operand h s s' hoff
  | .breakTo label value, h, s, s', hoff =>
    evalAll_alike hshared value h s s' hoff fun vs _ _ hoff => ⟨rfl, rfl, hoff⟩
  | .continue_, _, _, _, hoff => ⟨rfl, rfl, hoff⟩
  | .returnWith value, h, s, s', hoff =>
    evalAll_alike hshared value h s s' hoff fun vs _ _ hoff => ⟨rfl, rfl, hoff⟩

theorem evalAll_alike (hshared : ∀ i ∈ hidden, machine.shared i = false) :
    ∀ (nodes : List (Node Head Pat Const)), AvoidsAll hidden nodes → ∀ s s', Off hidden s s' →
      ∀ {k k' : List (Val Obj) → State Obj World → Outcome Obj World},
        (∀ vs s s', Off hidden s s' → Alike hidden (k vs s) (k' vs s')) →
          Alike hidden (evalAll machine fuel nodes s k) (evalAll machine fuel nodes s' k')
  | [], _, s, s', hoff, _, _, hk => hk [] s s' hoff
  | node :: rest, h, s, s', hoff, _, _, hk =>
    (eval_alike hshared node h.cons.1 s s' hoff).andThen fun v s s' hoff =>
      evalAll_alike hshared rest h.cons.2 s s' hoff fun vs s s' hoff => hk (v :: vs) s s' hoff

theorem evalBlock_alike (hshared : ∀ i ∈ hidden, machine.shared i = false) :
    ∀ (nodes : List (Node Head Pat Const)), AvoidsAll hidden nodes → ∀ last s s', Off hidden s s' →
      Alike hidden (evalBlock machine fuel nodes last s) (evalBlock machine fuel nodes last s')
  | [], _, last, _, _, hoff => Alike.next last hoff
  | node :: rest, h, _, s, s', hoff =>
    (eval_alike hshared node h.cons.1 s s' hoff).andThen fun v s s' hoff =>
      evalBlock_alike hshared rest h.cons.2 v s s' hoff

theorem evalArms_alike (hshared : ∀ i ∈ hidden, machine.shared i = false) :
    ∀ (arms : List (Node Head Pat Const)), AvoidsAll hidden arms → ∀ v s s', Off hidden s s' →
      Alike hidden (evalArms machine fuel arms v s) (evalArms machine fuel arms v s')
  | [], _, _, _, _, hoff => Alike.trap hoff
  | node :: rest, h, v, s, s', hoff => by
    obtain ⟨hnode, hrest⟩ := h.cons
    cases node with
    | arm pattern guard body =>
      obtain ⟨hhead, hbody⟩ := avoids_or hnode
      obtain ⟨-, hguard⟩ := avoids_or hhead
      rw [evalArms, evalArms]
      obtain ⟨hs, hs'⟩ | ⟨t, t', hs, hs', ht⟩ := bind_alike machine pattern v hoff
      · rw [hs, hs']
        exact evalArms_alike hshared rest hrest v s s' hoff
      · rw [hs, hs']
        refine evalAll_alike hshared guard hguard t t' ht fun vs s s' hoff => ?_
        split
        · exact eval_alike hshared body hbody s s' hoff
        · exact eval_alike hshared body hbody s s' hoff
        · exact evalArms_alike hshared rest hrest v s s' hoff
    | _ => exact evalArms_alike hshared rest hrest v s s' hoff

end

end Alike

end Wado.Nir
