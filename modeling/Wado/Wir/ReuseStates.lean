/-
Two states that differ in the temps only, and a temp that holds what its chain
reads.
-/
import Wado.Wir.ReuseAvail
import Wado.Wir.Writes

namespace Wado.Wir

open Option

variable {Op Ty Val Rest : Type}

/-- The same but for the locals that are temps. -/
structure Agrees (isTemp : Ident → Prop) (s s' : State Val Rest) : Prop where
  stack : s'.stack = s.stack
  store : s'.store = s.store
  locals : ∀ x, ¬ isTemp x → s'.locals x = s.locals x

/-- The same way out, into states that agree. -/
structure SameOutcome (isTemp : Ident → Prop) (o o' : Outcome Val Rest) : Prop where
  exit : o'.exit = o.exit
  agrees : Agrees isTemp o.state o'.state

section

variable {isTemp : Ident → Prop} {s s' : State Val Rest}

theorem Agrees.withStack (h : Agrees isTemp s s') (stack : List Val) :
    Agrees isTemp { s with stack := stack } { s' with stack := stack } :=
  ⟨rfl, h.store, h.locals⟩

theorem Agrees.next (h : Agrees isTemp s s') : SameOutcome isTemp ⟨.next, s⟩ ⟨.next, s'⟩ :=
  ⟨rfl, h⟩

theorem Agrees.push (h : Agrees isTemp s s') (value : Val) :
    Agrees isTemp (s.push value) (s'.push value) :=
  ⟨congrArg (value :: ·) h.stack, h.store, h.locals⟩

variable (name : Ident)

section

variable (h : Agrees isTemp s s')
include h

theorem Agrees.assign (value : Val) :
    Agrees isTemp (s.assign name value) (s'.assign name value) := by
  refine ⟨h.stack, h.store, ?_⟩
  intro x hx
  by_cases heq : x = name
  · subst heq
    simp [State.assign]
  · simpa [State.assign, Function.update_of_ne heq] using h.locals x hx

/-- Setting a temp on one side. -/
theorem Agrees.assignTemp {name : Ident} (hname : isTemp name)
    (value : Val) : Agrees isTemp s (s'.assign name value) := by
  refine ⟨h.stack, h.store, ?_⟩
  intro x hx
  have hne : x ≠ name := fun heq => hx (heq ▸ hname)
  simpa [State.assign, Function.update_of_ne hne] using h.locals x hx

theorem Agrees.pop {k k' : Val → State Val Rest → Outcome Val Rest}
    (hk : ∀ value t t', Agrees isTemp t t' → SameOutcome isTemp (k value t) (k' value t')) :
    SameOutcome isTemp (s.pop k) (s'.pop k') := by
  unfold State.pop
  rw [h.stack]
  cases s.stack with
  | nil => exact ⟨rfl, h⟩
  | cons value stack => exact hk value _ _ (h.withStack stack)

theorem Agrees.bindAll (targets : List (Option Ident)) :
    SameOutcome isTemp (s.bindAll targets) (s'.bindAll targets) := by
  induction targets generalizing s s' with
  | nil => exact ⟨rfl, h⟩
  | cons target targets ih =>
    cases target with
    | none => exact h.pop fun value t t' ht => ih ht
    | some name => exact h.pop fun value t t' ht => ih (ht.assign name value)

end

variable {machine : Machine Op Val Rest} {call : Caller Val Rest}

section

variable (h : Agrees isTemp s s')
include h

theorem Agrees.getField :
    SameOutcome isTemp (s.getField machine name) (s'.getField machine name) := by
  refine h.pop fun reference t t' ht => ?_
  cases machine.address reference with
  | none => exact ⟨rfl, ht⟩
  | some address =>
    simp only [ht.store]
    cases t.store.field address name with
    | none => exact ⟨rfl, ht⟩
    | some value => exact ⟨rfl, ht.push value⟩

theorem Agrees.putField :
    SameOutcome isTemp (s.putField machine name) (s'.putField machine name) := by
  refine h.pop fun value t t' ht => ht.pop fun reference t t' ht => ?_
  cases machine.address reference with
  | none => exact ⟨rfl, ht⟩
  | some address =>
    simp only [ht.store]
    cases t.store.field address name with
    | none => exact ⟨rfl, ht⟩
    | some old => exact ⟨rfl, ht.stack, rfl, ht.locals⟩

theorem Agrees.applyOp (operation : Op) :
    SameOutcome isTemp (s.applyOp machine operation) (s'.applyOp machine operation) := by
  unfold State.applyOp
  rw [h.stack, h.store]
  cases machine.apply operation s.stack s.store with
  | none => exact ⟨rfl, h⟩
  | some result => exact ⟨rfl, rfl, rfl, h.locals⟩

theorem Agrees.invoke (funcId : Nat) :
    SameOutcome isTemp (s.invoke call funcId) (s'.invoke call funcId) := by
  unfold State.invoke
  rw [h.stack, h.store]
  exact ⟨rfl, rfl, rfl, h.locals⟩

theorem Agrees.invokeRef (funcId : Option Nat) :
    SameOutcome isTemp (s.invokeRef call funcId) (s'.invokeRef call funcId) := by
  cases funcId with
  | none => exact ⟨rfl, h⟩
  | some funcId => exact h.invoke funcId

end

/-- A step that names no temp goes the same way. -/
theorem Agrees.step (h : Agrees isTemp s s') {head : Head Op Ty}
    (hhead : ∀ x ∈ head.localNames, ¬ isTemp x) (dropped : Bool) :
    SameOutcome isTemp (head.step machine call dropped s)
      (head.step machine call dropped s') := by
  cases head with
  | localGet name ty =>
    have hname : s'.locals name = s.locals name :=
      h.locals name (hhead name (List.mem_singleton_self _))
    refine ⟨rfl, ?_⟩
    rw [Head.step, Head.step, hname]
    exact h.push _
  | localSet name =>
    rw [Head.step, Head.step]
    exact h.pop fun value t t' ht => ⟨rfl, ht.assign name value⟩
  | localTee name =>
    rw [Head.step, Head.step]
    exact h.pop fun value t t' ht => ⟨rfl, (ht.assign name value).push value⟩
  | structGet typeId fieldName ty => exact h.getField fieldName
  | structSet typeId fieldName => exact h.putField fieldName
  | brIf depth =>
    rw [Head.step, Head.step]
    refine h.pop fun value t t' ht => ?_
    by_cases hvalue : machine.nonzero value = true
    · rw [if_pos hvalue, if_pos hvalue]
      exact ⟨rfl, ht⟩
    · rw [if_neg hvalue, if_neg hvalue]
      exact ⟨rfl, ht⟩
  | brTable targets default =>
    rw [Head.step, Head.step]
    exact h.pop fun value t t' ht => ⟨rfl, ht⟩
  | drop =>
    rw [Head.step, Head.step]
    cases dropped with
    | true => exact h.pop fun value t t' ht => ⟨rfl, ht⟩
    | false => exact ⟨rfl, h⟩
  | call funcId => exact h.invoke funcId
  | callIndirect typeId table =>
    rw [Head.step, Head.step]
    refine h.pop fun value t t' ht => ?_
    rw [ht.store]
    exact ht.invokeRef _
  | callRef typeId =>
    rw [Head.step, Head.step]
    exact h.pop fun value t t' ht => ht.invokeRef _
  | multiValueLocalBind locals => exact h.bindAll locals.reverse
  | op operation => exact h.applyOp operation
  | _ => exact ⟨rfl, h⟩

theorem Agrees.leave {o o' : Outcome Val Rest} (h : SameOutcome isTemp o o') (arity : Nat)
    (outer : List Val) : SameOutcome isTemp (o.leave arity outer) (o'.leave arity outer) := by
  obtain ⟨exit, t⟩ := o
  obtain ⟨exit', t'⟩ := o'
  obtain ⟨hexit, ht⟩ := h
  dsimp only at hexit ht
  subst hexit
  cases exit' with
  | next =>
    simp only [Outcome.leave, ht.stack]
    exact ⟨rfl, rfl, ht.store, ht.locals⟩
  | branch depth =>
    cases depth with
    | zero =>
      simp only [Outcome.leave, ht.stack]
      exact ⟨rfl, rfl, ht.store, ht.locals⟩
    | succ depth => exact ⟨rfl, ht⟩
  | _ => exact ⟨rfl, ht⟩

end

theorem localWrites_subset (head : Head Op Ty) : head.localWrites ⊆ head.localNames := by
  cases head <;> first | exact fun _ hx => hx | exact List.nil_subset _

namespace Key

variable {machine : Machine Op Val Rest}

/-- What a chain reads in a state, where it reads anything. -/
def value (machine : Machine Op Val Rest) (key : Key) (s : State Val Rest) : Option Val :=
  key.fields.foldl
    (fun value field => value.bind fun value => (machine.address value).bind fun address =>
      s.store.field address field.2)
    (some (s.locals key.root))

theorem readFields_none (machine : Machine Op Val Rest) (s : State Val Rest)
    (fields : List (Nat × Ident)) :
    fields.foldl
      (fun value field => value.bind fun value => (machine.address value).bind fun address =>
        s.store.field address field.2) none = none := by
  induction fields with
  | nil => rfl
  | cons field fields ih => exact ih

theorem readFields_kept {s t : State Val Rest} {v : Val} {fields : List (Nat × Ident)}
    (hfields : ∀ field ∈ fields, KeepsField field.2 s t) {start : Option Val}
    (h : fields.foldl
      (fun value field => value.bind fun value => (machine.address value).bind fun address =>
        s.store.field address field.2) start = some v) :
    fields.foldl
      (fun value field => value.bind fun value => (machine.address value).bind fun address =>
        t.store.field address field.2) start = some v := by
  induction fields generalizing start with
  | nil => exact h
  | cons field fields ih =>
    rw [List.foldl_cons] at h ⊢
    cases hstart : start.bind fun value => (machine.address value).bind fun address =>
        s.store.field address field.2 with
    | none =>
      rw [hstart, readFields_none] at h
      cases h
    | some w =>
      have hkept : (start.bind fun value => (machine.address value).bind fun address =>
          t.store.field address field.2) = some w := by
        obtain ⟨value, rfl, haddress⟩ := bind_eq_some_iff.mp hstart
        obtain ⟨address, haddress, hfield⟩ := bind_eq_some_iff.mp haddress
        rw [bind_some, haddress, bind_some]
        exact hfields field List.mem_cons_self address w hfield
      rw [hkept]
      rw [hstart] at h
      exact ih (fun field hfield => hfields field (List.mem_cons_of_mem _ hfield)) h

/-- A chain reads the same where its root and its fields are as they were. -/
theorem value_kept {key : Key} {s t : State Val Rest} {v : Val}
    (hroot : KeepsLocal key.root s t) (hfields : ∀ field ∈ key.fields, KeepsField field.2 s t)
    (h : key.value machine s = some v) : key.value machine t = some v := by
  unfold value at h ⊢
  rw [hroot]
  exact readFields_kept hfields h

end Key

/-- The temp holds what its chain reads. -/
def Supplied (machine : Machine Op Val Rest) (keys : List Key) (c id : Nat)
    (s s' : State Val Rest) : Prop :=
  ∃ key v, keys[c]? = some key ∧ key.value machine s = some v ∧ s'.locals (loadName id) = v

section

variable {machine : Machine Op Val Rest} {keys : List Key} {c id : Nat}
  {s s' t t' : State Val Rest}

theorem Supplied.grow {keys' : List Key} (hkeys : keys <+: keys')
    (h : Supplied machine keys c id s s') : Supplied machine keys' c id s s' := by
  obtain ⟨key, v, hkey, hvalue, htemp⟩ := h
  obtain ⟨more, rfl⟩ := hkeys
  refine ⟨key, v, ?_, hvalue, htemp⟩
  rw [List.getElem?_append_left (List.getElem?_eq_some_iff.mp hkey).1]
  exact hkey

/-- A chain whose root and fields are kept is still supplied by a kept temp. -/
theorem Supplied.kept {key : Key} (hkey : keys[c]? = some key)
    (hroot : KeepsLocal key.root s t) (hfields : ∀ field ∈ key.fields, KeepsField field.2 s t)
    (htemp : t'.locals (loadName id) = s'.locals (loadName id))
    (h : Supplied machine keys c id s s') : Supplied machine keys c id t t' := by
  obtain ⟨key', v, hkey', hvalue, hlocal⟩ := h
  rw [hkey] at hkey'
  cases hkey'
  exact ⟨key, v, hkey, Key.value_kept hroot hfields hvalue, htemp.trans hlocal⟩

end

end Wado.Wir
