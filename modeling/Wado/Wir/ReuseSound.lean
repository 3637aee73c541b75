/-
The rewritten body runs as the body it came from: wherever a chain is available
its temp holds what the chain reads, whichever way control came.
-/
import Wado.Wir.ArmExits
import Wado.Wir.ReuseLike
import Wado.Wir.ReuseStates

namespace Wado.Wir

open Option Outcome Footprint WirInstr

variable {Op Ty Val Rest : Type}

theorem loadName_injective {m n : Nat} (h : loadName m = loadName n) : m = n := by
  have hdigits : Nat.toDigits 10 m = Nat.toDigits 10 n := List.append_cancel_left h
  have hread := congrArg (fun digits => Nat.ofDigitChars 10 digits 0) hdigits
  rwa [Nat.ofDigitChars_toDigits (by decide) (by decide),
    Nat.ofDigitChars_toDigits (by decide) (by decide)] at hread

/-- The names that will be temps, and those whose tee stays, seen from a state
of the walk. -/
structure Foreseen (isTemp : Ident → Prop) (unused : List Ident) (reuser : Reuser Ty) : Prop where
  minted : ∀ id, id < reuser.temps.length → isTemp (loadName id)
  used : ∀ (id : Nat) (temp : Temp Ty), reuser.temps[id]? = some temp → temp.used = true →
    loadName id ∉ unused

theorem Foreseen.before {isTemp : Ident → Prop} {unused : List Ident} {a b : Reuser Ty}
    (h : Foreseen isTemp unused b) (hextends : Reuser.Extends a b) :
    Foreseen isTemp unused a := by
  refine ⟨fun id hid => h.minted id (hid.trans_le hextends.length_le), ?_⟩
  intro id temp htemp hused
  obtain ⟨temp', htemp', hused'⟩ := hextends.temps id temp htemp
  exact h.used id temp' htemp' (hused' hused)

/-- Every available chain whose tee stays is supplied. -/
def Supplies (machine : Machine Op Val Rest) (unused : List Ident) (reuser : Reuser Ty)
    (s s' : State Val Rest) : Prop :=
  ∀ c id, reuser.avail.get c = some id → loadName id ∉ unused →
    Supplied machine reuser.keys c id s s'

/-- What a stretch of rewritten code does against the stretch it came from: the
same way out into agreeing states, earlier temps as in `locals`, and the chains
available after it supplied where control falls through, and the old ones of
them also where a branch lands on a marked label. -/
structure Rewrites (machine : Machine Op Val Rest) (isTemp : Ident → Prop)
    (unused : List Ident) (marks : List Bool) (before after : Reuser Ty)
    (locals : Ident → Val) (o o' : Outcome Val Rest) : Prop where
  same : SameOutcome isTemp o o'
  temps : ∀ id, id < before.temps.length → o'.state.locals (loadName id) = locals (loadName id)
  next : o.exit = .next → Supplies machine unused after o.state o'.state
  lands : ∀ depth, o.exit = .branch depth → marks.getD depth false = true →
    ∀ c id, after.avail.get c = some id → id < before.temps.length → loadName id ∉ unused →
      Supplied machine after.keys c id o.state o'.state

section

variable {machine : Machine Op Val Rest} {isTemp : Ident → Prop} {unused : List Ident}
  {marks : List Bool} {taken : List Ident}

variable {locals : Ident → Val} {o o' : Outcome Val Rest}

/-- Two stretches one after the other. -/
theorem Rewrites.andThen {before mid after : Reuser Ty} {k k' : State Val Rest → Outcome Val Rest}
    (h : Rewrites machine isTemp unused marks before mid locals o o')
    (hextends : Reuser.Extends before mid) (hextends' : Reuser.Extends mid after)
    (hk : o.exit = .next →
      Rewrites machine isTemp unused marks mid after o'.state.locals (k o.state) (k' o'.state)) :
    Rewrites machine isTemp unused marks before after locals (o.andThen k) (o'.andThen k') := by
  unfold Outcome.andThen
  rw [h.same.exit]
  by_cases hnext : o.exit = .next
  · rw [if_pos hnext, if_pos hnext]
    have hk := hk hnext
    refine ⟨hk.same, ?_, hk.next, ?_⟩
    · intro id hid
      rw [hk.temps id (hid.trans_le hextends.length_le), h.temps id hid]
    · intro depth hdepth hmark c id hget hid hstays
      exact hk.lands depth hdepth hmark c id hget (hid.trans_le hextends.length_le) hstays
  · rw [if_neg hnext, if_neg hnext]
    refine ⟨h.same, h.temps, fun hnext' => absurd hnext' hnext, ?_⟩
    intro depth hdepth hmark c id hget hid hstays
    have hold := hextends'.old c id hget (hid.trans_le hextends.length_le)
    exact (h.lands depth hdepth hmark c id hold hid hstays).grow hextends'.keys

variable {s s' : State Val Rest}

theorem Supplies.grow {a b : Reuser Ty}
    (h : Supplies machine unused a s s') (hkeys : a.keys <+: b.keys) (havail : b.avail = a.avail) :
    Supplies machine unused b s s' := by
  intro c id hget hstays
  rw [havail] at hget
  exact (h c id hget hstays).grow hkeys

variable {call : Caller Val Rest} {callees : Option CalleeWrites}

variable {reuser : Reuser Ty}

theorem Supplies.drop (writes : Footprint)
    (hindexed : reuser.avail.Indexed reuser.keys) (h : Supplies machine unused reuser s s') :
    Supplies machine unused (reuser.cut writes) s s' :=
  fun c id hget hstays => h c id (Avail.of_get_forgetWritten hindexed hget).1 hstays

/-- What is left after a cut stays supplied by whatever keeps what the cut keeps. -/
theorem Supplies.kept {s s' t t' : State Val Rest} {writes : Footprint}
    (hindexed : reuser.avail.Indexed reuser.keys) (hkept : ∀ key, Avail.Unwritten writes key →
      KeepsLocal key.root s t ∧ ∀ field ∈ key.fields, KeepsField field.2 s t)
    (htemps : ∀ c id, reuser.avail.get c = some id →
      t'.locals (loadName id) = s'.locals (loadName id))
    (h : Supplies machine unused (reuser.cut writes) s s') :
    Supplies machine unused (reuser.cut writes) t t' := by
  intro c id hget hstays
  obtain ⟨hold, key, hkey, hunwritten⟩ := Avail.of_get_forgetWritten hindexed hget
  obtain ⟨hroot, hfields⟩ := hkept key hunwritten
  exact (h c id hget hstays).kept hkey hroot hfields (htemps c id hold)

/-- One node's own step, its operands rewritten. -/
theorem step_rewrites (hsound : CalleesSound callees call)
    (hreuser : reuser.Sound taken) (hforeseen : Foreseen isTemp unused reuser)
    {head : Head Op Ty} (hhead : ∀ x ∈ head.localNames, ¬ isTemp x) (dropped : Bool)
    (hagrees : Agrees isTemp s s') (hsupplies : Supplies machine unused reuser s s') :
    Rewrites machine isTemp unused marks reuser
      (reuser.cut (writesOfNode callees head)) s'.locals
      (head.step machine call dropped s) (head.step machine call dropped s') := by
  have htemp : ∀ id, id < reuser.temps.length → loadName id ∉ head.localWrites := by
    intro id hid hin
    exact hhead _ (localWrites_subset head hin) (hforeseen.minted id hid)
  have hafter : Supplies machine unused (reuser.cut (writesOfNode callees head))
      (head.step machine call dropped s).state (head.step machine call dropped s').state := by
    refine (hsupplies.drop _ hreuser.indexed).kept hreuser.indexed ?_ ?_
    · intro key hunwritten
      refine ⟨step_keepsLocal (locals_writesOfNode hunwritten.root) dropped s, ?_⟩
      intro field hfield
      exact step_keepsField (confined_writesOfNode hsound hunwritten.call
        (hunwritten.fields field hfield)) dropped s
    · intro c id hget
      exact step_keepsLocal (htemp id (hreuser.defined c id hget)) dropped s'
  exact ⟨hagrees.step hhead dropped,
    fun id hid => step_keepsLocal (htemp id hid) dropped s', fun _ => hafter,
    fun _ _ _ c id hget _ hstays => hafter c id hget hstays⟩

variable {fuel : Nat}

theorem andThen_next (o : Outcome Val Rest) : o.andThen (fun s => ⟨.next, s⟩) = o := by
  unfold andThen
  split
  next hnext =>
    obtain ⟨exit, state⟩ := o
    cases hnext
    rfl
  · rfl

theorem evalAll_singleton (instr : WirInstr Op Ty) (s : State Val Rest) :
    evalAll machine call fuel [instr] s = instr.eval machine call fuel s := by
  rw [evalAll]
  exact andThen_next _

/-- A chain read as code: its value pushed, or a trap. -/
theorem eval_chain : ∀ (instr : WirInstr Op Ty) (key : Key), Key.chain instr = some key →
    ∀ s : State Val Rest, (∃ v, key.value machine s = some v ∧
        instr.eval machine call fuel s = ⟨.next, s.push v⟩) ∨
      (key.value machine s = none ∧ (instr.eval machine call fuel s).exit = .trap)
  | .node (.localGet name ty) [], key, h, s => by
    cases h
    exact Or.inl ⟨s.locals name, rfl, rfl⟩
  | .node (.structGet typeId fieldName ty) [expr], key, h, s => by
    obtain ⟨inner, hinner, rfl⟩ := map_eq_some_iff.mp h
    have hvalue : Key.value machine
        { inner with fields := inner.fields ++ [(typeId, fieldName)] } s =
          (inner.value machine s).bind fun value => (machine.address value).bind fun address =>
            s.store.field address fieldName := by
      simp [Key.value, List.foldl_append]
    rw [hvalue, eval, evalAll_singleton]
    rcases eval_chain expr inner hinner s with ⟨v, hv, heval⟩ | ⟨hnone, htrap⟩
    · rw [heval, hv, bind_some]
      simp only [andThen, if_true, Head.step, State.getField, State.pop, State.push]
      cases machine.address v with
      | none => exact Or.inr ⟨rfl, rfl⟩
      | some address =>
        dsimp only [bind_some]
        cases s.store.field address fieldName with
        | none => exact Or.inr ⟨rfl, rfl⟩
        | some w => exact Or.inl ⟨w, rfl, rfl⟩
    · rw [hnone]
      refine Or.inr ⟨rfl, ?_⟩
      unfold andThen
      rw [if_neg (by rw [htrap]; simp)]
      exact htrap

theorem drop_same {operands operands' : List (WirInstr Op Ty)}
    (h : WirInstr.LikeAll operands operands') :
    (!seqAlwaysDiverges operands') = !seqAlwaysDiverges operands := by
  rw [WirInstr.LikeAll.diverges operands operands' h]

variable {before after : Reuser Ty}

/-- Leaving a label: what is supplied at the ways out that land after it. -/
theorem Rewrites.leave (hsame : SameOutcome isTemp o o')
    (htemps : ∀ id, id < before.temps.length → o'.state.locals (loadName id) = locals (loadName id))
    (arity : Nat) (outer : List Val)
    (hnext : o.exit = .next → Supplies machine unused after o.state o'.state)
    (hzero : o.exit = .branch 0 → Supplies machine unused after o.state o'.state)
    (hlands : ∀ depth, o.exit = .branch (depth + 1) → marks.getD depth false = true →
      ∀ c id, after.avail.get c = some id → id < before.temps.length → loadName id ∉ unused →
        Supplied machine after.keys c id o.state o'.state) :
    Rewrites machine isTemp unused marks before after locals
      (o.leave arity outer) (o'.leave arity outer) := by
  have hleave := Agrees.leave hsame arity outer
  obtain ⟨exit, t⟩ := o
  obtain ⟨exit', t'⟩ := o'
  have hexit : exit' = exit := hsame.exit
  subst hexit
  cases exit' with
  | next => exact ⟨hleave, htemps, fun _ => hnext rfl, fun _ heq => by cases heq⟩
  | branch depth =>
    cases depth with
    | zero => exact ⟨hleave, htemps, fun _ => hzero rfl, fun _ heq => by cases heq⟩
    | succ depth =>
      refine ⟨hleave, htemps, (fun heq => by cases heq), ?_⟩
      intro depth' heq
      cases heq
      exact hlands depth rfl
  | _ => exact ⟨hleave, htemps, (fun heq => by cases heq), fun _ heq => by cases heq⟩

theorem Rewrites.narrow {a b after : Reuser Ty} (hle : a.temps.length ≤ b.temps.length)
    (h : Rewrites machine isTemp unused marks b after locals o o') :
    Rewrites machine isTemp unused marks a after locals o o' :=
  ⟨h.same, fun id hid => h.temps id (hid.trans_le hle), h.next,
    fun depth hdepth hmark c id hget hid => h.lands depth hdepth hmark c id hget (hid.trans_le hle)⟩

theorem Rewrites.pop {t t' : State Val Rest}
    (hagrees : Agrees isTemp t t') {k k' : Val → State Val Rest → Outcome Val Rest}
    (hk : ∀ value stack, Rewrites machine isTemp unused marks before after t'.locals
      (k value { t with stack := stack }) (k' value { t' with stack := stack })) :
    Rewrites machine isTemp unused marks before after t'.locals (t.pop k) (t'.pop k') := by
  unfold State.pop
  rw [hagrees.stack]
  cases t.stack with
  | nil =>
    refine ⟨⟨rfl, hagrees⟩, fun _ _ => rfl, ?_, ?_⟩
    · intro heq
      cases heq
    · intro depth heq
      cases heq
  | cons value stack => exact hk value stack

/-- An arm and the table the meeting of arms leaves: it holds chains from before
that every arm which reaches the meeting still has. -/
theorem Rewrites.arm {before final : Reuser Ty} {arm : List (WirInstr Op Ty) × Reuser Ty}
    {avail : Avail} {ends : List (Option Avail)}
    (h : Rewrites machine isTemp unused (true :: marks) before arm.2 locals o o')
    (hin : arm.2.armEnd arm.1 ∈ ends)
    (hsettled : arm.1.getLast?.any alwaysDiverges = true → o.exit ≠ .next ∧
      ∀ depth, o.exit = .branch depth → (true :: marks).getD depth false = false)
    (hkeys : arm.2.keys <+: final.keys) (hindexed : avail.Indexed final.keys)
    (hdefined : ∀ c id, avail.get c = some id → id < before.temps.length)
    (arity : Nat) (outer : List Val) :
    Rewrites machine isTemp unused marks before (final.meet avail ends) locals
      (o.leave arity outer) (o'.leave arity outer) := by
  have hkeeps : ∀ c id, (final.meet avail ends).avail.get c = some id →
      arm.1.getLast?.any alwaysDiverges = false →
        id < before.temps.length ∧ arm.2.avail.get c = some id := by
    intro c id hget hfalls
    obtain ⟨hbefore, hagreed⟩ := Avail.of_get_retain hindexed hget
    have hend := List.all_eq_true.mp hagreed _ hin
    rw [Reuser.armEnd, hfalls] at hend
    exact ⟨hdefined c id hbefore, by simpa using hend⟩
  by_cases hdiverges : arm.1.getLast?.any alwaysDiverges = true
  · obtain ⟨hnext, hbranch⟩ := hsettled hdiverges
    refine .leave h.same h.temps arity outer (fun heq => absurd heq hnext) ?_ ?_
    · intro heq
      have hmark := hbranch 0 heq
      cases hmark
    · intro depth heq hmark
      have hnot := hbranch (depth + 1) heq
      rw [List.getD_cons_succ, hmark] at hnot
      cases hnot
  · have hfalls := Bool.eq_false_iff.mpr hdiverges
    refine .leave h.same h.temps arity outer ?_ ?_ ?_
    · intro heq c id hget hstays
      exact (h.next heq c id (hkeeps c id hget hfalls).2 hstays).grow hkeys
    · intro heq c id hget hstays
      obtain ⟨hid, hget'⟩ := hkeeps c id hget hfalls
      exact (h.lands 0 heq rfl c id hget' hid hstays).grow hkeys
    · intro depth heq hmark c id hget hid hstays
      exact (h.lands (depth + 1) heq hmark c id (hkeeps c id hget hfalls).2 hid hstays).grow hkeys

/-- What a body's footprint leaves alone, its run keeps. -/
theorem body_kept (hsound : CalleesSound callees call) {body : List (WirInstr Op Ty)}
    {key : Key} (hunwritten : Avail.Unwritten (writesAll callees body) key)
    (s : State Val Rest) :
    KeepsLocal key.root s (evalAll machine call fuel body s).state ∧ ∀ field ∈ key.fields,
        KeepsField field.2 s (evalAll machine call fuel body s).state := by
  refine ⟨evalAll_framed (keepsLocal_framed key.root) body ?_ s, fun field hfield =>
    evalAll_framed (keepsField_framed field.2) body ?_ s⟩
  · exact WirInstr.EveryHeadAll.mono (fun head h => step_keepsLocal h) body
      (locals_writesAll callees body hunwritten.root)
  · exact WirInstr.EveryHeadAll.mono (fun head h => step_keepsField h) body
      (confined_writesAll hsound body hunwritten.call (hunwritten.fields field hfield))

/-- The turns of a loop, each of which starts with what is available at its head. -/
theorem iterate_rewrites {entry : Reuser Ty} {body body' : State Val Rest → Outcome Val Rest}
    (hbody : ∀ s s', Agrees isTemp s s' → Supplies machine unused entry s s' →
      SameOutcome isTemp (body s) (body' s') ∧ (∀ id, id < entry.temps.length →
          (body' s').state.locals (loadName id) = s'.locals (loadName id)) ∧
        Supplies machine unused entry (body s).state (body' s').state) (turns : Nat) :
    ∀ s s', Agrees isTemp s s' → Supplies machine unused entry s s' →
      SameOutcome isTemp (iterate body turns s) (iterate body' turns s') ∧
        (∀ id, id < entry.temps.length →
          (iterate body' turns s').state.locals (loadName id) = s'.locals (loadName id)) ∧
        Supplies machine unused entry (iterate body turns s).state
          (iterate body' turns s').state := by
  induction turns with
  | zero => exact fun s s' hagrees hsupplies => ⟨⟨rfl, hagrees⟩, fun _ _ => rfl, hsupplies⟩
  | succ turns ih =>
    intro s s' hagrees hsupplies
    obtain ⟨hsame, htemps, hsupplies'⟩ := hbody { s with stack := [] } { s' with stack := [] }
      (hagrees.withStack []) hsupplies
    rw [iterate, iterate, hsame.exit]
    split
    · obtain ⟨hsame', htemps', hsupplies''⟩ := ih _ _ hsame.agrees hsupplies'
      exact ⟨hsame', fun id hid => (htemps' id hid).trans (htemps id hid), hsupplies''⟩
    · exact ⟨hsame, htemps, hsupplies'⟩

end

end Wado.Wir
