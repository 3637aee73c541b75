/-
The whole walk, case by case: every instruction's rewriting runs as it did.
-/
import Wado.Wir.ReuseSound

namespace Wado.Wir

open List Footprint

variable {Op Ty Val Rest : Type} {machine : Machine Op Val Rest} {isTemp : Ident → Prop}
  {unused : List Ident} {taken : List Ident} {call : Caller Val Rest} {fuel : Nat}

namespace WirInstr

variable {reuser : Reuser Ty}

theorem tempName_eq (h : reuser.Sound taken) {id : Nat}
    (hid : id < reuser.temps.length) : reuser.tempName id = loadName id := by
  have hget : reuser.temps[id]? = some reuser.temps[id] := List.getElem?_eq_getElem hid
  rw [Reuser.tempName, hget]
  exact h.named id _ hget

/-- Every head keeps its tee: it names no temp. -/
theorem unstripped_of_names (hunused : ∀ x ∈ unused, isTemp x) {head : Head Op Ty}
    (h : ∀ x ∈ head.localNames, ¬ isTemp x) : Unstripped unused head :=
  fun x hx hin => h x hx (hunused x hin)

variable {marks : List Bool} {s s' : State Val Rest}

/-- A chain that is available: the temp's value is what the chain reads. -/
theorem hit_rewrites {typeId : Nat} {fieldName : Ident} {ty : Ty}
    {operands : List (WirInstr Op Ty)} {key : Key} {id : Nat}
    (hkey : Key.of (.node (.structGet typeId fieldName ty) operands) = some key)
    (hreuser : reuser.Sound taken)
    (hget : (reuser.know key).avail.get ((reuser.know key).position key) = some id)
    (hforeseen : Foreseen isTemp unused ((reuser.know key).use id)) (hagrees : Agrees isTemp s s')
    (hsupplies : Supplies machine unused reuser s s') :
    Rewrites machine isTemp unused marks reuser ((reuser.know key).use id) s'.locals
      (eval machine call fuel (.node (.structGet typeId fieldName ty) operands) s)
      (eval machine call fuel (.node (.localGet (reuser.tempName id) ty) []) s') := by
  obtain ⟨hknow, hextends⟩ := hreuser.know key
  have hid : id < reuser.temps.length := hreuser.defined _ id hget
  have hstays : loadName id ∉ unused := by
    refine hforeseen.used id { reuser.temps[id] with used := true } ?_ rfl
    simp [Reuser.use, Reuser.know, hid]
  have hsupplies' : Supplies machine unused (reuser.know key) s s' :=
    hsupplies.grow hextends.keys rfl
  obtain ⟨key', v, hkey', hvalue, hlocal⟩ := hsupplies' _ id hget hstays
  rw [Reuser.keys_position key reuser] at hkey'
  cases hkey'
  rcases @eval_chain Op Ty Val Rest machine call fuel _ key
      (Option.filter_eq_some_iff.mp hkey).1 s with ⟨w, hw, heval⟩ | ⟨hnone, -⟩
  · rw [hvalue] at hw
    cases hw
    have heval' : eval machine call fuel (.node (.localGet (reuser.tempName id) ty) []) s' =
        ⟨.next, s'.push v⟩ := by
      rw [tempName_eq hreuser hid, ← hlocal]
      rfl
    rw [heval, heval']
    refine ⟨(hagrees.push v).next, fun _ _ => rfl, fun _ => hsupplies', ?_⟩
    intro depth heq
    cases heq
  · rw [hvalue] at hnone
    cases hnone

/-- A chain read here first: the tee, where it stays, holds what the chain reads. -/
theorem miss_rewrites {instr instr' : WirInstr Op Ty}
    {before inside : Reuser Ty} {key : Key} (hchain : Key.chain instr = some key) {chain : Nat}
    (hkey : inside.keys[chain]? = some key) (hinside : inside.Sound taken) {ty : Ty}
    (hextends : Reuser.Extends before inside)
    (hforeseen : Foreseen isTemp unused (inside.mint taken chain ty))
    (h : Rewrites machine isTemp unused marks before inside s'.locals
      (instr.eval machine call fuel s) (instr'.eval machine call fuel s')) :
    Rewrites machine isTemp unused marks before (inside.mint taken chain ty)
      s'.locals
      (instr.eval machine call fuel s)
      ((if loadName inside.temps.length ∈ unused then instr'
        else .node (.localTee (loadName inside.temps.length)) [instr']).eval machine call fuel
          s') := by
  have hlength : (inside.mint taken chain ty).temps.length = inside.temps.length + 1 := by
    simp [Reuser.mint]
  have htemp : isTemp (loadName inside.temps.length) :=
    hforeseen.minted _ (by rw [hlength]; omega)
  have hnew : ∀ c id, (inside.mint taken chain ty).avail.get c = some id →
      (c = chain ∧ id = inside.temps.length) ∨ inside.avail.get c = some id := by
    intro c id hget
    rw [Reuser.mint, Avail.get_insert hkey] at hget
    split at hget
    next hc => exact Or.inl ⟨hc, (Option.some.inj hget).symm⟩
    · exact Or.inr hget
  by_cases hin : loadName inside.temps.length ∈ unused
  · rw [if_pos hin]
    refine ⟨h.same, h.temps, ?_, ?_⟩
    · intro hnext c id hget hstays
      rcases hnew c id hget with ⟨-, rfl⟩ | hold
      · exact absurd hin hstays
      · exact h.next hnext c id hold hstays
    · intro depth hdepth hmark c id hget hid hstays
      rcases hnew c id hget with ⟨-, rfl⟩ | hold
      · exact absurd hin hstays
      · exact h.lands depth hdepth hmark c id hold hid hstays
  · rw [if_neg hin, eval, evalAll_singleton]
    rcases @eval_chain Op Ty Val Rest machine call fuel instr key hchain s with
      ⟨v, hvalue, heval⟩ | ⟨-, htrap⟩
    · rw [heval] at h ⊢
      generalize instr'.eval machine call fuel s' = o' at h ⊢
      obtain ⟨exit', t'⟩ := o'
      have hexit : exit' = .next := h.same.exit
      subst hexit
      have hstack : t'.stack = v :: s.stack := h.same.agrees.stack
      have htee : (⟨.next, t'⟩ : Outcome Val Rest).andThen
          ((Head.localTee (loadName inside.temps.length) : Head Op Ty).step machine call
            (!seqAlwaysDiverges [instr'])) =
          ⟨.next, t'.assign (loadName inside.temps.length) v⟩ := by
        simp only [Outcome.andThen, if_true, Head.step, State.pop, hstack]
        rw [State.push, State.assign, State.assign]
        simp only [← hstack]
      rw [htee]
      have hother : ∀ id, id < inside.temps.length →
          (t'.assign (loadName inside.temps.length) v).locals (loadName id) =
            t'.locals (loadName id) := by
        intro id hid
        refine Function.update_of_ne ?_ _ _
        exact fun heq => absurd (loadName_injective heq) (by omega)
      refine ⟨⟨rfl, h.same.agrees.assignTemp htemp v⟩, ?_, ?_, fun _ heq => by cases heq⟩
      · intro id hid
        exact (hother id (hid.trans_le hextends.length_le)).trans (h.temps id hid)
      · intro _ c id hget hstays
        rcases hnew c id hget with ⟨rfl, rfl⟩ | hold
        · exact ⟨key, v, hkey, hvalue, by simp [State.assign]⟩
        · obtain ⟨key', w, hkey', hw, hlocal⟩ := h.next rfl c id hold hstays
          exact ⟨key', w, hkey', hw, (hother id (hinside.defined c id hold)).trans hlocal⟩
    · have htrap' := h.same.exit.trans htrap
      have hskip : (instr'.eval machine call fuel s').andThen
          ((Head.localTee (loadName inside.temps.length) : Head Op Ty).step machine call
            (!seqAlwaysDiverges [instr'])) = instr'.eval machine call fuel s' := by
        unfold Outcome.andThen
        rw [if_neg (by rw [htrap']; simp)]
      rw [hskip]
      refine ⟨h.same, h.temps, ?_, ?_⟩
      · intro hnext
        rw [htrap] at hnext
        cases hnext
      · intro depth hdepth
        rw [htrap] at hdepth
        cases hdepth

mutual

/-- The rewriting of an instruction whose arms are settled runs as it did. -/
theorem visit_rewrites (hcalls : CallsReturn call) (hunused : ∀ x ∈ unused, isTemp x) :
    ∀ (callees : Option CalleeWrites) (_ : CalleesSound callees call) (instr : WirInstr Op Ty)
      (reuser : Reuser Ty) (marks : List Bool) (s s' : State Val Rest),
      reuser.Sound taken → Foreseen isTemp unused (instr.visit taken callees reuser).2 →
      instr.EveryHead (fun head => ∀ x ∈ head.localNames, ¬ isTemp x) →
      instr.armsSettled marks = true → Agrees isTemp s s' →
      Supplies machine unused reuser s s' →
      Rewrites machine isTemp unused marks reuser (instr.visit taken callees reuser).2
        s'.locals
        (instr.eval machine call fuel s)
        (((instr.visit taken callees reuser).1.unwrapUnused unused).eval machine call fuel s')
  | callees, hsound, .block result body, reuser, marks, s, s', hreuser, hforeseen, hnames,
      hsettled, hagrees, hsupplies => by
    rw [visit] at hforeseen ⊢
    have hin := visitAll_rewrites hcalls hunused callees hsound body reuser (false :: marks) _ _
      hreuser ⟨hforeseen.minted, hforeseen.used⟩ hnames hsettled (hagrees.withStack [])
      hsupplies
    obtain ⟨hinside, hextends⟩ := @visitAll_sound Op Ty taken callees body reuser hreuser
    have hwider := LikeAll.writes callees body _ (@visitAll_like Op Ty taken callees body reuser)
    have hback := hinside.back hextends hreuser.indexed hreuser.defined
    have hsupplies' : Supplies machine unused
        ((visitAll taken callees body reuser).2.back reuser.avail) s s' :=
      hsupplies.grow hextends.keys rfl
    have hafter : Supplies machine unused (((visitAll taken callees body reuser).2.back
        reuser.avail).cut (writesAll callees (visitAll taken callees body reuser).1))
        (evalAll machine call fuel body { s with stack := [] }).state
        (evalAll machine call fuel (unwrapAll unused (visitAll taken callees body reuser).1)
          { s' with stack := [] }).state := by
      refine (hsupplies'.drop _ hback.indexed).kept hback.indexed ?_ ?_
      · intro key hunwritten
        exact body_kept hsound ⟨hwider.call ▸ hunwritten.call,
          fun hx => hunwritten.root (hwider.locals hx),
          fun field hfield => hwider.fields ▸ hunwritten.fields field hfield⟩
          { s with stack := [] }
      · exact fun c id hget => hin.temps id (hreuser.defined c id hget)
    rw [unwrapUnused, eval, eval, hagrees.stack]
    exact .leave hin.same hin.temps _ _ (fun _ => hafter)
      (fun _ => hafter) fun _ _ _ c id hget _ hstays => hafter c id hget hstays
  | callees, hsound, .loop body, reuser, marks, s, s', hreuser, hforeseen, hnames, hsettled,
      hagrees, hsupplies => by
    rw [visit] at hforeseen ⊢
    have hentry := hreuser.cut (writesAll callees body)
    obtain ⟨hinside, hextends⟩ := @visitAll_sound Op Ty taken callees body _ hentry
    obtain ⟨hsame, htemps, hturns⟩ := iterate_rewrites (fun t t' ht hentrySupplies => by
      have hin := visitAll_rewrites hcalls hunused callees hsound body
        (reuser.cut (writesAll callees body)) (false :: marks) t t' hentry
        ⟨hforeseen.minted, hforeseen.used⟩ hnames hsettled ht hentrySupplies
      refine ⟨hin.same, hin.temps, hentrySupplies.kept hreuser.indexed ?_ ?_⟩
      · exact fun key hunwritten => body_kept hsound hunwritten t
      · exact fun c id hget => hin.temps id (hreuser.defined c id hget))
      fuel s s' hagrees (hsupplies.drop (writesAll callees body) hreuser.indexed)
    have hafter : Supplies machine unused ((visitAll taken callees body
        (reuser.cut (writesAll callees body))).2.back
          (reuser.cut (writesAll callees body)).avail)
        (iterate (evalAll machine call fuel body) fuel s).state
        (iterate (evalAll machine call fuel (unwrapAll unused (visitAll taken callees body
          (reuser.cut (writesAll callees body))).1)) fuel s').state :=
      hturns.grow hextends.keys rfl
    rw [unwrapUnused, eval, eval, hagrees.stack]
    have hle : reuser.temps.length ≤
        (reuser.cut (writesAll callees body)).temps.length := Nat.le_refl _
    exact Rewrites.narrow hle (.leave hsame htemps _ _ (fun _ => hafter) (fun _ => hafter)
      fun _ _ _ c id hget _ hstays => hafter c id hget hstays)
  | callees, hsound, .ite condition result thenBody none, reuser, marks, s, s', hreuser,
      hforeseen, hnames, hsettled, hagrees, hsupplies => by
    rw [visit] at hforeseen ⊢
    simp only [armsSettled, Bool.and_true, Bool.and_eq_true] at hsettled
    obtain ⟨hfirst, hextends⟩ := @visit_sound Op Ty taken callees condition reuser hreuser
    obtain ⟨hthen, hextends'⟩ := @visitAll_sound Op Ty taken (armCallees thenBody callees)
      thenBody _ hfirst
    have hforeseen' : Foreseen isTemp unused (visitAll taken (armCallees thenBody callees)
        thenBody (condition.visit taken callees reuser).2).2 :=
      ⟨hforeseen.minted, hforeseen.used⟩
    have hcondition := visit_rewrites hcalls hunused callees hsound condition reuser marks s s'
      hreuser (hforeseen'.before hextends') hnames.1 hsettled.1 hagrees hsupplies
    have hlike := @visitAll_like Op Ty taken (armCallees thenBody callees) thenBody
      (condition.visit taken callees reuser).2
    rw [unwrapUnused, eval, eval]
    refine hcondition.andThen hextends (hfirst.meet hthen hextends').2 fun hnext => ?_
    refine Rewrites.pop hcondition.same.agrees fun value stack => ?_
    have hstart := hcondition.same.agrees.withStack []
    by_cases hvalue : machine.nonzero value = true
    · rw [if_pos hvalue, if_pos hvalue]
      have harm := visitAll_rewrites hcalls hunused _ (hsound.arm thenBody) thenBody _
        (true :: marks) _ _ hfirst hforeseen' hnames.2.1 hsettled.2.2 hstart
        (hcondition.next hnext)
      refine harm.arm (mem_cons_self) ?_ (prefix_refl _)
        (hfirst.indexed.grow hextends'.keys) hfirst.defined _ _
      intro hdiverges
      rw [LikeAll.last hlike] at hdiverges
      exact settled_end hcalls hsettled.2.1 hdiverges _
    · rw [if_neg hvalue, if_neg hvalue]
      refine .leave hstart.next (fun _ _ => rfl) _ _ ?_ ?_ ?_
      · intro _ c id hget hstays
        have hold := (Avail.of_get_retain (hfirst.indexed.grow hextends'.keys) hget).1
        exact (hcondition.next hnext c id hold hstays).grow hextends'.keys
      · intro heq
        cases heq
      · intro depth heq
        cases heq
  | callees, hsound, .ite condition result thenBody (some elseBody), reuser, marks, s, s',
      hreuser, hforeseen, hnames, hsettled, hagrees, hsupplies => by
    rw [visit] at hforeseen ⊢
    simp only [armsSettled, Bool.and_eq_true] at hsettled
    obtain ⟨hfirst, hextends⟩ := @visit_sound Op Ty taken callees condition reuser hreuser
    obtain ⟨hthen, hextends'⟩ := @visitAll_sound Op Ty taken (armCallees thenBody callees)
      thenBody _ hfirst
    have hback := hthen.back hextends' hfirst.indexed hfirst.defined
    obtain ⟨helse, hextends''⟩ := @visitAll_sound Op Ty taken (armCallees elseBody callees)
      elseBody _ hback
    have hextendsBack := (hextends'.back fun _ _ hget => hget).trans hextends''
    have hforeseenElse : Foreseen isTemp unused (visitAll taken (armCallees elseBody callees)
        elseBody ((visitAll taken (armCallees thenBody callees) thenBody
          (condition.visit taken callees reuser).2).2.back
            (condition.visit taken callees reuser).2.avail)).2 :=
      ⟨hforeseen.minted, hforeseen.used⟩
    have hforeseenBack := hforeseenElse.before hextends''
    have hforeseenThen : Foreseen isTemp unused (visitAll taken (armCallees thenBody callees)
        thenBody (condition.visit taken callees reuser).2).2 :=
      ⟨hforeseenBack.minted, hforeseenBack.used⟩
    have hcondition := visit_rewrites hcalls hunused callees hsound condition reuser marks s s'
      hreuser (hforeseenThen.before hextends') hnames.1 hsettled.1.1 hagrees hsupplies
    have hlikeThen := @visitAll_like Op Ty taken (armCallees thenBody callees) thenBody
      (condition.visit taken callees reuser).2
    have hlikeElse := @visitAll_like Op Ty taken (armCallees elseBody callees) elseBody
      ((visitAll taken (armCallees thenBody callees) thenBody
        (condition.visit taken callees reuser).2).2.back
          (condition.visit taken callees reuser).2.avail)
    have hindexed := hfirst.indexed.grow hextendsBack.keys
    rw [unwrapUnused, eval, eval]
    refine hcondition.andThen hextends (hfirst.meet helse hextendsBack).2 fun hnext => ?_
    refine Rewrites.pop hcondition.same.agrees fun value stack => ?_
    have hstart := hcondition.same.agrees.withStack []
    by_cases hvalue : machine.nonzero value = true
    · rw [if_pos hvalue, if_pos hvalue]
      have harm := visitAll_rewrites hcalls hunused _ (hsound.arm thenBody) thenBody _
        (true :: marks) _ _ hfirst hforeseenThen hnames.2.1 hsettled.1.2.2 hstart
        (hcondition.next hnext)
      refine harm.arm mem_cons_self ?_ hextends''.keys hindexed hfirst.defined _ _
      intro hdiverges
      rw [LikeAll.last hlikeThen] at hdiverges
      exact settled_end hcalls hsettled.1.2.1 hdiverges _
    · rw [if_neg hvalue, if_neg hvalue]
      have harm := visitAll_rewrites hcalls hunused _ (hsound.arm elseBody) elseBody _
        (true :: marks) _ _ hback hforeseenElse hnames.2.2 hsettled.2.2 hstart
        ((hcondition.next hnext).grow hextends'.keys rfl)
      have hle : (condition.visit taken callees reuser).2.temps.length ≤
          ((visitAll taken (armCallees thenBody callees) thenBody
            (condition.visit taken callees reuser).2).2.back
              (condition.visit taken callees reuser).2.avail).temps.length :=
        hextends'.length_le
      refine Rewrites.narrow hle (harm.arm
        (mem_cons_of_mem _ mem_cons_self) ?_ (prefix_refl _) hindexed
        (fun c id hget => (hfirst.defined c id hget).trans_le hextends'.length_le) _ _)
      intro hdiverges
      rw [LikeAll.last hlikeElse] at hdiverges
      exact settled_end hcalls hsettled.2.1 hdiverges _
  | callees, hsound, .node head operands, reuser, marks, s, s', hreuser, hforeseen, hnames,
      hsettled, hagrees, hsupplies => by
    cases hkey : Key.of (.node head operands) with
    | none =>
      rw [visit_node hkey] at hforeseen ⊢
      obtain ⟨hinside, hextends⟩ := @visitAll_sound Op Ty taken callees operands reuser hreuser
      have hcut := Reuser.Extends.cut hinside (writesOfNode callees head)
      have hin := visitAll_rewrites hcalls hunused callees hsound operands reuser marks s s'
        hreuser (hforeseen.before hcut) hnames.2 hsettled hagrees hsupplies
      have hlike := unwrapAll_like operands _
        (@visitAll_like Op Ty taken callees operands reuser)
        (EveryHeadAll.mono (fun head => unstripped_of_names hunused) operands hnames.2)
      rw [unwrap_node (unstripped_of_names hunused hnames.1), eval, eval, drop_same hlike]
      exact hin.andThen hextends hcut fun hnext => step_rewrites hsound hinside
        (hforeseen.before hcut) hnames.1 _ hin.same.agrees (hin.next hnext)
    | some key =>
      obtain ⟨typeId, fieldName, ty, expr, inner, rfl, rfl, -, -⟩ := Key.of_eq_some hkey
      cases hget : (reuser.know key).avail.get ((reuser.know key).position key) with
      | some id =>
        rw [visit_hit hkey hget] at hforeseen ⊢
        exact hit_rewrites hkey hreuser hget hforeseen hagrees hsupplies
      | none =>
        rw [visit_miss hkey hget] at hforeseen ⊢
        obtain ⟨hknow, hextends⟩ := hreuser.know key
        obtain ⟨hinside, hextends'⟩ := @visitAll_sound Op Ty taken callees [expr]
          (reuser.know key) hknow
        have hposition := Reuser.keys_position key reuser
        obtain ⟨more, hmore⟩ := hextends'.keys
        rw [← List.getElem?_append_left (List.getElem?_eq_some_iff.mp hposition).1,
          hmore] at hposition
        obtain ⟨hmint, hextends''⟩ := hinside.mint hposition ty
        have hin := visitAll_rewrites hcalls hunused callees hsound [expr]
          (reuser.know key) marks s s' hknow (hforeseen.before hextends'') hnames.2 hsettled
          hagrees (hsupplies.grow hextends.keys rfl)
        have hstep : Rewrites machine isTemp unused marks reuser
            (visitAll taken callees [expr] (reuser.know key)).2 s'.locals
            (eval machine call fuel (.node (.structGet typeId fieldName ty) [expr]) s)
            (eval machine call fuel (.node (.structGet typeId fieldName ty)
              (unwrapAll unused (visitAll taken callees [expr] (reuser.know key)).1)) s') := by
          have hlike := unwrapAll_like [expr] _
            (@visitAll_like Op Ty taken callees [expr] (reuser.know key))
            (EveryHeadAll.mono (fun head => unstripped_of_names hunused) [expr] hnames.2)
          rw [eval, eval, drop_same hlike]
          have hle : reuser.temps.length ≤ (reuser.know key).temps.length := Nat.le_refl _
          refine Rewrites.narrow hle (hin.andThen hextends' (.refl _) fun hnext => ?_)
          exact step_rewrites hsound hinside (hforeseen.before hextends'') hnames.1 _
            hin.same.agrees (hin.next hnext)
        have hmiss := miss_rewrites (Option.filter_eq_some_iff.mp hkey).1 hposition hinside
          (hextends.trans hextends') hforeseen hstep
        rw [unwrapUnused, unwrap_node (unstripped_of_names hunused hnames.1)]
        exact hmiss

theorem visitAll_rewrites (hcalls : CallsReturn call) (hunused : ∀ x ∈ unused, isTemp x) :
    ∀ (callees : Option CalleeWrites) (_ : CalleesSound callees call)
      (instrs : List (WirInstr Op Ty)) (reuser : Reuser Ty) (marks : List Bool)
      (s s' : State Val Rest),
      reuser.Sound taken → Foreseen isTemp unused (visitAll taken callees instrs reuser).2 →
      EveryHeadAll (fun head => ∀ x ∈ head.localNames, ¬ isTemp x) instrs →
      armsSettledAll marks instrs = true → Agrees isTemp s s' →
      Supplies machine unused reuser s s' →
      Rewrites machine isTemp unused marks reuser (visitAll taken callees instrs reuser).2
        s'.locals
        (evalAll machine call fuel instrs s)
        (evalAll machine call fuel
          (unwrapAll unused (visitAll taken callees instrs reuser).1) s')
  | callees, hsound, [], reuser, marks, s, s', hreuser, hforeseen, hnames, hsettled, hagrees,
      hsupplies =>
    ⟨⟨rfl, hagrees⟩, fun _ _ => rfl, fun _ => hsupplies, fun _ heq => by cases heq⟩
  | callees, hsound, instr :: rest, reuser, marks, s, s', hreuser, hforeseen, hnames, hsettled,
      hagrees, hsupplies => by
    rw [visitAll] at hforeseen ⊢
    rw [armsSettledAll, Bool.and_eq_true] at hsettled
    obtain ⟨hfirst, hextends⟩ := visit_sound callees instr reuser hreuser
    obtain ⟨hrest, hextends'⟩ := visitAll_sound callees rest _ hfirst
    have hinstr := visit_rewrites hcalls hunused callees hsound instr reuser marks s s' hreuser
      (hforeseen.before hextends') hnames.1 hsettled.1 hagrees hsupplies
    rw [unwrapAll, evalAll, evalAll]
    exact hinstr.andThen hextends hextends' fun hnext =>
      visitAll_rewrites hcalls hunused callees hsound rest _ marks _ _ hfirst hforeseen
        hnames.2 hsettled.2 hinstr.same.agrees (hinstr.next hnext)

end

end WirInstr

end Wado.Wir
