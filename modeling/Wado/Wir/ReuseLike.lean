/-
A rewritten body is the body it came from but for the loads: what the checks on
control flow and the footprints say of the one they say of the other.
-/
import Wado.Wir.Frame
import Wado.Wir.ReuseAvail

namespace Wado.Wir

open Option Footprint WirInstr

variable {Op Ty : Type}

namespace WirInstr

/-- A read of a local or of fields off one, which may set temps on the way. -/
def quiet : WirInstr Op Ty → Bool
  | .node (.localGet _ _) [] => true
  | .node (.localTee _) [value] => value.quiet
  | .node (.structGet _ _ _) [expr] => expr.quiet
  | _ => false

mutual

/-- Alike but for chains, which may have become any quiet read. -/
inductive Like : WirInstr Op Ty → WirInstr Op Ty → Prop
  | block {result : Option Ty} {body body' : List (WirInstr Op Ty)} (h : LikeAll body body') :
      Like (.block result body) (.block result body')
  | loop {body body' : List (WirInstr Op Ty)} (h : LikeAll body body') :
      Like (.loop body) (.loop body')
  | ite {condition condition' : WirInstr Op Ty} {result : Option Ty}
      {thenBody thenBody' : List (WirInstr Op Ty)} (h : Like condition condition')
      (hthen : LikeAll thenBody thenBody') :
      Like (.ite condition result thenBody none) (.ite condition' result thenBody' none)
  | iteElse {condition condition' : WirInstr Op Ty} {result : Option Ty}
      {thenBody thenBody' elseBody elseBody' : List (WirInstr Op Ty)}
      (h : Like condition condition') (hthen : LikeAll thenBody thenBody')
      (helse : LikeAll elseBody elseBody') :
      Like (.ite condition result thenBody (some elseBody))
        (.ite condition' result thenBody' (some elseBody'))
  | node {head : Head Op Ty} {operands operands' : List (WirInstr Op Ty)}
      (h : LikeAll operands operands') : Like (.node head operands) (.node head operands')
  | load {instr instr' : WirInstr Op Ty} (hchain : (Key.chain instr).isSome)
      (hquiet : instr'.quiet = true) : Like instr instr'

inductive LikeAll : List (WirInstr Op Ty) → List (WirInstr Op Ty) → Prop
  | nil : LikeAll [] []
  | cons {instr instr' : WirInstr Op Ty} {rest rest' : List (WirInstr Op Ty)}
      (h : Like instr instr') (hrest : LikeAll rest rest') :
      LikeAll (instr :: rest) (instr' :: rest')

end

theorem quiet_of_chain : ∀ instr : WirInstr Op Ty, (Key.chain instr).isSome →
    instr.quiet = true ∧ ∀ callees, (writes callees instr).locals = []
  | .node (.structGet typeId fieldName ty) [expr], h => by
    rw [Key.chain, isSome_map] at h
    obtain ⟨hquiet, hlocals⟩ := quiet_of_chain expr h
    refine ⟨hquiet, fun callees => ?_⟩
    simp [writes, writesAll, union, writesOfNode,
      Head.localWrites, hlocals callees]
  | .node (.localGet name ty) [], _ => ⟨rfl, fun _ => rfl⟩

/-- What the checks and footprints say of a quiet read. -/
structure Plain (instr : WirInstr Op Ty) : Prop where
  leaves : ∀ labels, instr.leaves labels = false
  rare : ∀ rarity, instr.startsRare rarity = false
  diverges : instr.alwaysDiverges = false
  fields : ∀ callees, (Footprint.writes callees instr).fields = []
  call : ∀ callees, (Footprint.writes callees instr).call = false

theorem plain_of_quiet : ∀ instr : WirInstr Op Ty, instr.quiet = true → instr.Plain
  | .node (.localGet name ty) [], _ => ⟨fun _ => rfl, fun _ => rfl, rfl, fun _ => rfl, fun _ => rfl⟩
  | .node (.localTee name) [value], h => by
    have hvalue := plain_of_quiet value h
    refine ⟨fun labels => ?_, fun rarity => rfl, rfl, fun callees => ?_, fun callees => ?_⟩
    · simp [leaves, leavesAny, Head.targets, hvalue.leaves labels]
    · simp [writes, writesAll, union, writesOfNode,
        hvalue.fields callees]
    · simp [writes, writesAll, union, writesOfNode,
        hvalue.call callees]
  | .node (.structGet typeId fieldName ty) [expr], h => by
    have hexpr := plain_of_quiet expr h
    refine ⟨fun labels => ?_, fun rarity => rfl, rfl, fun callees => ?_, fun callees => ?_⟩
    · simp [leaves, leavesAny, Head.targets, hexpr.leaves labels]
    · simp [writes, writesAll, union, writesOfNode,
        hexpr.fields callees]
    · simp [writes, writesAll, union, writesOfNode,
        hexpr.call callees]

theorem Like.plain {instr instr' : WirInstr Op Ty} (hchain : (Key.chain instr).isSome)
    (hquiet : instr'.quiet = true) : instr.Plain ∧ instr'.Plain :=
  ⟨plain_of_quiet instr (quiet_of_chain instr hchain).1, plain_of_quiet instr' hquiet⟩

mutual

theorem Like.leaves : ∀ (instr instr' : WirInstr Op Ty) (labels : Nat), Like instr instr' →
    instr'.leaves labels = instr.leaves labels
  | .block _ body, _, labels, .block h => LikeAll.leaves body _ (labels + 1) h
  | .loop body, _, labels, .loop h => LikeAll.leaves body _ (labels + 1) h
  | .ite condition _ thenBody none, _, labels, .ite h hthen => by
    rw [leaves, leaves, Like.leaves condition _ labels h,
      LikeAll.leaves thenBody _ (labels + 1) hthen]
  | .ite condition _ thenBody (some elseBody), _, labels, .iteElse h hthen helse => by
    rw [leaves, leaves, Like.leaves condition _ labels h,
      LikeAll.leaves thenBody _ (labels + 1) hthen]
    rw [LikeAll.leaves elseBody _ (labels + 1) helse]
  | .node head operands, _, labels, .node h => by
    have hoperands := LikeAll.leaves operands _ labels h
    cases head <;> simp only [leaves, hoperands]
  | instr, instr', labels, .load hchain hquiet => by
    obtain ⟨hplain, hplain'⟩ := Like.plain hchain hquiet
    rw [hplain.leaves, hplain'.leaves]

theorem LikeAll.leaves : ∀ (instrs instrs' : List (WirInstr Op Ty)) (labels : Nat),
    LikeAll instrs instrs' → leavesAny labels instrs' = leavesAny labels instrs
  | [], _, _, .nil => rfl
  | instr :: rest, _, labels, .cons h hrest => by
    rw [leavesAny, leavesAny, Like.leaves instr _ labels h, LikeAll.leaves rest _ labels hrest]

end

mutual

theorem Like.rare (rarity : Rarity) : ∀ (instr instr' : WirInstr Op Ty), Like instr instr' →
    instr'.startsRare rarity = instr.startsRare rarity
  | .block _ body, _, .block h => LikeAll.rare rarity body _ h
  | .loop body, _, .loop h => rfl
  | .ite condition _ thenBody none, _, .ite h hthen => rfl
  | .ite condition _ thenBody (some elseBody), _, .iteElse h hthen helse => rfl
  | .node head operands, _, .node h => by
    have hoperands := LikeAll.rare rarity operands _ h
    cases head <;> first | rfl | exact hoperands
  | instr, instr', .load hchain hquiet => by
    obtain ⟨hplain, hplain'⟩ := Like.plain hchain hquiet
    rw [hplain.rare, hplain'.rare]

theorem LikeAll.rare (rarity : Rarity) : ∀ (instrs instrs' : List (WirInstr Op Ty)),
    LikeAll instrs instrs' → isRare rarity instrs' = isRare rarity instrs
  | [], _, .nil => rfl
  | instr :: rest, _, .cons h hrest => by
    rw [isRare, isRare, Like.rare rarity instr _ h, Like.leaves instr _ 0 h,
      LikeAll.rare rarity rest _ hrest]

end

mutual

theorem Like.diverges : ∀ (instr instr' : WirInstr Op Ty), Like instr instr' →
    instr'.alwaysDiverges = instr.alwaysDiverges
  | .block _ body, _, .block h => rfl
  | .loop body, _, .loop h => rfl
  | .ite condition _ thenBody none, _, .ite h hthen => by
    rw [alwaysDiverges, alwaysDiverges, LikeAll.diverges thenBody _ hthen]
  | .ite condition _ thenBody (some elseBody), _, .iteElse h hthen helse => by
    rw [alwaysDiverges, alwaysDiverges, LikeAll.diverges thenBody _ hthen]
    rw [LikeAll.diverges elseBody _ helse]
  | .node head operands, _, .node h => by
    have hoperands := LikeAll.diverges operands _ h
    cases head <;> first | rfl | exact hoperands
  | instr, instr', .load hchain hquiet => by
    obtain ⟨hplain, hplain'⟩ := Like.plain hchain hquiet
    rw [hplain.diverges, hplain'.diverges]

theorem LikeAll.diverges : ∀ (instrs instrs' : List (WirInstr Op Ty)),
    LikeAll instrs instrs' → seqAlwaysDiverges instrs' = seqAlwaysDiverges instrs
  | [], _, .nil => rfl
  | instr :: rest, _, .cons h hrest => by
    rw [seqAlwaysDiverges, seqAlwaysDiverges, Like.diverges instr _ h,
      LikeAll.diverges rest _ hrest]

end

theorem LikeAll.last : ∀ {instrs instrs' : List (WirInstr Op Ty)}, LikeAll instrs instrs' →
    instrs'.getLast?.any alwaysDiverges = instrs.getLast?.any alwaysDiverges
  | [], _, .nil => rfl
  | [instr], _, .cons h .nil => by
    simpa using Like.diverges instr _ h
  | instr :: next :: rest, _, .cons h (.cons h' hrest) => by
    have htail := LikeAll.last (.cons h' hrest)
    simpa [List.getLast?_cons_cons] using htail

theorem LikeAll.callees {arm arm' : List (WirInstr Op Ty)} (h : LikeAll arm arm')
    (callees : Option CalleeWrites) : armCallees arm' callees = armCallees arm callees := by
  unfold armCallees
  rw [LikeAll.rare .cold arm arm' h]

end WirInstr

/-- A footprint with at least the locals, and the same fields and calls. -/
structure Footprint.Wider (a b : Footprint) : Prop where
  locals : b.locals ⊆ a.locals
  fields : a.fields = b.fields
  call : a.call = b.call

theorem Footprint.Wider.union {a b a' b' : Footprint} (h : a.Wider b) (h' : a'.Wider b') :
    (a.union a').Wider (b.union b') := by
  refine ⟨?_, ?_, ?_⟩
  · intro x hx
    rcases List.mem_append.mp hx with hx | hx
    · exact List.mem_append_left _ (h.locals hx)
    · exact List.mem_append_right _ (h'.locals hx)
  · simp [Footprint.union, h.fields, h'.fields]
  · simp [Footprint.union, h.call, h'.call]

theorem Footprint.Wider.refl (a : Footprint) : a.Wider a :=
  ⟨fun _ hx => hx, rfl, rfl⟩

namespace WirInstr

mutual

theorem Like.writes : ∀ (callees : Option CalleeWrites) (instr instr' : WirInstr Op Ty),
    Like instr instr' → (writes callees instr').Wider (writes callees instr)
  | callees, .block _ body, _, .block h => LikeAll.writes callees body _ h
  | callees, .loop body, _, .loop h => LikeAll.writes callees body _ h
  | callees, .ite condition _ thenBody none, _, .ite h hthen => by
    rw [writes, writes, hthen.callees]
    exact (Like.writes callees condition _ h).union
      ((LikeAll.writes _ thenBody _ hthen).union (.refl _))
  | callees, .ite condition _ thenBody (some elseBody), _, .iteElse h hthen helse => by
    rw [writes, writes, hthen.callees]
    rw [helse.callees]
    exact (Like.writes callees condition _ h).union
      ((LikeAll.writes _ thenBody _ hthen).union (LikeAll.writes _ elseBody _ helse))
  | callees, .node head operands, _, .node h => by
    rw [writes, writes]
    exact (Footprint.Wider.refl _).union (LikeAll.writes callees operands _ h)
  | callees, instr, instr', .load hchain hquiet => by
    obtain ⟨hplain, hplain'⟩ := Like.plain hchain hquiet
    refine ⟨?_, ?_, ?_⟩
    · rw [(quiet_of_chain instr hchain).2 callees]
      exact List.nil_subset _
    · rw [hplain.fields, hplain'.fields]
    · rw [hplain.call, hplain'.call]

theorem LikeAll.writes : ∀ (callees : Option CalleeWrites) (instrs instrs' : List (WirInstr Op Ty)),
    LikeAll instrs instrs' →
      (writesAll callees instrs').Wider (writesAll callees instrs)
  | _, [], _, .nil => .refl _
  | callees, instr :: rest, _, .cons h hrest => by
    rw [writesAll, writesAll]
    exact (Like.writes callees instr _ h).union (LikeAll.writes callees rest _ hrest)

end

variable {taken : List Ident}

theorem chain_of_key {instr : WirInstr Op Ty} {key : Key} (h : Key.of instr = some key) :
    (Key.chain instr).isSome := by
  rw [(filter_eq_some_iff.mp h).1]
  rfl

theorem key_of_chain {typeId : Nat} {fieldName : Ident} {ty : Ty} {expr : WirInstr Op Ty}
    (h : (Key.chain expr).isSome) :
    ∃ key, Key.of (.node (.structGet typeId fieldName ty) [expr]) = some key := by
  obtain ⟨inner, hinner⟩ := isSome_iff_exists.mp h
  refine ⟨{ inner with fields := inner.fields ++ [(typeId, fieldName)] }, ?_⟩
  simp [Key.of, Key.chain, hinner]

/-- A chain's rewriting is quiet: a temp read, or the chain under tees. -/
theorem visit_quiet : ∀ (callees : Option CalleeWrites) (instr : WirInstr Op Ty)
    (reuser : Reuser Ty), (Key.chain instr).isSome →
      (instr.visit taken callees reuser).1.quiet = true
  | callees, .node (.structGet typeId fieldName ty) [expr], reuser, h => by
    rw [Key.chain, isSome_map] at h
    obtain ⟨key, hkey⟩ := @key_of_chain Op Ty typeId fieldName ty expr h
    cases hget : (reuser.know key).avail.get ((reuser.know key).position key) with
    | some id =>
      rw [visit_hit hkey hget]
      rfl
    | none =>
      rw [visit_miss hkey hget]
      exact visit_quiet callees expr (reuser.know key) h
  | callees, .node (.localGet name ty) [], reuser, _ => by
    rw [visit_node (by rfl)]
    rfl

mutual

theorem visit_like : ∀ (callees : Option CalleeWrites) (instr : WirInstr Op Ty)
    (reuser : Reuser Ty), Like instr (instr.visit taken callees reuser).1
  | callees, .block result body, reuser => by
    rw [visit]
    exact .block (visitAll_like callees body reuser)
  | callees, .loop body, reuser => by
    rw [visit]
    exact .loop (visitAll_like callees body _)
  | callees, .ite condition result thenBody none, reuser => by
    rw [visit]
    exact .ite (visit_like callees condition reuser) (visitAll_like _ thenBody _)
  | callees, .ite condition result thenBody (some elseBody), reuser => by
    rw [visit]
    exact .iteElse (visit_like callees condition reuser) (visitAll_like _ thenBody _)
      (visitAll_like _ elseBody _)
  | callees, .node head operands, reuser => by
    cases hkey : Key.of (.node head operands) with
    | none =>
      rw [visit_node hkey]
      exact .node (visitAll_like callees operands reuser)
    | some key => exact .load (chain_of_key hkey) (visit_quiet callees _ reuser (chain_of_key hkey))

theorem visitAll_like : ∀ (callees : Option CalleeWrites) (instrs : List (WirInstr Op Ty))
    (reuser : Reuser Ty), LikeAll instrs (visitAll taken callees instrs reuser).1
  | _, [], _ => .nil
  | callees, instr :: rest, reuser => by
    rw [visitAll]
    exact .cons (visit_like callees instr reuser) (visitAll_like callees rest _)

end

variable {unused : List Ident}

theorem unwrap_quiet : ∀ instr : WirInstr Op Ty, instr.quiet = true →
    (instr.unwrapUnused unused).quiet = true
  | .node (.localGet name ty) [], _ => rfl
  | .node (.localTee name) [value], h => by
    rw [unwrapUnused]
    split
    · exact unwrap_quiet value h
    · exact unwrap_quiet value h
  | .node (.structGet typeId fieldName ty) [expr], h => by
    rw [unwrapUnused]
    · exact unwrap_quiet expr h
    · rintro name value ⟨⟩

/-- A node no tee of which is stripped. -/
def Unstripped (unused : List Ident) (head : Head Op Ty) : Prop :=
  ∀ x ∈ head.localNames, x ∉ unused

theorem unwrap_node {head : Head Op Ty} {operands : List (WirInstr Op Ty)}
    (h : Unstripped unused head) :
    (node head operands).unwrapUnused unused = .node head (unwrapAll unused operands) := by
  by_cases htee : ∃ name value, head = .localTee name ∧ operands = [value]
  · obtain ⟨name, value, rfl, rfl⟩ := htee
    have hname : name ∉ unused := h name (by simp [Head.localNames, Head.localWrites])
    rw [unwrapUnused, if_neg hname]
    rfl
  · rw [unwrapUnused]
    rintro name value rfl rfl
    exact htee ⟨name, value, rfl, rfl⟩

mutual

theorem unwrap_like : ∀ (instr instr' : WirInstr Op Ty), Like instr instr' →
    instr.EveryHead (Unstripped unused) → Like instr (instr'.unwrapUnused unused)
  | .block _ body, _, .block h, hheads => .block (unwrapAll_like body _ h hheads)
  | .loop body, _, .loop h, hheads => .loop (unwrapAll_like body _ h hheads)
  | .ite condition _ thenBody none, _, .ite h hthen, hheads =>
    .ite (unwrap_like condition _ h hheads.1) (unwrapAll_like thenBody _ hthen hheads.2.1)
  | .ite condition _ thenBody (some elseBody), _, .iteElse h hthen helse, hheads =>
    .iteElse (unwrap_like condition _ h hheads.1) (unwrapAll_like thenBody _ hthen hheads.2.1)
      (unwrapAll_like elseBody _ helse hheads.2.2)
  | .node head operands, _, .node h, hheads => by
    rw [unwrap_node hheads.1]
    exact .node (unwrapAll_like operands _ h hheads.2)
  | instr, instr', .load hchain hquiet, _ => .load hchain (unwrap_quiet instr' hquiet)

theorem unwrapAll_like : ∀ (instrs instrs' : List (WirInstr Op Ty)), LikeAll instrs instrs' →
    EveryHeadAll (Unstripped unused) instrs → LikeAll instrs (unwrapAll unused instrs')
  | [], _, .nil, _ => .nil
  | instr :: rest, _, .cons h hrest, hheads =>
    .cons (unwrap_like instr _ h hheads.1) (unwrapAll_like rest _ hrest hheads.2)

end

end WirInstr

end Wado.Wir
