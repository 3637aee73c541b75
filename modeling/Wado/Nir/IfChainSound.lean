/-
Fusing an if chain keeps what its block does, but for constants bound after an arm that leaves.
-/
import Wado.Nir.Frames

namespace Wado.Nir

open List Outcome

variable {Head Pat Const Obj World : Type} {machine : Machine Head Pat Const Obj World}
  {fuel : Nat}

variable {cases : List (Case Head Pat Const)} {stmts : List (Node Head Pat Const)}
variable {hoisted : List (Node Head Pat Const)} {stmt : Node Head Pat Const}

section Chains

/-- Statements that are each a case on the local or a constant `let` of another one, with the
cases and the `let`s among them. -/
inductive Chain (index : Nat) : List (Node Head Pat Const) → List (Case Head Pat Const) →
    List (Node Head Pat Const) → Prop
  | nil : Chain index [] [] []
  | guard {stmt rest cases hoisted case position} (hcase : caseAt stmt position index = some case)
      (hrest : Chain index rest cases hoisted) :
      Chain index (stmt :: rest) (case :: cases) hoisted
  | hoist {stmt rest cases hoisted bound} (hlet : stmt.constantLet = some bound)
      (hne : bound ≠ index) (hrest : Chain index rest cases hoisted) :
      Chain index (stmt :: rest) cases (stmt :: hoisted)

variable {index : Nat}

theorem Chain.append {stmts stmts' : List (Node Head Pat Const)}
    {cases cases' : List (Case Head Pat Const)} {hoisted hoisted' : List (Node Head Pat Const)}
    (h : Chain index stmts cases hoisted) (h' : Chain index stmts' cases' hoisted') :
    Chain index (stmts ++ stmts') (cases ++ cases') (hoisted ++ hoisted') := by
  induction h with
  | nil => exact h'
  | guard hcase _ ih => exact .guard hcase ih
  | hoist hlet hne _ ih => exact .hoist hlet hne ih

/-- A chain around one of its cases. -/
theorem Chain.split {stmts : List (Node Head Pat Const)} {cases : List (Case Head Pat Const)}
    {hoisted : List (Node Head Pat Const)} (h : Chain index stmts cases hoisted)
    {case : Case Head Pat Const} (hmem : case ∈ cases) :
    ∃ stmts₁ stmt stmts₂ cases₁ cases₂ hoisted₁ hoisted₂ position,
      stmts = stmts₁ ++ stmt :: stmts₂ ∧ cases = cases₁ ++ case :: cases₂ ∧
        hoisted = hoisted₁ ++ hoisted₂ ∧ caseAt stmt position index = some case ∧
          Chain index stmts₁ cases₁ hoisted₁ ∧ Chain index stmts₂ cases₂ hoisted₂ := by
  induction h with
  | nil => cases hmem
  | @guard stmt rest cases hoisted head position hcase hrest ih =>
    obtain rfl | hmem := mem_cons.mp hmem
    · exact ⟨[], stmt, rest, [], cases, [], hoisted, position, rfl, rfl, rfl, hcase, .nil, hrest⟩
    · obtain ⟨s₁, s, s₂, c₁, c₂, h₁, h₂, p, rfl, rfl, rfl, hat, hchain₁, hchain₂⟩ := ih hmem
      exact ⟨stmt :: s₁, s, s₂, head :: c₁, c₂, h₁, h₂, p, rfl, rfl, rfl, hat,
        .guard hcase hchain₁, hchain₂⟩
  | @hoist stmt rest cases hoisted bound hlet hne hrest ih =>
    obtain ⟨s₁, s, s₂, c₁, c₂, h₁, h₂, p, rfl, rfl, rfl, hat, hchain₁, hchain₂⟩ := ih hmem
    exact ⟨stmt :: s₁, s, s₂, c₁, c₂, stmt :: h₁, h₂, p, rfl, rfl, rfl, hat,
      .hoist hlet hne hchain₁, hchain₂⟩

/-- What a growing run has made of the statements that it passed: a chain, then the pending
`let`s. -/
structure Growing (index start : Nat) (passed : List (Node Head Pat Const))
    (run : Run Head Pat Const) : Prop where
  chain : ∃ body, passed = body ++ run.pending ∧ Chain index body run.cases run.hoisted ∧
    run.finish = start + body.length
  pending : Chain index run.pending [] run.pending
  keys : ∀ key, key ∈ run.cases.map Case.key → key ∈ run.keys
  nodup : (run.cases.map Case.key).Nodup

theorem Growing.guard {start position : Nat} {passed : List (Node Head Pat Const)}
    {run : Run Head Pat Const} (h : Growing index start passed run) {stmt : Node Head Pat Const}
    {case : Case Head Pat Const} (hcase : caseAt stmt position index = some case)
    (hkey : case.key ∉ run.keys) (hposition : position = start + passed.length) :
    Growing index start (passed ++ [stmt])
      { run with
        cases := run.cases ++ [case]
        hoisted := run.hoisted ++ run.pending
        pending := []
        keys := case.key :: run.keys
        finish := position + 1 } := by
  obtain ⟨body, rfl, hchain, -⟩ := h.chain
  refine ⟨⟨body ++ run.pending ++ [stmt], ?_, ?_, ?_⟩, .nil, fun key hmem => ?_, ?_⟩
  · exact (append_nil _).symm
  · have hstep := (hchain.append h.pending).append (.guard hcase .nil)
    rw [append_nil, append_nil] at hstep
    exact hstep
  · have hlength : (body ++ run.pending ++ [stmt]).length = (body ++ run.pending).length + 1 :=
      length_append
    rw [hposition, hlength]
    rfl
  · rw [map_append, mem_append] at hmem
    obtain hmem | hmem := hmem
    · exact mem_cons_of_mem _ (h.keys key hmem)
    · exact mem_cons.mpr (.inl (mem_singleton.mp hmem))
  · rw [map_append, nodup_append]
    refine ⟨h.nodup, pairwise_singleton _ _, fun a ha b hb hab => hkey ?_⟩
    rw [map_singleton, mem_singleton] at hb
    rw [← hb, ← hab]
    exact h.keys a ha

theorem Growing.hoist {start : Nat} {passed : List (Node Head Pat Const)}
    {run : Run Head Pat Const} (h : Growing index start passed run) {stmt : Node Head Pat Const}
    {bound : Nat} (hlet : stmt.constantLet = some bound) (hne : bound ≠ index) :
    Growing index start (passed ++ [stmt])
      { run with
        pending := run.pending ++ [stmt]
        hoistedLocals := bound :: run.hoistedLocals } := by
  obtain ⟨body, rfl, hchain, hfinish⟩ := h.chain
  refine ⟨⟨body, append_assoc .., hchain, hfinish⟩, ?_, h.keys, h.nodup⟩
  exact h.pending.append (.hoist hlet hne .nil)

/-- A run ends as a chain of distinct keys, which the statements past its end follow. -/
theorem grow_chain (start : Nat) (stmts passed : List (Node Head Pat Const))
    (run : Run Head Pat Const) (h : Growing index start passed run) :
    ∃ body after, passed ++ stmts = body ++ after ∧
      (Run.grow index stmts (start + passed.length) run).finish = start + body.length ∧
      Chain index body (Run.grow index stmts (start + passed.length) run).cases
        (Run.grow index stmts (start + passed.length) run).hoisted ∧
      ((Run.grow index stmts (start + passed.length) run).cases.map Case.key).Nodup := by
  have hstop (rest : List (Node Head Pat Const)) : ∃ body after, passed ++ rest = body ++ after ∧
      run.finish = start + body.length ∧ Chain index body run.cases run.hoisted ∧
      (run.cases.map Case.key).Nodup := by
    obtain ⟨body, hpassed, hchain, hfinish⟩ := h.chain
    exact ⟨body, run.pending ++ rest, by rw [hpassed, append_assoc], hfinish, hchain, h.nodup⟩
  induction stmts generalizing passed run with
  | nil => exact hstop []
  | cons stmt rest ih =>
    have hlength : start + passed.length + 1 = start + (passed ++ [stmt]).length := by
      rw [length_append]
      rfl
    have happend : passed ++ stmt :: rest = (passed ++ [stmt]) ++ rest := by
      rw [append_assoc]
      rfl
    have hnext (run' : Run Head Pat Const) (h' : Growing index start (passed ++ [stmt]) run') :
        ∃ body after, passed ++ stmt :: rest = body ++ after ∧
          (Run.grow index rest (start + passed.length + 1) run').finish = start + body.length ∧
          Chain index body (Run.grow index rest (start + passed.length + 1) run').cases
            (Run.grow index rest (start + passed.length + 1) run').hoisted ∧
          ((Run.grow index rest (start + passed.length + 1) run').cases.map Case.key).Nodup := by
      rw [hlength, happend]
      refine ih (passed ++ [stmt]) run' h' fun rest => ?_
      obtain ⟨body, hpassed, hchain, hfinish⟩ := h'.chain
      exact ⟨body, run'.pending ++ rest, by rw [hpassed, append_assoc], hfinish, hchain,
        h'.nodup⟩
    rw [Run.grow]
    split
    next case hcase =>
      split
      next => exact hstop (stmt :: rest)
      next hkey => exact hnext _ (h.guard hcase hkey rfl)
    next =>
      split
      next bound hlet =>
        split
        next hfresh => exact hnext _ (h.hoist hlet hfresh.1)
        next => exact hstop (stmt :: rest)
      next => exact hstop (stmt :: rest)

theorem grow_empty_chain (start : Nat) (stmts : List (Node Head Pat Const)) :
    ∃ body after, stmts = body ++ after ∧
      (Run.grow index stmts start ⟨[], [], [], [], [], start⟩).finish = start + body.length ∧
      Chain index body (Run.grow index stmts start ⟨[], [], [], [], [], start⟩).cases
        (Run.grow index stmts start ⟨[], [], [], [], [], start⟩).hoisted ∧
      ((Run.grow index stmts start ⟨[], [], [], [], [], start⟩).cases.map Case.key).Nodup :=
  grow_chain start stmts [] ⟨[], [], [], [], [], start⟩
    ⟨⟨[], rfl, .nil, rfl⟩, .nil, fun _ hmem => absurd hmem not_mem_nil, nodup_nil⟩

/-- Where no case is a writer, no arm sets the local. -/
theorem firstWriter_clear {position : Nat} (h : firstWriter index cases = (.clear, position)) :
    ∀ case ∈ cases, setsAny index case.thenBlock = false := by
  induction cases with
  | nil => exact fun _ hmem => absurd hmem not_mem_nil
  | cons case cases ih =>
    rw [firstWriter] at h
    intro other hmem
    split at h
    next hclear =>
      obtain rfl | hmem := mem_cons.mp hmem
      · exact scanAll_clear_sets _ hclear
      · exact ih h other hmem
    next hfound =>
      exact absurd (congrArg Prod.fst h) hfound

/-- What a fused block is made of. -/
structure Fusion (addressTaken : Nat → Bool) (stmts fused : List (Node Head Pat Const)) : Type where
  index : Nat
  before : List (Node Head Pat Const)
  body : List (Node Head Pat Const)
  after : List (Node Head Pat Const)
  cases : List (Case Head Pat Const)
  hoisted : List (Node Head Pat Const)
  stmts_eq : stmts = before ++ (body ++ after)
  fused_eq : fused = before ++ (hoisted ++ buildMatch index cases :: after)
  chain : Chain index body cases hoisted
  nodup : (cases.map Case.key).Nodup
  nonempty : cases ≠ []
  notTaken : addressTaken index = false
  kept : ∀ case ∈ cases, setsAny index case.thenBlock = false

theorem applyFrom_fusion {addressTaken : Nat → Bool} {stmts fused : List (Node Head Pat Const)}
    (turns start : Nat) (h : applyFrom addressTaken stmts turns start = .fused fused) :
    Nonempty (Fusion addressTaken stmts fused) := by
  induction turns generalizing start with
  | zero => cases h
  | succ turns ih =>
    rw [applyFrom] at h
    split at h
    next => cases h
    next first rest hdrop =>
      split at h
      next => exact ih (start + 1) h
      next index _ _ _ =>
        split at h
        next => exact ih (start + 1) h
        next htaken =>
          dsimp only at h
          split at h
          next => exact ih (start + 1) h
          next hlength =>
            split at h
            next position _ => exact ih (position + 1) h
            next => cases h
            next position hclear =>
              obtain ⟨body, after, hsplit, hfinish, hchain, hnodup⟩ :=
                grow_empty_chain start (first :: rest)
              have hstmts : stmts = stmts.take start ++ (body ++ after) := by
                rw [← hsplit, ← hdrop, take_append_drop]
              have hstart : (stmts.take start).length = start := by
                refine length_take_of_le (Nat.le_of_lt (Nat.lt_of_not_le fun hle => ?_))
                rw [drop_eq_nil_of_le hle] at hdrop
                cases hdrop
              have hdropped : stmts.drop (start + body.length) = after := by
                have hlength : (stmts.take start ++ body).length = start + body.length := by
                  rw [length_append, hstart]
                have hsame : stmts = (stmts.take start ++ body) ++ after := by
                  rw [append_assoc, ← hstmts]
                exact (congrArg (List.drop _) hsame).trans (drop_left' hlength)
              refine ⟨⟨index, stmts.take start, body, after, _, _, hstmts, ?_, hchain, hnodup,
                fun hnil => hlength ?_, Bool.eq_false_iff.mpr htaken,
                firstWriter_clear hclear⟩⟩
              · rw [← Applied.fused.inj h, hfinish, hdropped, append_assoc, append_assoc]
                rfl
              · rw [hnil]
                exact Nat.zero_lt_two

theorem Chain.mem (h : Chain index stmts cases hoisted) (hmem : stmt ∈ hoisted) : stmt ∈ stmts := by
  induction h with
  | nil => exact hmem
  | guard _ _ ih => exact mem_cons_of_mem _ (ih hmem)
  | hoist _ _ _ ih =>
    obtain rfl | hmem := mem_cons.mp hmem
    · exact mem_cons_self
    · exact mem_cons_of_mem _ (ih hmem)

theorem Chain.not_bound (h : Chain index stmts cases hoisted) :
    index ∉ hoisted.filterMap Node.constantLet := by
  induction h with
  | nil => exact not_mem_nil
  | guard _ _ ih => exact ih
  | hoist hlet hne _ ih =>
    rw [filterMap_cons_some hlet]
    exact not_mem_cons_of_ne_of_not_mem (Ne.symm hne) ih

end Chains

variable {index : Nat}

variable (first second : List (Node Head Pat Const))

section Parts

theorem evalBlock_append (last : Val Obj) (s : State Obj World) :
    evalBlock machine fuel (first ++ second) last s =
      (evalBlock machine fuel first last s).andThen fun v s =>
        evalBlock machine fuel second v s := by
  induction first generalizing last s with
  | nil => rfl
  | cons node rest ih =>
    rw [cons_append, evalBlock, evalBlock, andThen_assoc]
    exact congrArg _ (funext fun v => funext fun s => ih v s)

theorem leaveBlock_plain (outcome : Outcome Obj World) :
    outcome.leaveBlock none true = outcome.andThen fun _ s => .next .unit s := by
  unfold leaveBlock andThen
  cases outcome.exit with
  | next => rfl
  | breakTo label => cases label <;> rfl
  | _ => rfl

variable {node : Node Head Pat Const}

theorem eval_operandLocal (h : node.operandLocal = some index) (s : State Obj World) :
    eval machine fuel node s = .next (s.locals index) s := by
  cases node with
  | localVar promoted i => rw [eval, Option.some.inj h]
  | _ => cases h

variable {key : Int}

theorem eval_intKey (h : node.intKey = some key)
    (s : State Obj World) : eval machine fuel node s = .next (.int key) s := by
  cases node with
  | int value => rw [eval, ← value.extended, Option.some.inj h]
  | _ => cases h

theorem equals_hit (key : Int) : machine.equals (.int key) (.int key) = .bool true :=
  congrArg Val.bool (decide_eq_true rfl)

variable {v : Val Obj}

theorem equals_miss (h : v ≠ .int key) :
    machine.equals v (.int key) = .bool false ∧ machine.equals (.int key) v = .bool false := by
  cases v with
  | int number =>
    have hne : number ≠ key := fun heq => h (congrArg Val.int heq)
    exact ⟨congrArg Val.bool (decide_eq_false hne),
      congrArg Val.bool (decide_eq_false (Ne.symm hne))⟩
  | _ => exact ⟨rfl, rfl⟩

variable {position index : Nat} {case : Case Head Pat Const}

/-- A case is an `if` on its local and its key, either way round. -/
theorem caseAt_guard (h : caseAt stmt position index = some case) :
    ∃ lhs rhs, stmt = .ifThen (.eq lhs rhs) case.thenBlock ∧
      ((lhs.operandLocal = some index ∧ rhs.intKey = some case.key) ∨
        (rhs.operandLocal = some index ∧ lhs.intKey = some case.key)) := by
  obtain ⟨⟨found, key, thenBlock⟩, hsplit, hcase⟩ := Option.bind_eq_some_iff.mp h
  dsimp only at hcase
  obtain ⟨rfl, hsame⟩ := Option.ite_none_right_eq_some.mp hcase
  rw [← Option.some.inj hsame]
  unfold Node.splitGuard at hsplit
  split at hsplit
  next lhs rhs block =>
    split at hsplit
    next hlocal hkey =>
      obtain ⟨rfl, rfl, rfl⟩ := Option.some.inj hsplit
      exact ⟨lhs, rhs, rfl, .inl ⟨hlocal, hkey⟩⟩
    next =>
      split at hsplit
      next hlocal hkey =>
        obtain ⟨rfl, rfl, rfl⟩ := Option.some.inj hsplit
        exact ⟨lhs, rhs, rfl, .inr ⟨hlocal, hkey⟩⟩
      next => cases hsplit
  next => cases hsplit

variable {s : State Obj World}

section

variable (h : caseAt stmt position index = some case)
include h

theorem case_hit (hkey : s.locals index = .int case.key) :
    eval machine fuel stmt s =
      (evalBlock machine fuel case.thenBlock .unit s).andThen fun _ s => .next .unit s := by
  obtain ⟨lhs, rhs, rfl, ⟨hlocal, hint⟩ | ⟨hlocal, hint⟩⟩ := caseAt_guard h
  · simp only [eval, next_andThen, eval_operandLocal hlocal, eval_intKey hint, hkey, equals_hit]
  · simp only [eval, next_andThen, eval_operandLocal hlocal, eval_intKey hint, hkey, equals_hit]

theorem case_miss (hkey : s.locals index ≠ .int case.key) :
    eval machine fuel stmt s = .next .unit s := by
  obtain ⟨lhs, rhs, rfl, ⟨hlocal, hint⟩ | ⟨hlocal, hint⟩⟩ := caseAt_guard h
  · simp only [eval, next_andThen, eval_operandLocal hlocal, eval_intKey hint, equals_miss hkey]
  · simp only [eval, next_andThen, eval_operandLocal hlocal, eval_intKey hint, equals_miss hkey]

end

theorem eval_constantLet {bound : Nat}
    (h : stmt.constantLet = some bound) (machine : Machine Head Pat Const Obj World) (fuel : Nat) :
    ∃ v, ∀ s, eval machine fuel stmt s = .next .unit (s.set bound v) := by
  unfold Node.constantLet at h
  split at h
  next index value =>
    rw [← Option.some.inj h]
    exact ⟨.int (value.type.number value.bits), fun s => rfl⟩
  next index value =>
    rw [← Option.some.inj h]
    exact ⟨machine.constant value, fun s => rfl⟩
  next => cases h

theorem bind_literal_hit (key : Int) (s : State Obj World) :
    (Pattern.literal key : Pattern Pat).bind machine (.int key) s = some s := if_pos rfl

theorem bind_literal_miss (h : v ≠ .int key) (s : State Obj World) :
    (Pattern.literal key : Pattern Pat).bind machine v s = none := by
  cases v with
  | int number => exact if_neg fun heq => h (congrArg Val.int heq)
  | _ => rfl

/-- The arms of the match that a run becomes, on a value that is none of its keys. -/
theorem arms_miss (h : ∀ case ∈ cases, v ≠ .int case.key) (s : State Obj World) :
    evalArms machine fuel
        (cases.map (fun case => .arm (.literal case.key) [] (.labeled none true case.thenBlock)) ++
          [.arm .wildcard [] (.labeled none true [])]) v s = .next .unit s := by
  induction cases with
  | nil => rfl
  | cons case cases ih =>
    rw [map_cons, cons_append, evalArms, bind_literal_miss (h case mem_cons_self)]
    exact ih fun other hmem => h other (mem_cons_of_mem _ hmem)

theorem arms_hit {cases₁ cases₂ : List (Case Head Pat Const)}
    (h : ∀ other ∈ cases₁, (.int case.key : Val Obj) ≠ .int other.key) (s : State Obj World) :
    evalArms machine fuel
        ((cases₁ ++ case :: cases₂).map
            (fun case => .arm (.literal case.key) [] (.labeled none true case.thenBlock)) ++
          [.arm .wildcard [] (.labeled none true [])]) (.int case.key) s =
      (evalBlock machine fuel case.thenBlock .unit s).andThen fun _ s => .next .unit s := by
  induction cases₁ with
  | nil =>
    rw [nil_append, map_cons, cons_append, evalArms, bind_literal_hit]
    exact leaveBlock_plain _
  | cons other cases ih =>
    rw [cons_append, map_cons, cons_append, evalArms,
      bind_literal_miss (h other mem_cons_self)]
    exact ih fun other hmem => h other (mem_cons_of_mem _ hmem)

theorem setAll_world (bindings : List Nat) (values : List (Val Obj)) (s : State Obj World) :
    (State.setAll bindings values s).world = s.world := by
  induction bindings generalizing values s with
  | nil => rfl
  | cons index bindings ih =>
    cases values with
    | nil => rfl
    | cons v values => exact ih values (s.set index v)

/-- A local among those bound has its value from the values alone. -/
theorem setAll_bound {bindings : List Nat} {values : List (Val Obj)}
    (hlength : values.length = bindings.length) (hmem : index ∈ bindings) (s s' : State Obj World) :
    (State.setAll bindings values s).locals index =
      (State.setAll bindings values s').locals index := by
  induction bindings generalizing values s s' with
  | nil => cases hmem
  | cons bound bindings ih =>
    cases values with
    | nil => cases hlength
    | cons v values =>
      rw [State.setAll, State.setAll]
      by_cases hrest : index ∈ bindings
      · exact ih (Nat.succ.inj hlength) hrest _ _
      · obtain rfl | hmem := mem_cons.mp hmem
        · rw [setAll_kept hrest, setAll_kept hrest]
          exact (if_pos rfl).trans (if_pos rfl).symm
        · exact absurd hmem hrest

/-- Bind a run's hoisted locals, and nothing else. -/
theorem lets_run (h : Chain index stmts cases hoisted) (machine : Machine Head Pat Const Obj World)
    (fuel : Nat) :
    ∃ values, values.length = (hoisted.filterMap Node.constantLet).length ∧
      ∀ s, evalBlock machine fuel hoisted .unit s =
        .next .unit (State.setAll (hoisted.filterMap Node.constantLet) values s) := by
  induction h with
  | nil => exact ⟨[], rfl, fun s => rfl⟩
  | guard _ _ ih => exact ih
  | hoist hlet _ _ ih =>
    obtain ⟨values, hlength, hrun⟩ := ih
    obtain ⟨v, hstep⟩ := eval_constantLet hlet machine fuel
    rw [filterMap_cons_some hlet]
    refine ⟨v :: values, congrArg (· + 1) hlength, fun s => ?_⟩
    rw [evalBlock, hstep, next_andThen, hrun]
    rfl

/-- A chain that no key hits binds its constants. -/
theorem chain_miss (h : Chain index stmts cases hoisted)
    (hkeys : ∀ case ∈ cases, s.locals index ≠ .int case.key) :
    evalBlock machine fuel stmts .unit s = evalBlock machine fuel hoisted .unit s := by
  induction h generalizing s with
  | nil => rfl
  | guard hcase _ ih =>
    rw [evalBlock, case_miss hcase (hkeys _ mem_cons_self), next_andThen]
    exact ih fun case hmem => hkeys case (mem_cons_of_mem _ hmem)
  | hoist hlet hne _ ih =>
    obtain ⟨v, hstep⟩ := eval_constantLet hlet machine fuel
    rw [evalBlock, evalBlock, hstep, next_andThen, next_andThen]
    refine ih fun case hmem => ?_
    rw [set_kept hne]
    exact hkeys case hmem

end Parts

section Runs

theorem Alike.mono {hidden hidden' : List Nat} {o o' : Outcome Obj World}
    (h : Alike hidden o o') (hsub : ∀ i ∈ hidden, i ∈ hidden') : Alike hidden' o o' :=
  ⟨h.exit, h.value, h.state.world, fun i hi => h.state.locals i fun hmem => hi (hsub i hmem)⟩

theorem evalBlock_last {nodes : List (Node Head Pat Const)} (h : nodes ≠ []) (v v' : Val Obj)
    (s : State Obj World) :
    evalBlock machine fuel nodes v s = evalBlock machine fuel nodes v' s := by
  cases nodes with
  | nil => exact absurd rfl h
  | cons node rest => rfl

theorem mentionsAny_append {i : Nat} :
    mentionsAny i (first ++ second) = (mentionsAny i first || mentionsAny i second) := by
  induction first with
  | nil => rfl
  | cons node rest ih => rw [cons_append, mentionsAny, mentionsAny, ih, Bool.or_assoc]

/-- Running the match that a run becomes. -/
theorem buildMatch_run (index : Nat) (cases : List (Case Head Pat Const)) (s : State Obj World) :
    evalBlock machine fuel [buildMatch index cases] .unit s = (evalArms machine fuel
        (cases.map (fun case => .arm (.literal case.key) [] (.labeled none true case.thenBlock)) ++
          [.arm .wildcard [] (.labeled none true [])]) (s.locals index) s).andThen .next := by
  rw [buildMatch, evalBlock, eval, eval, eval, next_andThen]
  rfl

/-- Each constant `let` of a block binds a fresh local: one that no call reaches, and that no
earlier statement mentions. -/
def FreshLets (machine : Machine Head Pat Const Obj World) (stmts : List (Node Head Pat Const)) :
    Prop :=
  ∀ before stmt after bound, stmts = before ++ stmt :: after → stmt.constantLet = some bound →
    machine.shared bound = false ∧ mentionsAny bound before = false

/-- The statements of a run against its `let`s and its match. -/
theorem run_fused {body : List (Node Head Pat Const)}
    (hchain : Chain index body cases hoisted) (hnodup : (cases.map Case.key).Nodup)
    (hshared : machine.shared index = false)
    (hkept : ∀ case ∈ cases, setsAny index case.thenBlock = false)
    (hfresh : FreshLets machine body) (s : State Obj World) :
    evalBlock machine fuel body .unit s =
        evalBlock machine fuel (hoisted ++ [buildMatch index cases]) .unit s ∨
      ∃ reached rest, body = reached ++ rest ∧
        (evalBlock machine fuel reached .unit s).exit ≠ .next ∧
        Alike (rest.filterMap Node.constantLet) (evalBlock machine fuel body .unit s)
          (evalBlock machine fuel (hoisted ++ [buildMatch index cases]) .unit s) := by
  by_cases hhit : ∃ case ∈ cases, s.locals index = .int case.key
  · obtain ⟨case, hmem, hkey⟩ := hhit
    obtain ⟨body₁, stmt, body₂, cases₁, cases₂, hoisted₁, hoisted₂, position, rfl, rfl, rfl,
      hcase, hchain₁, hchain₂⟩ := hchain.split hmem
    obtain ⟨values₁, -, hrun₁⟩ := lets_run hchain₁ machine fuel
    obtain ⟨values₂, hlength, hrun₂⟩ := lets_run hchain₂ machine fuel
    -- the keys before and after the one that is hit
    rw [map_append, map_cons, nodup_append, nodup_cons] at hnodup
    have hkeys₁ (other) (hother : other ∈ cases₁) :
        (.int case.key : Val Obj) ≠ .int other.key := fun heq =>
      hnodup.2.2 _ (mem_map_of_mem hother) _ mem_cons_self (Val.int.inj heq).symm
    have hkeys₂ (other) (hother : other ∈ cases₂) :
        (.int case.key : Val Obj) ≠ .int other.key := fun heq =>
      hnodup.2.1.1 (mem_map.mpr ⟨other, hother, (Val.int.inj heq).symm⟩)
    -- the constants bound before the arm, and then those after it
    obtain ⟨s₁, hs₁⟩ : ∃ s₁, State.setAll (hoisted₁.filterMap Node.constantLet) values₁ s = s₁ :=
      ⟨_, rfl⟩
    obtain ⟨t, ht⟩ : ∃ t, State.setAll (hoisted₂.filterMap Node.constantLet) values₂ s₁ = t :=
      ⟨_, rfl⟩
    have hkey₁ : s₁.locals index = .int case.key := by
      rw [← hs₁, setAll_kept hchain₁.not_bound, hkey]
    have hkeyt : t.locals index = .int case.key := by
      rw [← ht, setAll_kept hchain₂.not_bound, hkey₁]
    have hreach (after : List (Node Head Pat Const)) :
        evalBlock machine fuel (body₁ ++ stmt :: after) .unit s =
          (evalBlock machine fuel case.thenBlock .unit s₁).andThen fun _ s =>
            evalBlock machine fuel after .unit s := by
      have hmiss (other) (hother : other ∈ cases₁) : s.locals index ≠ .int other.key := by
        rw [hkey]
        exact hkeys₁ other hother
      rw [evalBlock_append, chain_miss hchain₁ hmiss, hrun₁, hs₁, next_andThen, evalBlock,
        case_hit hcase hkey₁, andThen_assoc]
      rfl
    have hnew : evalBlock machine fuel
          ((hoisted₁ ++ hoisted₂) ++ [buildMatch index (cases₁ ++ case :: cases₂)]) .unit s =
        (evalBlock machine fuel case.thenBlock .unit t).andThen fun _ s => .next .unit s := by
      rw [evalBlock_append, evalBlock_append, hrun₁, hs₁, next_andThen, hrun₂, ht, next_andThen,
        buildMatch_run, hkeyt, arms_hit hkeys₁, andThen_assoc]
      rfl
    have hlets (bound) (hbound : bound ∈ hoisted₂.filterMap Node.constantLet) :
        machine.shared bound = false ∧ mentionsAny bound case.thenBlock = false := by
      obtain ⟨later, hlater, hlet⟩ := mem_filterMap.mp hbound
      obtain ⟨between, after, rfl⟩ := append_of_mem (hchain₂.mem hlater)
      obtain ⟨hunshared, hmentions⟩ := hfresh (body₁ ++ stmt :: between) later after bound
        (by rw [append_assoc, cons_append]) hlet
      obtain ⟨lhs, rhs, rfl, -⟩ := caseAt_guard hcase
      rw [mentionsAny_append, mentionsAny, Node.mentions, Bool.or_eq_false_iff,
        Bool.or_eq_false_iff, Bool.or_eq_false_iff] at hmentions
      exact ⟨hunshared, hmentions.2.1.2⟩
    have hoff : Off (hoisted₂.filterMap Node.constantLet) s₁ t := by
      rw [← ht]
      exact ⟨(setAll_world _ _ _).symm, fun i hi => (setAll_kept hi _ _).symm⟩
    have halike : Alike (hoisted₂.filterMap Node.constantLet)
        (evalBlock machine fuel case.thenBlock .unit s₁)
        (evalBlock machine fuel case.thenBlock .unit t) :=
      evalBlock_alike (fun i hi => (hlets i hi).1) _ (fun i hi => (hlets i hi).2) _ _ _ hoff
    rw [hreach, hnew]
    by_cases hexit : (evalBlock machine fuel case.thenBlock .unit s₁).exit = .next
    · left
      have hmiss (other) (hother : other ∈ cases₂) :
          (evalBlock machine fuel case.thenBlock .unit s₁).state.locals index ≠ .int other.key := by
        rw [evalBlock_kept hshared _ (hkept case hmem), hkey₁]
        exact hkeys₂ other hother
      rw [andThen_next hexit, andThen_next (halike.exit ▸ hexit),
        chain_miss hchain₂ hmiss, hrun₂]
      refine congrArg (next .unit) (state_eq ?_ fun i => ?_)
      · rw [setAll_world]
        exact halike.state.world
      · by_cases hi : i ∈ hoisted₂.filterMap Node.constantLet
        · rw [setAll_bound hlength hi _ s₁, ht, evalBlock_kept (hlets i hi).1 _
            (mentionsAny_sets _ (hlets i hi).2)]
        · rw [setAll_kept hi]
          exact halike.state.locals i hi
    · right
      refine ⟨body₁ ++ [stmt], body₂, by rw [append_assoc]; rfl, ?_, ?_⟩
      · rw [hreach, andThen_left hexit]
        exact hexit
      · rw [andThen_left hexit, andThen_left (halike.exit ▸ hexit)]
        refine halike.mono fun i hi => ?_
        obtain ⟨later, hlater, hlet⟩ := mem_filterMap.mp hi
        exact mem_filterMap.mpr ⟨later, hchain₂.mem hlater, hlet⟩
  · left
    have hmiss (case) (hmem : case ∈ cases) : s.locals index ≠ .int case.key := fun heq =>
      hhit ⟨case, hmem, heq⟩
    obtain ⟨values, -, hrun⟩ := lets_run hchain machine fuel
    rw [chain_miss hchain hmiss, evalBlock_append, hrun, next_andThen, buildMatch_run, arms_miss]
    · rfl
    · intro case hmem
      rw [setAll_kept hchain.not_bound]
      exact hmiss case hmem

theorem FreshLets.inner {before body after : List (Node Head Pat Const)}
    (h : FreshLets machine (before ++ (body ++ after))) : FreshLets machine body := by
  rintro first stmt second bound rfl hlet
  obtain ⟨hshared, hmentions⟩ := h (before ++ first) stmt (second ++ after) bound
    (by rw [append_assoc, append_assoc, cons_append]) hlet
  rw [mentionsAny_append, Bool.or_eq_false_iff] at hmentions
  exact ⟨hshared, hmentions.2⟩

/-- A fused block does what the block did, but for constants bound where the block had been
left. -/
theorem applyBlock_exact (machine : Machine Head Pat Const Obj World) (addressTaken : Nat → Bool)
    (stmts fused : List (Node Head Pat Const))
    (htaken : ∀ i, machine.shared i = true → addressTaken i = true)
    (hfresh : FreshLets machine stmts) (h : applyBlock addressTaken stmts = .fused fused)
    (fuel : Nat) (last : Val Obj) (s : State Obj World) :
    evalBlock machine fuel stmts last s = evalBlock machine fuel fused last s ∨
      ∃ reached rest, stmts = reached ++ rest ∧
        (evalBlock machine fuel reached last s).exit ≠ .next ∧
        Alike (rest.filterMap Node.constantLet) (evalBlock machine fuel stmts last s)
          (evalBlock machine fuel fused last s) := by
  obtain ⟨⟨index, before, body, after, cases, hoisted, rfl, rfl, hchain, hnodup, hcases,
    hnotTaken, hkept⟩⟩ := applyFrom_fusion _ _ h
  have hshared : machine.shared index = false :=
    Bool.eq_false_iff.mpr fun hshared => absurd (htaken index hshared)
      (Bool.eq_false_iff.mp hnotTaken)
  have hbody : body ≠ [] := by
    rintro rfl
    cases hchain
    exact hcases rfl
  have hmatch (hoisted : List (Node Head Pat Const)) : hoisted ++ buildMatch index cases :: after =
        (hoisted ++ [buildMatch index cases]) ++ after := by
    rw [List.append_assoc]
    rfl
  rw [hmatch, evalBlock_append, evalBlock_append]
  by_cases hbefore : (evalBlock machine fuel before last s).exit = .next
  · rw [Outcome.andThen_next hbefore, Outcome.andThen_next hbefore, evalBlock_append,
      evalBlock_append, evalBlock_last hbody _ .unit,
      evalBlock_last (List.append_ne_nil_of_right_ne_nil _ (List.cons_ne_nil _ _)) _ .unit]
    obtain heq | ⟨reached, rest, rfl, hexit, halike⟩ := run_fused hchain hnodup hshared hkept
      hfresh.inner (evalBlock machine fuel before last s).state
    · left
      rw [heq]
    · right
      have hreached : reached ≠ [] := by
        rintro rfl
        exact hexit rfl
      have hleft : (evalBlock machine fuel (reached ++ rest) .unit
          (evalBlock machine fuel before last s).state).exit ≠ .next := by
        rw [evalBlock_append, Outcome.andThen_left hexit]
        exact hexit
      refine ⟨before ++ reached, rest ++ after, by rw [List.append_assoc, List.append_assoc],
        ?_, ?_⟩
      · rw [evalBlock_append, Outcome.andThen_next hbefore, evalBlock_last hreached _ .unit]
        exact hexit
      · rw [Outcome.andThen_left hleft, Outcome.andThen_left (halike.exit ▸ hleft)]
        refine halike.mono fun i hi => ?_
        rw [List.filterMap_append]
        exact List.mem_append_left _ hi
  · left
    rw [Outcome.andThen_left hbefore, Outcome.andThen_left hbefore]

end Runs

section Leaving

/-- The least `i64`. -/
def leastKey : IntConst := ⟨⟨true, 64⟩, 0x8000000000000000, by decide⟩

def minusOne : IntConst := ⟨⟨true, 64⟩, 0xffffffffffffffff, by decide⟩

/-- A chain on local 0 whose first arm returns past the `let` of local 1. -/
def leavingChain : List (Node Unit Unit Unit) :=
  [.ifThen (.eq (.int leastKey) (.localVar false 0)) [.returnWith []],
    .letTo false 1 (.int minusOne),
    .ifThen (.eq (.localVar true 0) (.int minusOne)) []]

def leavingMatch : List (Node Unit Unit Unit) :=
  [.letTo false 1 (.int minusOne),
    buildMatch 0 [⟨0, [.returnWith []], -9223372036854775808⟩, ⟨2, [], -1⟩]]

/-- A machine without operations or shared locals. -/
def bare : Machine Unit Unit Unit Unit Unit where
  constant := fun _ => .unit
  localRef := fun _ => .unit
  equal := fun _ _ => .bool false
  project := fun _ _ _ _ => none
  store := fun _ _ _ _ _ => none
  op := fun _ _ _ _ => none
  matchOther := fun _ _ => none
  shared := fun _ => false

theorem leavingChain_fresh : FreshLets bare leavingChain := by
  rintro before stmt after bound heq hlet
  rcases before with _ | ⟨first, _ | ⟨second, _ | ⟨third, rest⟩⟩⟩
  · cases heq
    cases hlet
  · cases heq
    cases hlet
    exact ⟨rfl, rfl⟩
  · cases heq
    cases hlet
  · cases rest <;> cases heq

/-- Local 0 is the least `i64`, and local 1 is not yet bound. -/
def leavingState : State Unit Unit :=
  ⟨fun i => if i = 0 then .int (-9223372036854775808) else .int 0, ()⟩

theorem applyBlock_exact_least : evalBlock bare 0 leavingChain .unit leavingState =
        evalBlock bare 0 leavingMatch .unit leavingState ∨
      ∃ reached rest, leavingChain = reached ++ rest ∧
        (evalBlock bare 0 reached .unit leavingState).exit ≠ .next ∧
        Alike (rest.filterMap Node.constantLet) (evalBlock bare 0 leavingChain .unit leavingState)
          (evalBlock bare 0 leavingMatch .unit leavingState) :=
  applyBlock_exact bare (fun _ => false) leavingChain leavingMatch (fun _ h => nomatch h)
    leavingChain_fresh rfl 0 .unit leavingState

/-- The chain returns with local 1 unbound, and the match with it bound. -/
theorem applyBlock_bound_early : applyBlock (fun _ => false) leavingChain = .fused leavingMatch ∧
      FreshLets bare leavingChain ∧
      (evalBlock bare 0 leavingChain .unit leavingState).state.locals 1 = .int 0 ∧
      (evalBlock bare 0 leavingMatch .unit leavingState).state.locals 1 = .int (-1) :=
  ⟨rfl, leavingChain_fresh, rfl, rfl⟩

end Leaving

end Wado.Nir
