/-
What the flattened events are: a body's code read in order, each end matched with
the start of its own construct.
-/
import Wado.Wir.Flow

namespace Wado.Wir.Liveness

open List Option Function

namespace Code

/-- The code flattened. -/
def events : Code → List Event
  | .done => []
  | .read name rest => .read name :: rest.events
  | .store write rest => .store write :: rest.events
  | .block body rest => .blockStart :: (body.events ++ .blockEnd :: rest.events)
  | .loop body rest => .loopStart :: (body.events ++ .loopEnd :: rest.events)
  | .ifThen thenBody rest => .ifStart :: (thenBody.events ++ .ifEnd :: rest.events)
  | .ifElse thenBody elseBody rest =>
    .ifStart :: (thenBody.events ++ .ifElse :: (elseBody.events ++ .ifEnd :: rest.events))
  | .br depth rest => .br depth :: rest.events
  | .brIf depth rest => .brIf depth :: rest.events
  | .brTable depths rest => .brTable depths :: rest.events
  | .exit rest => .exit :: rest.events

attribute [grind =] events

/-- How many events the code flattens to. -/
def size (code : Code) : Nat := code.events.length

section Size

variable (body thenBody elseBody rest : Code)

@[simp] theorem size_read (name : Ident) : (Code.read name rest).size = rest.size + 1 := rfl

@[simp] theorem size_store (write : Store) : (Code.store write rest).size = rest.size + 1 := rfl

@[simp] theorem size_br (depth : Nat) : (Code.br depth rest).size = rest.size + 1 := rfl

@[simp] theorem size_brIf (depth : Nat) : (Code.brIf depth rest).size = rest.size + 1 := rfl

@[simp] theorem size_brTable (depths : List Nat) :
    (Code.brTable depths rest).size = rest.size + 1 := rfl

@[simp] theorem size_exit : (Code.exit rest).size = rest.size + 1 := rfl

@[simp] theorem size_block : (Code.block body rest).size = body.size + rest.size + 2 := by
  simp only [size, events, length_cons, length_append]
  omega

@[simp] theorem size_loop : (Code.loop body rest).size = body.size + rest.size + 2 := by
  simp only [size, events, length_cons, length_append]
  omega

@[simp] theorem size_ifThen : (Code.ifThen body rest).size = body.size + rest.size + 2 := by
  simp only [size, events, length_cons, length_append]
  omega

@[simp] theorem size_ifElse : (Code.ifElse thenBody elseBody rest).size =
    thenBody.size + elseBody.size + rest.size + 3 := by
  simp only [size, events, length_cons, length_append]
  omega

end Size

end Code

section Flattened

variable {Op Ty : Type}

theorem events_headCode (id : Nat) (head : Head Op Ty) (rest : Code) :
    (headCode id head rest).events = eventsOf id head ++ rest.events := by
  cases head with
  | multiValueLocalBind locals =>
    simp only [headCode, eventsOf]
    split <;> rfl
  | _ => rfl

mutual

theorem visitInstr_eq : ∀ (instr : WirInstr Op Ty) (flat : Flatten) (rest : Code),
    (visitInstr instr flat).preorder = flat.preorder + nodes instr ∧
      (visitInstr instr flat).events ++ rest.events =
        flat.events ++ (codeOf flat.preorder instr rest).events
  | .block _ body, flat, rest => by
    obtain ⟨hnumber, hevents⟩ := walkBody_eq body (flat.number.push [.blockStart]) .done
    simp only [Code.events, append_nil] at hevents
    simp only [visitInstr, nodes, codeOf, Code.events, Flatten.push_preorder,
      Flatten.push_events, hnumber, hevents]
    simp
    omega
  | .loop body, flat, rest => by
    obtain ⟨hnumber, hevents⟩ := walkBody_eq body (flat.number.push [.loopStart]) .done
    simp only [Code.events, append_nil] at hevents
    simp only [visitInstr, nodes, codeOf, Code.events, Flatten.push_preorder,
      Flatten.push_events, hnumber, hevents]
    simp
    omega
  | .ite condition _ thenBody none, flat, rest => by
    obtain ⟨hcondition, hevents⟩ := visitInstr_eq condition flat.number
      (.ifThen (codeOfAll (flat.preorder + 1 + nodes condition) thenBody .done) rest)
    obtain ⟨hnumber, hthen⟩ :=
      walkBody_eq thenBody ((visitInstr condition flat.number).push [.ifStart]) .done
    simp only [Code.events, append_nil, Flatten.push_preorder, Flatten.push_events,
      hcondition, Flatten.number_preorder] at hnumber hthen hevents
    simp only [visitInstr, nodes, codeOf, Flatten.push_preorder, Flatten.push_events, hnumber,
      hthen]
    refine ⟨by omega, ?_⟩
    rw [← Flatten.number_events flat, ← hevents]
    simp
  | .ite condition _ thenBody (some elseBody), flat, rest => by
    obtain ⟨hcondition, hevents⟩ := visitInstr_eq condition flat.number
      (.ifElse (codeOfAll (flat.preorder + 1 + nodes condition) thenBody .done)
        (codeOfAll (flat.preorder + 1 + nodes condition + nodesAll thenBody) elseBody .done)
        rest)
    obtain ⟨hmiddle, hthen⟩ :=
      walkBody_eq thenBody ((visitInstr condition flat.number).push [.ifStart]) .done
    obtain ⟨hnumber, helse⟩ := walkBody_eq elseBody
      ((walkBody thenBody ((visitInstr condition flat.number).push [.ifStart])).push
        [.ifElse]) .done
    simp only [Code.events, append_nil, Flatten.push_preorder, Flatten.push_events,
      hcondition, Flatten.number_preorder] at hmiddle hthen hevents hnumber helse
    simp only [hmiddle, hthen] at hnumber helse
    simp only [visitInstr, nodes, codeOf, Flatten.push_preorder, Flatten.push_events, hnumber,
      helse]
    refine ⟨by omega, ?_⟩
    rw [← Flatten.number_events flat, ← hevents]
    simp
  | .node head operands, flat, rest => by
    obtain ⟨hnumber, hevents⟩ := walkBody_eq operands flat.number
      (headCode flat.preorder head rest)
    simp only [Flatten.number_events, Flatten.number_preorder, events_headCode]
      at hnumber hevents
    simp only [visitInstr, nodes, codeOf, Flatten.push_preorder, Flatten.push_events,
      append_assoc, hevents, hnumber]
    exact ⟨by omega, trivial⟩

theorem walkBody_eq : ∀ (body : List (WirInstr Op Ty)) (flat : Flatten) (rest : Code),
    (walkBody body flat).preorder = flat.preorder + nodesAll body ∧
      (walkBody body flat).events ++ rest.events =
        flat.events ++ (codeOfAll flat.preorder body rest).events
  | [], flat, rest => ⟨rfl, rfl⟩
  | instr :: instrs, flat, rest => by
    obtain ⟨hnumber, hevents⟩ := visitInstr_eq instr flat
      (codeOfAll (flat.preorder + nodes instr) instrs rest)
    obtain ⟨hnumbers, hrest⟩ := walkBody_eq instrs (visitInstr instr flat) rest
    rw [hnumber] at hrest hnumbers
    refine ⟨?_, ?_⟩
    · rw [walkBody, nodesAll, hnumbers]
      omega
    · rw [walkBody, codeOfAll, hrest, hevents]

end

theorem events_walkBody (body : List (WirInstr Op Ty)) :
    (walkBody body ⟨[], 0⟩).events = (bodyCode body).events := by
  simpa [Code.events, bodyCode] using (walkBody_eq body ⟨[], 0⟩ .done).2

end Flattened

/-- The code stands at a position of the events, its ends matched with their starts. -/
def Placed (flow : Flow) : Nat → Code → Prop
  | _, .done => True
  | p, .read name rest => flow.events[p]? = some (.read name) ∧ Placed flow (p + 1) rest
  | p, .store write rest => flow.events[p]? = some (.store write) ∧ Placed flow (p + 1) rest
  | p, .br depth rest => flow.events[p]? = some (.br depth) ∧ Placed flow (p + 1) rest
  | p, .brIf depth rest => flow.events[p]? = some (.brIf depth) ∧ Placed flow (p + 1) rest
  | p, .brTable depths rest =>
    flow.events[p]? = some (.brTable depths) ∧ Placed flow (p + 1) rest
  | p, .exit rest => flow.events[p]? = some .exit ∧ Placed flow (p + 1) rest
  | p, .block body rest =>
    Placed flow (p + 1) body ∧ flow.events[p + 1 + body.size]? = some .blockEnd ∧
      flow.startOf (p + 1 + body.size) = p ∧ Placed flow (p + 1 + body.size + 1) rest
  | p, .loop body rest =>
    Placed flow (p + 1) body ∧ flow.events[p + 1 + body.size]? = some .loopEnd ∧
      flow.startOf (p + 1 + body.size) = p ∧ Placed flow (p + 1 + body.size + 1) rest
  | p, .ifThen thenBody rest =>
    Placed flow (p + 1) thenBody ∧ flow.events[p + 1 + thenBody.size]? = some .ifEnd ∧
      flow.startOf (p + 1 + thenBody.size) = p ∧ flow.elseOf p = none ∧
      Placed flow (p + 1 + thenBody.size + 1) rest
  | p, .ifElse thenBody elseBody rest =>
    Placed flow (p + 1) thenBody ∧ Placed flow (p + 1 + thenBody.size + 1) elseBody ∧
      flow.events[p + 1 + thenBody.size + 1 + elseBody.size]? = some .ifEnd ∧
      flow.startOf (p + 1 + thenBody.size + 1 + elseBody.size) = p ∧
      flow.elseOf p = some (p + 1 + thenBody.size) ∧
      Placed flow (p + 1 + thenBody.size + 1 + elseBody.size + 1) rest

attribute [grind =] Placed

theorem Placed.congr {flow flow' : Flow} (hevents : flow'.events = flow.events) {code : Code} :
    ∀ {p : Nat}, (∀ q, p ≤ q → q < p + code.size →
        flow'.startOf q = flow.startOf q ∧ flow'.elseOf q = flow.elseOf q) →
      Placed flow p code → Placed flow' p code := by
  induction code with
  | done => exact fun _ _ => trivial
  | read _ rest ih | store _ rest ih | br _ rest ih | brIf _ rest ih | brTable _ rest ih
  | exit rest ih =>
  intro p hsame ⟨hevent, hrest⟩
  simp at hsame
  exact ⟨by rw [hevents]; exact hevent, ih (fun q hle hlt => hsame q (by omega) (by omega)) hrest⟩
  | block body rest ihb ihr | loop body rest ihb ihr =>
    intro p hsame ⟨hbody, hevent, hstart, hrest⟩
    simp at hsame
    refine ⟨ihb (fun q hle hlt => hsame q (by omega) (by omega)) hbody,
      by rw [hevents]; exact hevent, ?_,
      ihr (fun q hle hlt => hsame q (by omega) (by omega)) hrest⟩
    rw [(hsame _ (by omega) (by omega)).1, hstart]
  | ifThen thenBody rest iht ihr =>
    intro p hsame ⟨hthen, hevent, hstart, helse, hrest⟩
    simp at hsame
    refine ⟨iht (fun q hle hlt => hsame q (by omega) (by omega)) hthen,
      by rw [hevents]; exact hevent, ?_, ?_,
      ihr (fun q hle hlt => hsame q (by omega) (by omega)) hrest⟩
    · rw [(hsame _ (by omega) (by omega)).1, hstart]
    · rw [(hsame _ (by omega) (by omega)).2, helse]
  | ifElse thenBody elseBody rest iht ihe ihr =>
    intro p hsame ⟨hthen, helseBody, hevent, hstart, helse, hrest⟩
    simp at hsame
    refine ⟨iht (fun q hle hlt => hsame q (by omega) (by omega)) hthen,
      ihe (fun q hle hlt => hsame q (by omega) (by omega)) helseBody,
      by rw [hevents]; exact hevent, ?_, ?_,
      ihr (fun q hle hlt => hsame q (by omega) (by omega)) hrest⟩
    · rw [(hsame _ (by omega) (by omega)).1, hstart]
    · rw [(hsame _ (by omega) (by omega)).2, helse]

/-- The scan of the code leaves the starts that were open, and what was matched before
and after. -/
structure Scanned (all : List Event) (before after : Matching) (p : Nat) (code : Code) : Prop where
  opened : after.opened = before.opened
  outside : ∀ q, q < p ∨ p + code.size ≤ q →
    after.startOf q = before.startOf q ∧ after.elseOf q = before.elseOf q
  placed : Placed ⟨all, after.startOf, after.elseOf⟩ p code

variable {all rest : List Event} {p : Nat}

theorem drop_cons {event : Event}
    (h : all.drop p = event :: rest) : all[p]? = some event ∧ all.drop (p + 1) = rest := by
  refine ⟨?_, ?_⟩
  · rw [← List.head?_drop, h, List.head?_cons]
  · rw [← tail_drop, h, tail_cons]

theorem drop_code {code : Code}
    (h : all.drop p = code.events ++ rest) : all.drop (p + code.size) = rest := by
  rw [← drop_drop, h, Code.size, drop_left]

/-- Scanning the code, wherever it stands in the events. -/
def Scans (all : List Event) (code : Code) : Prop :=
  ∀ {p : Nat} {tail : List Event} {matching : Matching}, all.drop p = code.events ++ tail →
    (∀ q, p ≤ q → q < p + code.size → matching.elseOf q = none) →
    ∃ after, Matching.scan (code.events ++ tail) p matching =
        Matching.scan tail (p + code.size) after ∧ Scanned all matching after p code

/-- An event opens a construct. -/
def Opens (event : Event) : Prop :=
  ∀ (matching : Matching) (p : Nat),
    matching.step p event = some { matching with opened := p :: matching.opened }

/-- An event closes the innermost open construct. -/
def Closes (event : Event) : Prop :=
  ∀ (matching : Matching) (p start : Nat) (opened : List Nat),
    matching.opened = start :: opened → matching.step p event =
      some ⟨Function.update matching.startOf p start, matching.elseOf, opened⟩

theorem closes_blockEnd : Closes .blockEnd := by
  intro matching p start opened h
  simp only [Matching.step, h]

theorem closes_loopEnd : Closes .loopEnd := by
  intro matching p start opened h
  simp only [Matching.step, h]

theorem closes_ifEnd : Closes .ifEnd := by
  intro matching p start opened h
  simp only [Matching.step, h]

variable {all : List Event}

/-- A body between the event that opens it and the one that closes it, and the rest. -/
theorem scan_bracketed {opening closing : Event} {body rest : Code}
    (hopens : Opens opening) (hcloses : Closes closing) (hbody : Scans all body)
    (hrest : Scans all rest) {tail : List Event} {matching : Matching}
    (hdrop : all.drop p = opening :: (body.events ++ closing :: (rest.events ++ tail)))
    (hnone : ∀ q, p ≤ q → q < p + (body.size + rest.size + 2) → matching.elseOf q = none) :
    ∃ after, Matching.scan (opening :: (body.events ++ closing :: (rest.events ++ tail))) p
          matching = Matching.scan tail (p + (body.size + rest.size + 2)) after ∧
      after.opened = matching.opened ∧
      (∀ q, q < p ∨ p + (body.size + rest.size + 2) ≤ q →
        after.startOf q = matching.startOf q ∧ after.elseOf q = matching.elseOf q) ∧
      Placed ⟨all, after.startOf, after.elseOf⟩ (p + 1) body ∧
      all[p + 1 + body.size]? = some closing ∧
      after.startOf (p + 1 + body.size) = p ∧ after.elseOf p = none ∧
      Placed ⟨all, after.startOf, after.elseOf⟩ (p + 1 + body.size + 1) rest := by
  obtain ⟨-, hafter⟩ := drop_cons hdrop
  obtain ⟨hclosing, hlast⟩ := drop_cons (drop_code hafter)
  obtain ⟨inner, hinner, hinside⟩ := @hbody (p + 1) (closing :: (rest.events ++ tail))
    ⟨matching.startOf, matching.elseOf, p :: matching.opened⟩ hafter
    (fun q hle hlt => hnone q (by omega) (by omega))
  have helse : ∀ q, p + 1 + body.size ≤ q → inner.elseOf q = matching.elseOf q :=
    fun q hq => (hinside.outside q (Or.inr hq)).2
  obtain ⟨after, hscan, houtside⟩ := @hrest (p + 1 + body.size + 1) tail
    ⟨Function.update inner.startOf (p + 1 + body.size) p, inner.elseOf, matching.opened⟩ hlast
    (fun q hle hlt => (helse q (by omega)).trans (hnone q (by omega) (by omega)))
  have hsame : ∀ q, q < p + 1 + body.size →
      after.startOf q = inner.startOf q ∧ after.elseOf q = inner.elseOf q := by
    intro q hq
    obtain ⟨hstart, helseOf⟩ := houtside.outside q (Or.inl (by omega))
    exact ⟨hstart.trans (update_of_ne (by omega) _ _), helseOf⟩
  refine ⟨after, ?_, houtside.opened, ?_, ?_, hclosing, ?_, ?_, houtside.placed⟩
  · rw [Matching.scan, hopens, bind_some, hinner, Matching.scan,
      hcloses _ _ _ _ hinside.opened, bind_some, hscan]
    congr 1
    omega
  · intro q hq
    by_cases hbefore : q < p
    · rw [(hsame q (by omega)).1, (hsame q (by omega)).2]
      exact hinside.outside q (Or.inl (by omega))
    · obtain ⟨hstart, helseOf⟩ := houtside.outside q (Or.inr (by omega))
      have hfar : q ≠ p + 1 + body.size := by omega
      exact ⟨(hstart.trans (update_of_ne hfar _ _)).trans
        (hinside.outside q (Or.inr (by omega))).1, helseOf.trans (helse q (by omega))⟩
  · exact @Placed.congr ⟨all, inner.startOf, inner.elseOf⟩
      ⟨all, after.startOf, after.elseOf⟩ rfl _ _ (fun q _ hlt => hsame q hlt) hinside.placed
  · exact (houtside.outside _ (Or.inl (by omega))).1.trans (update_self _ _ _)
  · rw [(hsame p (by omega)).2, (hinside.outside p (Or.inl (by omega))).2]
    exact hnone p (by omega) (by omega)

theorem scan_ifElse {thenBody elseBody rest : Code}
    (hthen : Scans all thenBody) (helse : Scans all elseBody) (hrest : Scans all rest) :
    Scans all (.ifElse thenBody elseBody rest) := by
  intro p tail matching hdrop hnone
  rw [Code.size_ifElse] at hnone ⊢
  simp only [Code.events, cons_append, append_assoc] at hdrop ⊢
  obtain ⟨-, hafter⟩ := drop_cons hdrop
  obtain ⟨-, hsplit⟩ := drop_cons (drop_code hafter)
  obtain ⟨hclosing, hlast⟩ := drop_cons (drop_code hsplit)
  have hsize : ∃ split close, split = p + 1 + thenBody.size ∧
      close = split + 1 + elseBody.size := ⟨_, _, rfl, rfl⟩
  obtain ⟨split, close, hsplitAt, hcloseAt⟩ := hsize
  rw [← hsplitAt, ← hcloseAt] at hclosing hlast
  rw [← hsplitAt] at hsplit
  obtain ⟨first, hfirst, hfirstIn⟩ := @hthen (p + 1) _
    ⟨matching.startOf, matching.elseOf, p :: matching.opened⟩ hafter
    (fun q hle hlt => hnone q (by omega) (by omega))
  rw [← hsplitAt] at hfirst
  have hthenElse : ∀ q, split ≤ q → first.elseOf q = matching.elseOf q :=
    fun q hq => (hfirstIn.outside q (Or.inr (by omega))).2
  obtain ⟨second, hsecond, hsecondIn⟩ := @helse (split + 1) _
    ⟨first.startOf, Function.update first.elseOf p (some split), p :: matching.opened⟩ hsplit
    (fun q hle hlt => (update_of_ne (by omega) _ _).trans
      ((hthenElse q (by omega)).trans (hnone q (by omega) (by omega))))
  rw [← hcloseAt] at hsecond
  have hlateElse : ∀ q, close ≤ q → second.elseOf q = matching.elseOf q := fun q hq =>
    (hsecondIn.outside q (Or.inr (by omega))).2.trans
      ((update_of_ne (by omega) _ _).trans (hthenElse q (by omega)))
  obtain ⟨after, hscan, hafterIn⟩ := @hrest (close + 1) tail
    ⟨Function.update second.startOf close p, second.elseOf, matching.opened⟩ hlast
    (fun q hle hlt => (hlateElse q (by omega)).trans (hnone q (by omega) (by omega)))
  have hsecondSame : ∀ q, q < close →
      after.startOf q = second.startOf q ∧ after.elseOf q = second.elseOf q := by
    intro q hq
    obtain ⟨hstart, helseOf⟩ := hafterIn.outside q (Or.inl (by omega))
    exact ⟨hstart.trans (update_of_ne (by omega) _ _), helseOf⟩
  have hfirstSame : ∀ q, q ≠ p → q < split →
      after.startOf q = first.startOf q ∧ after.elseOf q = first.elseOf q := by
    intro q hne hq
    obtain ⟨hstart, helseOf⟩ := hsecondSame q (by omega)
    obtain ⟨hstart', helseOf'⟩ := hsecondIn.outside q (Or.inl (by omega))
    exact ⟨hstart.trans hstart', helseOf.trans (helseOf'.trans (update_of_ne hne _ _))⟩
  refine ⟨after, ?_, hafterIn.opened, ?_, ?_⟩
  · rw [Matching.scan, Matching.step, bind_some, hfirst, Matching.scan, Matching.step,
      hfirstIn.opened, bind_some, hsecond, Matching.scan,
      closes_ifEnd _ _ _ _ hsecondIn.opened, bind_some, hscan]
    congr 1
    omega
  · intro q hq
    rw [Code.size_ifElse] at hq
    by_cases hbefore : q < p
    · obtain ⟨hstart, helseOf⟩ := hfirstSame q (by omega) (by omega)
      obtain ⟨hstart', helseOf'⟩ := hfirstIn.outside q (Or.inl (by omega))
      exact ⟨hstart.trans hstart', helseOf.trans helseOf'⟩
    · obtain ⟨hstart, helseOf⟩ := hafterIn.outside q (Or.inr (by omega))
      obtain ⟨hstart', -⟩ := hsecondIn.outside q (Or.inr (by omega))
      obtain ⟨hstart'', -⟩ := hfirstIn.outside q (Or.inr (by omega))
      refine ⟨?_, helseOf.trans (hlateElse q (by omega))⟩
      exact hstart.trans ((update_of_ne (by omega) _ _).trans (hstart'.trans hstart''))
  · rw [Placed, ← hsplitAt, ← hcloseAt]
    refine ⟨?_, ?_, hclosing, ?_, ?_, hafterIn.placed⟩
    · exact @Placed.congr ⟨all, first.startOf, first.elseOf⟩
        ⟨all, after.startOf, after.elseOf⟩ rfl _ _
        (fun q hle hlt => hfirstSame q (by omega) (by omega)) hfirstIn.placed
    · exact @Placed.congr ⟨all, second.startOf, second.elseOf⟩
        ⟨all, after.startOf, after.elseOf⟩ rfl _ _
        (fun q hle hlt => hsecondSame q (by omega)) hsecondIn.placed
    · exact (hafterIn.outside close (Or.inl (by omega))).1.trans (update_self _ _ _)
    · exact (hsecondSame p (by omega)).2.trans ((hsecondIn.outside p (Or.inl (by omega))).2.trans
        (update_self _ _ _))

theorem scan_code (all : List Event) (code : Code) : Scans all code := by
  induction code with
  | done =>
    intro p tail matching _ _
    exact ⟨matching, rfl, rfl, fun _ _ => ⟨rfl, rfl⟩, trivial⟩
  | read _ rest ih | store _ rest ih | br _ rest ih | brIf _ rest ih | brTable _ rest ih
  | exit rest ih =>
  intro p tail matching hdrop hnone
  simp at hnone
  obtain ⟨hevent, hrest⟩ := drop_cons hdrop
  obtain ⟨after, hscan, hafter⟩ := @ih (p + 1) tail matching hrest
    (fun q hle hlt => hnone q (by omega) (by omega))
  refine ⟨after, ?_, hafter.opened, fun q hq => hafter.outside q ?_, hevent, hafter.placed⟩
  · simp only [Code.events, cons_append, Matching.scan, Matching.step, bind_some, hscan]
    simp
    congr 1
    omega
  · simp at hq
    omega
  | block body rest ihb ihr =>
    intro p tail matching hdrop hnone
    rw [Code.size_block] at hnone ⊢
    simp only [Code.events, cons_append, append_assoc] at hdrop ⊢
    obtain ⟨after, hscan, hopened, houtside, hbody, hclosing, hstart, -, hlast⟩ :=
      scan_bracketed (fun _ _ => rfl) closes_blockEnd ihb ihr hdrop hnone
    exact ⟨after, hscan, hopened, by rwa [Code.size_block], hbody, hclosing, hstart, hlast⟩
  | loop body rest ihb ihr =>
    intro p tail matching hdrop hnone
    rw [Code.size_loop] at hnone ⊢
    simp only [Code.events, cons_append, append_assoc] at hdrop ⊢
    obtain ⟨after, hscan, hopened, houtside, hbody, hclosing, hstart, -, hlast⟩ :=
      scan_bracketed (fun _ _ => rfl) closes_loopEnd ihb ihr hdrop hnone
    exact ⟨after, hscan, hopened, by rwa [Code.size_loop], hbody, hclosing, hstart, hlast⟩
  | ifThen thenBody rest iht ihr =>
    intro p tail matching hdrop hnone
    rw [Code.size_ifThen] at hnone ⊢
    simp only [Code.events, cons_append, append_assoc] at hdrop ⊢
    obtain ⟨after, hscan, hopened, houtside, hbody, hclosing, hstart, helse, hlast⟩ :=
      scan_bracketed (fun _ _ => rfl) closes_ifEnd iht ihr hdrop hnone
    exact ⟨after, hscan, hopened, by rwa [Code.size_ifThen], hbody, hclosing, hstart, helse, hlast⟩
  | ifElse thenBody elseBody rest iht ihe ihr => exact scan_ifElse iht ihe ihr
/-- A body is always flattened, into its code. -/
theorem Flow.of_eq {Op Ty : Type} (body : List (WirInstr Op Ty)) :
    ∃ flow, Flow.of body = some flow ∧ flow.events = (bodyCode body).events ∧
      Placed flow 0 (bodyCode body) := by
  obtain ⟨after, hscan, hafter⟩ := @scan_code (bodyCode body).events (bodyCode body) 0 []
    ⟨fun _ => 0, fun _ => none, []⟩ (by rw [drop_zero, append_nil]) (fun _ _ _ => rfl)
  rw [append_nil, Matching.scan] at hscan
  refine ⟨⟨(bodyCode body).events, after.startOf, after.elseOf⟩, ?_, rfl, hafter.placed⟩
  rw [Flow.of, events_walkBody, hscan, map_some]

end Wado.Wir.Liveness
