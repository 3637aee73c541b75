/-
Values of the matched types, what an arm pattern takes, and when a row of the matrix
is reached: it may take the value, and no row ahead of it is sure to.
-/
import Wado.Exhaustive.Mark

namespace Wado.Exhaustive

open List

inductive Value where
  | case (index : Nat) (payload : Option Value)
  | bool (value : Bool)
  /-- An integer, a `char` or a float, by the key coverage orders it by. -/
  | int (key : Int)
  | product (elements : List Value)
  /-- A string, a resource, a value of a type parameter. -/
  | other (id : Nat)

/-- What a type is to a pattern: `τ` names the types, so that they may be recursive. -/
inductive Shape (τ : Type) where
  | cases (payloads : List (Option τ))
  | bool
  | int (domain : Option IntDomain)
  | product (elements : List τ)
  | other

def IntDomain.Holds (d : IntDomain) (key : Int) : Prop :=
  d.min ≤ key ∧ key ≤ d.max ∧ d.inHole key = false

variable {τ : Type} (shape : τ → Shape τ)

section Typing

mutual

inductive HasType : Value → τ → Prop where
  | case {t : τ} {payloads : List (Option τ)} {index : Nat} (hshape : shape t = .cases payloads)
      (hindex : payloads[index]? = some none) : HasType (.case index none) t
  | payload {t u : τ} {payloads : List (Option τ)} {index : Nat} {v : Value}
      (hshape : shape t = .cases payloads) (hindex : payloads[index]? = some (some u))
      (hpayload : HasType v u) : HasType (.case index (some v)) t
  | bool {t : τ} (value : Bool) (hshape : shape t = .bool) : HasType (.bool value) t
  | int {t : τ} {domain : Option IntDomain} {key : Int} (hshape : shape t = .int domain)
      (hholds : ∀ d ∈ domain, d.Holds key) : HasType (.int key) t
  | product {t : τ} {elements : List Value} {types : List τ} (hshape : shape t = .product types)
      (helements : HasTypes elements types) : HasType (.product elements) t
  | other {t : τ} (id : Nat) (hshape : shape t = .other) : HasType (.other id) t

inductive HasTypes : List Value → List τ → Prop where
  | nil : HasTypes [] []
  | cons {v : Value} {t : τ} {vs : List Value} {ts : List τ} (head : HasType v t)
      (tail : HasTypes vs ts) : HasTypes (v :: vs) (t :: ts)

end

/-- Some value has the type. -/
def Inhabited (t : τ) : Prop := ∃ v, HasType shape v t

/-- The case list a pattern carries is its type's: which cases have a payload, and
which a value. -/
def Describes (cases : List Case) (payloads : List (Option τ)) : Prop :=
  cases.length = payloads.length ∧
    ∀ (index : Nat) (c : Case) (payload : Option τ), cases[index]? = some c →
      payloads[index]? = some payload → c.hasPayload = payload.isSome ∧
          (c.inhabited = true ↔ ∀ u ∈ payload, Inhabited shape u)

mutual

/-- The pattern is one the elaborator classifies at the type. -/
inductive Fits : Pat → τ → Prop where
  | wild (t : τ) : Fits .wild t
  | case {t : τ} {payloads : List (Option τ)} {payload : Option τ} {cases : List Case}
      {index : Nat} (hshape : shape t = .cases payloads) (hcases : Describes shape cases payloads)
      (hindex : payloads[index]? = some payload) : Fits (.case cases index none) t
  | payload {t u : τ} {payloads : List (Option τ)} {cases : List Case} {index : Nat} {p : Pat}
      (hshape : shape t = .cases payloads) (hcases : Describes shape cases payloads)
      (hindex : payloads[index]? = some (some u)) (hpayload : Fits p u) :
      Fits (.case cases index (some p)) t
  | bool {t : τ} (value : Bool) (hshape : shape t = .bool) : Fits (.bool value) t
  | int {t : τ} {domain : Option IntDomain} {lo hi : Int} (hshape : shape t = .int domain)
      (hrange : lo ≤ hi) (hwithin : ∀ d ∈ domain, d.min ≤ lo ∧ hi ≤ d.max) :
      Fits (.int lo hi domain) t
  | product {t : τ} {elements : List Pat} {types : List τ} (hshape : shape t = .product types)
      (helements : FitsAll elements types) : Fits (.product elements) t
  | narrow {t : τ} (target : Nat) (hshape : shape t = .other) : Fits (.narrow target) t
  | opaqueValue (t : τ) : Fits .opaqueValue t
  | or {t : τ} {alternatives : List Pat} (halternatives : FitsEach alternatives t) :
      Fits (.or alternatives) t

inductive FitsAll : List Pat → List τ → Prop where
  | nil : FitsAll [] []
  | cons {p : Pat} {t : τ} {ps : List Pat} {ts : List τ} (head : Fits p t)
      (tail : FitsAll ps ts) : FitsAll (p :: ps) (t :: ts)

inductive FitsEach : List Pat → τ → Prop where
  | nil (t : τ) : FitsEach [] t
  | cons {p : Pat} {t : τ} {ps : List Pat} (head : Fits p t) (tail : FitsEach ps t) :
      FitsEach (p :: ps) t

end

/-- What a value of a type of each shape is. -/
def Formed (v : Value) : Shape τ → Prop
  | .cases payloads => ∃ index payload value, v = .case index value ∧
      payloads[index]? = some payload ∧ HasTypes shape value.toList payload.toList
  | .bool => ∃ value, v = .bool value
  | .int domain => ∃ key, v = .int key ∧ ∀ d ∈ domain, d.Holds key
  | .product types => ∃ elements, v = .product elements ∧ HasTypes shape elements types
  | .other => ∃ id, v = .other id

/-- What a pattern naming a value of a type of each shape is. -/
def Names (p : Pat) : Shape τ → Prop
  | .cases payloads => ∃ cases index q, p = .case cases index q ∧
      Describes shape cases payloads ∧ ∃ payload, payloads[index]? = some payload ∧
        ∀ r ∈ q, ∃ u, payload = some u ∧ Fits shape r u
  | .bool => ∃ value, p = .bool value
  | .int domain => ∃ lo hi, p = .int lo hi domain ∧ lo ≤ hi ∧ ∀ d ∈ domain, d.min ≤ lo ∧ hi ≤ d.max
  | .product types => ∃ elements, p = .product elements ∧ FitsAll shape elements types
  | .other => ∃ target, p = .narrow target

variable {shape}

theorem HasType.form {v : Value} {t : τ} (h : HasType shape v t) : Formed shape v (shape t) := by
  cases h with
  | case hshape hindex =>
    rw [hshape]
    exact ⟨_, none, none, rfl, hindex, .nil⟩
  | payload hshape hindex hpayload =>
    rw [hshape]
    exact ⟨_, some _, some _, rfl, hindex, .cons hpayload .nil⟩
  | bool value hshape =>
    rw [hshape]
    exact ⟨value, rfl⟩
  | int hshape hholds =>
    rw [hshape]
    exact ⟨_, rfl, hholds⟩
  | product hshape helements =>
    rw [hshape]
    exact ⟨_, rfl, helements⟩
  | other id hshape =>
    rw [hshape]
    exact ⟨id, rfl⟩

/-- A pattern that is no wildcard names a value of its type, unless the run has to tell
or it is still an alternative of several. -/
theorem Fits.names {p : Pat} {t : τ} (h : Fits shape p t) (hOpq : p.isOpaque = false)
    (hor : p.isOr = false) : p.isWild = true ∨ Names shape p (shape t) := by
  cases h with
  | wild _ => exact .inl rfl
  | case hshape hcases hindex =>
    rw [hshape]
    exact .inr ⟨_, _, none, rfl, hcases, _, hindex, fun _ hr => nomatch hr⟩
  | payload hshape hcases hindex hpayload =>
    rw [hshape]
    refine .inr ⟨_, _, some _, rfl, hcases, _, hindex, fun r hr => ⟨_, rfl, ?_⟩⟩
    obtain rfl := Option.some.inj hr
    exact hpayload
  | bool value hshape =>
    rw [hshape]
    exact .inr ⟨value, rfl⟩
  | int hshape hrange hwithin =>
    rw [hshape]
    exact .inr ⟨_, _, rfl, hrange, hwithin⟩
  | product hshape helements =>
    rw [hshape]
    exact .inr ⟨_, rfl, helements⟩
  | narrow target hshape =>
    rw [hshape]
    exact .inr ⟨target, rfl⟩
  | opaqueValue _ => cases hOpq
  | or _ => cases hor

theorem HasTypes.append {vs ws : List Value} {ts us : List τ} (h : HasTypes shape vs ts)
    (h' : HasTypes shape ws us) : HasTypes shape (vs ++ ws) (ts ++ us) := by
  induction ts generalizing vs with
  | nil =>
    cases h
    exact h'
  | cons t ts ih =>
    cases h with
    | cons head tail => exact .cons head (ih tail)

theorem HasTypes.split {ts us : List τ} {vs : List Value} (h : HasTypes shape vs (ts ++ us)) :
    ∃ args rest, vs = args ++ rest ∧ HasTypes shape args ts ∧ HasTypes shape rest us := by
  induction ts generalizing vs with
  | nil => exact ⟨[], vs, rfl, .nil, h⟩
  | cons t ts ih =>
    cases h with
    | cons head tail =>
      obtain ⟨args, rest, rfl, hargs, hrest⟩ := ih tail
      exact ⟨_ :: args, rest, rfl, .cons head hargs, hrest⟩

theorem HasTypes.length {vs : List Value} {ts : List τ} (h : HasTypes shape vs ts) :
    vs.length = ts.length := by
  induction ts generalizing vs with
  | nil => cases h; rfl
  | cons t ts ih =>
    cases h with
    | cons _ tail => rw [length_cons, length_cons, ih tail]

theorem FitsAll.length {ps : List Pat} {ts : List τ} (h : FitsAll shape ps ts) :
    ps.length = ts.length := by
  induction ts generalizing ps with
  | nil => cases h; rfl
  | cons t ts ih =>
    cases h with
    | cons _ tail => rw [length_cons, length_cons, ih tail]

theorem FitsAll.append {ps qs : List Pat} {ts us : List τ} (h : FitsAll shape ps ts)
    (h' : FitsAll shape qs us) : FitsAll shape (ps ++ qs) (ts ++ us) := by
  induction ts generalizing ps with
  | nil =>
    cases h
    exact h'
  | cons t ts ih =>
    cases h with
    | cons head tail => exact .cons head (ih tail)

theorem FitsAll.wilds (ts : List τ) : FitsAll shape (wilds ts.length) ts := by
  induction ts with
  | nil => exact .nil
  | cons t ts ih => exact .cons (.wild t) ih

end Typing

section Taking

mutual

/-- Whether a pattern takes a value, where `atom` answers for what only the run can
tell: a string, a constant, a type the host decides.  With `true` the pattern may take
the value; with `false` it is sure to. -/
def takes (atom : Bool) : Pat → Value → Bool
  | .wild, _ => true
  | .case _ index payload, .case i v => decide (i = index) && takesPayload atom payload v
  | .bool value, .bool b => value == b
  | .int lo hi _, .int key => decide (lo ≤ key) && decide (key ≤ hi)
  | .product elements, .product vs => takesAll atom elements vs
  | .narrow _, _ => atom
  | .opaqueValue, _ => atom
  | .or alternatives, v => takesAny atom alternatives v
  | _, _ => false

def takesPayload (atom : Bool) : Option Pat → Option Value → Bool
  | some p, some v => takes atom p v
  | _, _ => true

def takesAll (atom : Bool) : List Pat → List Value → Bool
  | [], [] => true
  | p :: ps, v :: vs => takes atom p v && takesAll atom ps vs
  | _, _ => false

def takesAny (atom : Bool) : List Pat → Value → Bool
  | [], _ => false
  | p :: ps, v => takes atom p v || takesAny atom ps v

end

mutual

/-- No part of the pattern is one only the run can tell, or draws from an open set. -/
def Pat.closed : Pat → Bool
  | .wild => true
  | .case _ _ payload => closedPayload payload
  | .bool _ => true
  | .int _ _ domain => domain.isSome
  | .product elements => closedAll elements
  | .narrow _ => false
  | .opaqueValue => false
  | .or alternatives => closedAll alternatives

def closedPayload : Option Pat → Bool
  | none => true
  | some p => p.closed

def closedAll : List Pat → Bool
  | [] => true
  | p :: ps => p.closed && closedAll ps

end

mutual

/-- What a pattern is sure to take, it may take. -/
theorem takes_may : ∀ (p : Pat) (v : Value), takes false p v = true → takes true p v = true
  | .wild, _, _ => by simp only [takes]
  | .case _ index payload, .case i v, h => by
    simp only [takes, Bool.and_eq_true] at h ⊢
    exact ⟨h.1, takesPayload_may payload v h.2⟩
  | .bool value, .bool b, h => by simpa only [takes] using h
  | .int lo hi _, .int key, h => by simpa only [takes] using h
  | .product elements, .product vs, h => by
    simp only [takes] at h ⊢
    exact takesAll_may elements vs h
  | .narrow _, _, _ => by simp only [takes]
  | .opaqueValue, _, _ => by simp only [takes]
  | .or alternatives, v, h => by
    simp only [takes] at h ⊢
    exact takesAny_may alternatives v h

theorem takesPayload_may : ∀ (p : Option Pat) (v : Option Value),
    takesPayload false p v = true → takesPayload true p v = true
  | some p, some v, h => by
    simp only [takesPayload] at h ⊢
    exact takes_may p v h
  | none, _, _ => by simp only [takesPayload]
  | some _, none, _ => by simp only [takesPayload]

theorem takesAll_may : ∀ (ps : List Pat) (vs : List Value),
    takesAll false ps vs = true → takesAll true ps vs = true
  | [], [], _ => rfl
  | p :: ps, v :: vs, h => by
    simp only [takesAll, Bool.and_eq_true] at h ⊢
    exact ⟨takes_may p v h.1, takesAll_may ps vs h.2⟩

theorem takesAny_may : ∀ (ps : List Pat) (v : Value),
    takesAny false ps v = true → takesAny true ps v = true
  | p :: ps, v, h => by
    simp only [takesAny, Bool.or_eq_true] at h ⊢
    exact h.imp (takes_may p v) (takesAny_may ps v)

end

mutual

/-- A closed pattern leaves nothing to the run. -/
theorem takes_closed (a b : Bool) :
    ∀ (p : Pat) (v : Value), p.closed = true → takes a p v = takes b p v
  | .wild, _, _ => by simp only [takes]
  | .case _ index payload, .case i v, h => by
    rw [Pat.closed] at h
    simp only [takes, takesPayload_closed a b payload v h]
  | .case _ _ _, .bool _, _ => by simp only [takes]
  | .case _ _ _, .int _, _ => by simp only [takes]
  | .case _ _ _, .product _, _ => by simp only [takes]
  | .case _ _ _, .other _, _ => by simp only [takes]
  | .bool _, v, _ => by cases v <;> simp only [takes]
  | .int _ _ _, v, _ => by cases v <;> simp only [takes]
  | .product elements, .product vs, h => by
    rw [Pat.closed] at h
    simp only [takes, takesAll_closed a b elements vs h]
  | .product _, .bool _, _ => by simp only [takes]
  | .product _, .int _, _ => by simp only [takes]
  | .product _, .case _ _, _ => by simp only [takes]
  | .product _, .other _, _ => by simp only [takes]
  | .or alternatives, v, h => by
    rw [Pat.closed] at h
    simp only [takes, takesAny_closed a b alternatives v h]

theorem takesPayload_closed (a b : Bool) : ∀ (p : Option Pat) (v : Option Value),
    closedPayload p = true → takesPayload a p v = takesPayload b p v
  | some p, some v, h => by
    rw [closedPayload] at h
    simp only [takesPayload, takes_closed a b p v h]
  | none, _, _ => by simp only [takesPayload]
  | some _, none, _ => by simp only [takesPayload]

theorem takesAll_closed (a b : Bool) : ∀ (ps : List Pat) (vs : List Value),
    closedAll ps = true → takesAll a ps vs = takesAll b ps vs
  | [], [], _ => rfl
  | [], _ :: _, _ => rfl
  | _ :: _, [], _ => rfl
  | p :: ps, v :: vs, h => by
    rw [closedAll, Bool.and_eq_true] at h
    simp only [takesAll, takes_closed a b p v h.1, takesAll_closed a b ps vs h.2]

theorem takesAny_closed (a b : Bool) : ∀ (ps : List Pat) (v : Value),
    closedAll ps = true → takesAny a ps v = takesAny b ps v
  | [], _, _ => by simp only [takesAny]
  | p :: ps, v, h => by
    rw [closedAll, Bool.and_eq_true] at h
    simp only [takesAny, takes_closed a b p v h.1, takesAny_closed a b ps v h.2]

end

theorem takesAll_append {atom : Bool} {ps qs : List Pat} {vs ws : List Value}
    (h : ps.length = vs.length) :
    takesAll atom (ps ++ qs) (vs ++ ws) = (takesAll atom ps vs && takesAll atom qs ws) := by
  induction ps generalizing vs with
  | nil =>
    obtain rfl := length_eq_zero_iff.mp h.symm
    rw [nil_append, nil_append, takesAll, Bool.true_and]
  | cons p ps ih =>
    cases vs with
    | nil => cases h
    | cons v vs =>
      rw [cons_append, cons_append, takesAll, takesAll,
        ih (Nat.succ.inj h), Bool.and_assoc]

theorem takesAll_wilds {atom : Bool} {n : Nat} {vs : List Value} (h : vs.length = n) :
    takesAll atom (wilds n) vs = true := by
  induction n generalizing vs with
  | zero =>
    obtain rfl := length_eq_zero_iff.mp h
    rfl
  | succ n ih =>
    cases vs with
    | nil => cases h
    | cons v vs =>
      rw [wilds, replicate_succ, takesAll, ← wilds, ih (Nat.succ.inj h), takes, Bool.and_self]

theorem closedAll_append (ps qs : List Pat) :
    closedAll (ps ++ qs) = (closedAll ps && closedAll qs) := by
  induction ps with
  | nil => rfl
  | cons p ps ih => rw [cons_append, closedAll, closedAll, ih, Bool.and_assoc]

theorem closedAll_wilds (n : Nat) : closedAll (wilds n) = true := by
  induction n with
  | zero => rfl
  | succ n ih => rw [wilds, replicate_succ, closedAll, ← wilds, ih, Pat.closed, Bool.and_self]

end Taking

end Wado.Exhaustive
