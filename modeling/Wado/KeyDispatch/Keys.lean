/-
The keys a match on an integer, a `char` or an enum dispatches by: each arm's pattern
as spans of `i64` keys, and the spans of the arms up to the wildcard.
-/
import Mathlib.Algebra.Order.Ring.Nat
import Mathlib.Algebra.Ring.Int.Defs
import Mathlib.Data.Int.Order.Basic
import Mathlib.Order.MinMax
import Mathlib.Tactic.Common

namespace Wado.KeyDispatch

open List Option

inductive LiteralPattern where
  | i128 (value : Int)
  | u128 (value : Nat)
  | bool (value : Bool)
  | char (code : Nat)
  | string (value : String)
  | null
  deriving Repr, DecidableEq

inductive PatKind where
  | wildcard
  | binding (localIndex : Nat)
  | literal (pattern : LiteralPattern)
  | enum (caseIndex : Nat)
  | or (alternatives : List PatKind)
  /-- A constant compared at run time. -/
  | constantValue (expr : Nat)
  | range (start stop : Int) (inclusive : Bool)
  /-- A tuple, a variant or a struct, taken apart. -/
  | destructuring

structure ArmData (β : Type) where
  pattern : PatKind
  guard : Option Nat
  body : β

/-- The types a key dispatch may take, and all the others. -/
inductive ScrutineeType where
  | i8
  | u8
  | i16
  | u16
  | i32
  | u32
  | char
  /-- An enum, by the index of its last case. -/
  | enum (last : BitVec 32)
  | i64
  | u64
  | other
  deriving Repr, DecidableEq

/-- The width in bits of a scrutinee a key dispatch may take. -/
def scrutineeBits : ScrutineeType → Option Nat
  | .i8 | .u8 => some 8
  | .i16 | .u16 => some 16
  | .i32 | .u32 | .char | .enum _ => some 32
  | .i64 | .u64 => some 64
  | .other => none

section Range

def i64Min : Int := -2 ^ 63

def i64Max : Int := 2 ^ 63 - 1

/-- `i64::try_from`. -/
def toI64 (value : Int) : Option Int :=
  if i64Min ≤ value ∧ value ≤ i64Max then some value else none

@[simp] theorem toI64_eq_some {value key : Int} :
    toI64 value = some key ↔ (i64Min ≤ value ∧ value ≤ i64Max) ∧ value = key := by
  rw [toI64]
  split
  · simp only [Option.some.injEq, *, and_self, true_and]
  · simp only [reduceCtorEq, *, false_and]

/-- The least and the greatest value of a type. -/
def ScrutineeType.bounds : ScrutineeType → Int × Int
  | .i8 => (-2 ^ 7, 2 ^ 7 - 1)
  | .u8 => (0, 2 ^ 8 - 1)
  | .i16 => (-2 ^ 15, 2 ^ 15 - 1)
  | .u16 => (0, 2 ^ 16 - 1)
  | .i32 => (-2 ^ 31, 2 ^ 31 - 1)
  | .u32 => (0, 2 ^ 32 - 1)
  | .char => (0, 0x10FFFF)
  | .enum last => (0, last.toNat)
  | .i64 => (-2 ^ 63, 2 ^ 63 - 1)
  | .u64 => (0, 2 ^ 64 - 1)
  | .other => (0, 0)

attribute [grind =] ScrutineeType.bounds

/-- A value of the type, as the integer it stands for: a `char` by its code, an enum by
its case. -/
def ScrutineeType.Holds (t : ScrutineeType) (value : Int) : Prop :=
  t.bounds.1 ≤ value ∧ value ≤ t.bounds.2

end Range

section Keys

/-- The values one arm's pattern names, as `i64` keys. -/
inductive CaseKey where
  /-- Each inclusive at both ends, `lo ≤ hi`.  A literal is the one-value span. -/
  | spans (spans : List (Int × Int))
  | wildcard
  deriving DecidableEq

def CaseKey.one (value : Int) : CaseKey := .spans [(value, value)]

mutual

/-- A pattern as a `CaseKey`, or `none` for one no key dispatch takes: a binding, a
bound past `i64`, or any destructuring pattern. -/
def caseKey : PatKind → Option CaseKey
  | .literal (.i128 value) => (toI64 value).map .one
  | .literal (.u128 value) => (toI64 value).map .one
  | .literal (.char code) => some (.one code)
  | .enum caseIndex => some (.one caseIndex)
  | .range start stop inclusive =>
    (toI64 start).bind fun lo => (toI64 stop).map fun hi =>
      .spans [(lo, if inclusive then hi else hi - 1)]
  | .wildcard => some .wildcard
  | .or alternatives => alternativesKey alternatives
  | .literal (.bool _) | .literal (.string _) | .literal .null => none
  | .binding _ => none
  | .constantValue _ => none
  | .destructuring => none

/-- An or-pattern names the union of its alternatives. -/
def alternativesKey : List PatKind → Option CaseKey
  | [] => some (.spans [])
  | alternative :: alternatives =>
    match caseKey alternative with
    | none => none
    | some .wildcard => some .wildcard
    | some (.spans spans) =>
      match alternativesKey alternatives with
      | none => none
      | some .wildcard => some .wildcard
      | some (.spans rest) => some (.spans (spans ++ rest))

end

/-- One arm's values as `(arm index, lo, hi)`, inclusive at both ends. -/
structure ArmSpan where
  arm : Nat
  lo : Int
  hi : Int
  deriving Repr, DecidableEq

/-- The spans of the arms from the `i`-th up to the wildcard, and the wildcard's index. -/
def armSpansFrom {β : Type} : Nat → List (ArmData β) → Option (List ArmSpan × Option Nat)
  | _, [] => some ([], none)
  | i, arm :: arms =>
    if arm.guard.isSome then none
    else
      match caseKey arm.pattern with
      | none => none
      | some .wildcard => some ([], some i)
      | some (.spans spans) =>
        (armSpansFrom (i + 1) arms).map fun rest =>
          (spans.map (fun span => ⟨i, span.1, span.2⟩) ++ rest.1, rest.2)

/-- The arms' spans up to the wildcard, and the wildcard's own index.  A match is
first-match-wins, so the arms past a wildcard are dead and none is walked. -/
def armSpans {β : Type} (arms : List (ArmData β)) : Option (List ArmSpan × Option Nat) :=
  armSpansFrom 0 arms

end Keys

section Meaning

/-- What only the run can tell of a match: its constants, and how its guards answer. -/
structure Run where
  constant : Nat → Int
  guard : Nat → Bool

mutual

/-- Whether a pattern takes a value. -/
def takes (run : Run) : PatKind → Int → Bool
  | .wildcard, _ => true
  | .binding _, _ => true
  | .literal (.i128 literal), value => decide (literal = value)
  | .literal (.u128 literal), value => decide ((literal : Int) = value)
  | .literal (.char code), value => decide ((code : Int) = value)
  | .enum caseIndex, value => decide ((caseIndex : Int) = value)
  | .range start stop inclusive, value =>
    decide (start ≤ value) && if inclusive then decide (value ≤ stop) else decide (value < stop)
  | .constantValue expr, value => decide (run.constant expr = value)
  | .or alternatives, value => takesAny run alternatives value
  | .literal (.bool _), _ | .literal (.string _), _ | .literal .null, _ => false
  | .destructuring, _ => false

def takesAny (run : Run) : List PatKind → Int → Bool
  | [], _ => false
  | alternative :: alternatives, value =>
    takes run alternative value || takesAny run alternatives value

end

variable {β : Type}

/-- The first arm from the `i`-th whose pattern takes the value and whose guard lets it. -/
def firstArmFrom (run : Run) (value : Int) : Nat → List (ArmData β) → Option Nat
  | _, [] => none
  | i, arm :: arms =>
    if takes run arm.pattern value && arm.guard.all run.guard then some i
    else firstArmFrom run value (i + 1) arms

/-- The arm a match selects: the first that takes the value. -/
def firstArm (run : Run) (value : Int) (arms : List (ArmData β)) : Option Nat :=
  firstArmFrom run value 0 arms

end Meaning

variable {arms : List (ArmData β)} {spans : List ArmSpan} {wildcard : Option Nat}

section Spans

variable {β : Type} (run : Run) (value : Int)

def ArmSpan.covers (span : ArmSpan) (value : Int) : Bool :=
  decide (span.lo ≤ value) && decide (value ≤ span.hi)

/-- The arm of the first span that covers the value. -/
def firstSpan (spans : List ArmSpan) (value : Int) : Option Nat :=
  (spans.find? (·.covers value)).map (·.arm)

theorem firstSpan_cons (span : ArmSpan) (spans : List ArmSpan) : firstSpan (span :: spans) value =
      if span.covers value then some span.arm else firstSpan spans value := by
  rw [firstSpan, List.find?_cons]
  cases span.covers value <;> rfl

theorem firstSpan_append (spans spans' : List ArmSpan) : firstSpan (spans ++ spans') value =
      (firstSpan spans value).or (firstSpan spans' value) := by
  induction spans with
  | nil => rfl
  | cons span spans ih =>
    rw [cons_append, firstSpan_cons, firstSpan_cons, ih]
    split <;> rfl

/-- A key takes what its pattern takes. -/
def CaseKey.takes (value : Int) : CaseKey → Bool
  | .wildcard => true
  | .spans own => own.any fun span => decide (span.1 ≤ value) && decide (value ≤ span.2)

theorem CaseKey.takes_one (key : Int) : (CaseKey.one key).takes value = decide (key = value) := by
  rw [CaseKey.one, CaseKey.takes, any_cons, any_nil, Bool.or_false, ← Bool.decide_and]
  exact decide_eq_decide.mpr (by omega)

mutual

theorem caseKey_takes : ∀ {pattern : PatKind} {key : CaseKey}, caseKey pattern = some key →
    key.takes value = takes run pattern value
  | .literal (.i128 literal), key, h => by
    obtain ⟨lo, hlo, rfl⟩ := map_eq_some_iff.mp h
    obtain ⟨-, rfl⟩ := toI64_eq_some.mp hlo
    rw [CaseKey.takes_one, takes]
  | .literal (.u128 literal), key, h => by
    obtain ⟨lo, hlo, rfl⟩ := map_eq_some_iff.mp h
    obtain ⟨-, rfl⟩ := toI64_eq_some.mp hlo
    rw [CaseKey.takes_one, takes]
  | .literal (.char code), key, h => by
    obtain rfl := Option.some.inj h
    rw [CaseKey.takes_one, takes]
  | .enum caseIndex, key, h => by
    obtain rfl := Option.some.inj h
    rw [CaseKey.takes_one, takes]
  | .range start stop inclusive, key, h => by
    rw [caseKey] at h
    obtain ⟨lo, hlo, h⟩ := bind_eq_some_iff.mp h
    obtain ⟨hi, hhi, rfl⟩ := map_eq_some_iff.mp h
    obtain ⟨-, rfl⟩ := toI64_eq_some.mp hlo
    obtain ⟨-, rfl⟩ := toI64_eq_some.mp hhi
    rw [CaseKey.takes, any_cons, any_nil, Bool.or_false, takes]
    cases inclusive with
    | true => rfl
    | false =>
      simp only [Bool.false_eq_true, if_false]
      rw [decide_eq_decide.mpr (Int.le_sub_one_iff)]
  | .wildcard, key, h => by
    obtain rfl := Option.some.inj h
    rw [takes, CaseKey.takes]
  | .or alternatives, key, h => by
    rw [caseKey] at h
    rw [takes]
    exact alternativesKey_takes h

theorem alternativesKey_takes : ∀ {alternatives : List PatKind} {key : CaseKey},
    alternativesKey alternatives = some key → key.takes value = takesAny run alternatives value
  | [], key, h => by
    obtain rfl := Option.some.inj h
    rfl
  | alternative :: alternatives, key, h => by
    rw [alternativesKey] at h
    rw [takesAny]
    cases hhead : caseKey alternative with
    | none => rw [hhead] at h; cases h
    | some head =>
      rw [hhead] at h
      rw [← caseKey_takes hhead]
      cases head with
      | wildcard =>
        obtain rfl := Option.some.inj h
        rw [CaseKey.takes, Bool.true_or]
      | spans spans =>
        cases htail : alternativesKey alternatives with
        | none => simp only [htail, reduceCtorEq] at h
        | some tail =>
          rw [← alternativesKey_takes htail]
          simp only [htail] at h
          cases tail with
          | wildcard =>
            obtain rfl := Option.some.inj h
            rw [CaseKey.takes, CaseKey.takes, Bool.or_true]
          | spans rest =>
            obtain rfl := Option.some.inj h
            rw [CaseKey.takes, CaseKey.takes, CaseKey.takes, any_append]

end

theorem firstSpan_map_arm (i : Nat) (spans : List (Int × Int)) :
    firstSpan (spans.map fun span => ⟨i, span.1, span.2⟩) value =
      if (CaseKey.spans spans).takes value then some i else none := by
  induction spans with
  | nil => rfl
  | cons span spans ih =>
    rw [map_cons, firstSpan_cons, ih, CaseKey.takes, CaseKey.takes, any_cons]
    simp only [ArmSpan.covers]
    by_cases hcovers : (decide (span.1 ≤ value) && decide (value ≤ span.2)) = true
    · simp only [hcovers, if_true, Bool.true_or]
    · rw [Bool.not_eq_true] at hcovers
      simp only [hcovers, Bool.false_eq_true, if_false, Bool.false_or]

theorem firstArmFrom_eq {i : Nat} (h : armSpansFrom i arms = some (spans, wildcard)) :
    firstArmFrom run value i arms = (firstSpan spans value).or wildcard := by
  induction arms generalizing i spans wildcard with
  | nil =>
    obtain ⟨rfl, rfl⟩ := Prod.mk.inj (Option.some.inj h)
    rfl
  | cons arm arms ih =>
    rw [armSpansFrom] at h
    split at h
    · cases h
    · rename_i hguard
      have hnone : arm.guard = none := not_isSome_iff_eq_none.mp hguard
      rw [firstArmFrom, hnone, all_none, Bool.and_true]
      cases hkey : caseKey arm.pattern with
      | none => rw [hkey] at h; cases h
      | some key =>
        rw [hkey] at h
        rw [← caseKey_takes run value hkey]
        cases key with
        | wildcard =>
          obtain ⟨rfl, rfl⟩ := Prod.mk.inj (Option.some.inj h)
          rfl
        | spans own =>
          obtain ⟨⟨rest, wildcard'⟩, hrest, heq⟩ := map_eq_some_iff.mp h
          obtain ⟨rfl, rfl⟩ := Prod.mk.inj heq
          rw [firstSpan_append, firstSpan_map_arm, ih hrest]
          split <;> rfl

/-- The match selects the arm of the first span that covers the value, and the wildcard
where none does. -/
theorem firstArm_eq (h : armSpans arms = some (spans, wildcard)) :
    firstArm run value arms = (firstSpan spans value).or wildcard :=
  firstArmFrom_eq run value h

end Spans

section Fits

variable {t : ScrutineeType}

mutual

/-- The pattern names values of the type, and no range of it is empty: the elaborator
rejects the others. -/
def PatKind.Fits (t : ScrutineeType) : PatKind → Prop
  | .literal (.i128 value) => t.bounds.1 ≤ value ∧ value ≤ t.bounds.2
  | .literal (.u128 value) => t.bounds.1 ≤ value ∧ value ≤ t.bounds.2
  | .literal (.char code) => t.bounds.1 ≤ code ∧ code ≤ t.bounds.2
  | .enum caseIndex => t.bounds.1 ≤ caseIndex ∧ caseIndex ≤ t.bounds.2
  | .range start stop inclusive =>
    t.bounds.1 ≤ start ∧ stop ≤ t.bounds.2 ∧ if inclusive then start ≤ stop else start < stop
  | .or alternatives => AllFit t alternatives
  | _ => True

def AllFit (t : ScrutineeType) : List PatKind → Prop
  | [] => True
  | alternative :: alternatives => alternative.Fits t ∧ AllFit t alternatives

end

/-- A span holds a value, and only values of the type. -/
def SpanFits (t : ScrutineeType) (lo hi : Int) : Prop :=
  t.bounds.1 ≤ lo ∧ lo ≤ hi ∧ hi ≤ t.bounds.2

theorem spanFits_one {value : Int} (h : t.bounds.1 ≤ value ∧ value ≤ t.bounds.2) :
    ∀ span ∈ [(value, value)], SpanFits t span.1 span.2 := by
  intro span hspan
  obtain rfl := mem_singleton.mp hspan
  exact ⟨h.1, le_rfl, h.2⟩

mutual

theorem caseKey_fits : ∀ {pattern : PatKind} {own : List (Int × Int)},
    caseKey pattern = some (.spans own) → pattern.Fits t → ∀ span ∈ own, SpanFits t span.1 span.2
  | .literal (.i128 literal), own, h, hfits => by
    obtain ⟨lo, hlo, hown⟩ := map_eq_some_iff.mp h
    obtain ⟨-, rfl⟩ := toI64_eq_some.mp hlo
    obtain rfl := CaseKey.spans.inj hown
    exact spanFits_one hfits
  | .literal (.u128 literal), own, h, hfits => by
    obtain ⟨lo, hlo, hown⟩ := map_eq_some_iff.mp h
    obtain ⟨-, rfl⟩ := toI64_eq_some.mp hlo
    obtain rfl := CaseKey.spans.inj hown
    exact spanFits_one hfits
  | .literal (.char code), own, h, hfits => by
    obtain rfl := CaseKey.spans.inj (Option.some.inj h)
    exact spanFits_one hfits
  | .enum caseIndex, own, h, hfits => by
    obtain rfl := CaseKey.spans.inj (Option.some.inj h)
    exact spanFits_one hfits
  | .range start stop inclusive, own, h, hfits => by
    rw [caseKey] at h
    obtain ⟨lo, hlo, h⟩ := bind_eq_some_iff.mp h
    obtain ⟨hi, hhi, hown⟩ := map_eq_some_iff.mp h
    obtain ⟨-, rfl⟩ := toI64_eq_some.mp hlo
    obtain ⟨-, rfl⟩ := toI64_eq_some.mp hhi
    obtain rfl := CaseKey.spans.inj hown
    obtain ⟨hstart, hstop, hrange⟩ := hfits
    intro span hspan
    obtain rfl := mem_singleton.mp hspan
    cases inclusive with
    | true => exact ⟨hstart, hrange, hstop⟩
    | false => exact ⟨hstart, Int.le_sub_one_of_lt hrange, by simp only; omega⟩
  | .wildcard, own, h, _ => by cases h
  | .or alternatives, own, h, hfits => by
    rw [caseKey] at h
    exact alternativesKey_fits h hfits

theorem alternativesKey_fits : ∀ {alternatives : List PatKind} {own : List (Int × Int)},
    alternativesKey alternatives = some (.spans own) → AllFit t alternatives →
      ∀ span ∈ own, SpanFits t span.1 span.2
  | [], own, h, _ => by
    obtain rfl := CaseKey.spans.inj (Option.some.inj h)
    exact fun span hspan => absurd hspan not_mem_nil
  | alternative :: alternatives, own, h, hfits => by
    rw [alternativesKey] at h
    cases hhead : caseKey alternative with
    | none => rw [hhead] at h; cases h
    | some head =>
      rw [hhead] at h
      cases head with
      | wildcard => cases h
      | spans first =>
        cases htail : alternativesKey alternatives with
        | none => simp only [htail, reduceCtorEq] at h
        | some tail =>
          simp only [htail] at h
          cases tail with
          | wildcard => cases h
          | spans rest =>
            obtain rfl := CaseKey.spans.inj (Option.some.inj h)
            intro span hspan
            rcases mem_append.mp hspan with hspan | hspan
            · exact caseKey_fits hhead hfits.1 span hspan
            · exact alternativesKey_fits htail hfits.2 span hspan

end

variable {β : Type}

theorem armSpansFrom_fits {i : Nat} (h : armSpansFrom i arms = some (spans, wildcard))
    (hfits : ∀ arm ∈ arms, arm.pattern.Fits t) :
    ∀ span ∈ spans, SpanFits t span.lo span.hi := by
  induction arms generalizing i spans wildcard with
  | nil =>
    obtain ⟨rfl, -⟩ := Prod.mk.inj (Option.some.inj h)
    exact fun span hspan => absurd hspan not_mem_nil
  | cons arm arms ih =>
    rw [armSpansFrom] at h
    split at h
    · cases h
    · cases hkey : caseKey arm.pattern with
      | none => rw [hkey] at h; cases h
      | some key =>
        rw [hkey] at h
        rw [forall_mem_cons] at hfits
        cases key with
        | wildcard =>
          obtain ⟨rfl, -⟩ := Prod.mk.inj (Option.some.inj h)
          exact fun span hspan => absurd hspan not_mem_nil
        | spans own =>
          obtain ⟨⟨rest, wildcard'⟩, hrest, heq⟩ := map_eq_some_iff.mp h
          obtain ⟨rfl, -⟩ := Prod.mk.inj heq
          intro span hspan
          rcases mem_append.mp hspan with hspan | hspan
          · obtain ⟨own', hown', rfl⟩ := mem_map.mp hspan
            exact caseKey_fits hkey hfits.1 own' hown'
          · exact ih hrest hfits.2 span hspan

theorem wildcard_ge {i j : Nat} (h : armSpansFrom i arms = some (spans, some j)) : i ≤ j := by
  induction arms generalizing i spans with
  | nil => cases h
  | cons arm arms ih =>
    rw [armSpansFrom] at h
    split at h
    · cases h
    · cases hkey : caseKey arm.pattern with
      | none => rw [hkey] at h; cases h
      | some key =>
        rw [hkey] at h
        cases key with
        | wildcard =>
          obtain ⟨-, hj⟩ := Prod.mk.inj (Option.some.inj h)
          exact (Option.some.inj hj).le
        | spans own =>
          obtain ⟨⟨rest, wildcard'⟩, hrest, heq⟩ := map_eq_some_iff.mp h
          obtain ⟨-, rfl⟩ := Prod.mk.inj heq
          exact Nat.le_of_succ_le (ih hrest)

/-- The arms with spans stand before the wildcard. -/
theorem span_lt_wildcard {i j : Nat} (h : armSpansFrom i arms = some (spans, some j)) :
    ∀ span ∈ spans, span.arm < j := by
  induction arms generalizing i spans with
  | nil => cases h
  | cons arm arms ih =>
    rw [armSpansFrom] at h
    split at h
    · cases h
    · cases hkey : caseKey arm.pattern with
      | none => rw [hkey] at h; cases h
      | some key =>
        rw [hkey] at h
        cases key with
        | wildcard =>
          obtain ⟨rfl, -⟩ := Prod.mk.inj (Option.some.inj h)
          exact fun span hspan => absurd hspan not_mem_nil
        | spans own =>
          obtain ⟨⟨rest, wildcard'⟩, hrest, heq⟩ := map_eq_some_iff.mp h
          obtain ⟨rfl, rfl⟩ := Prod.mk.inj heq
          intro span hspan
          rcases mem_append.mp hspan with hspan | hspan
          · obtain ⟨own', -, rfl⟩ := mem_map.mp hspan
            exact wildcard_ge hrest
          · exact ih hrest span hspan

end Fits

end Wado.KeyDispatch
