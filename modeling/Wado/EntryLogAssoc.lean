/-
The insertion-ordered map as a plain association list, and what it takes for a
map to refine it: the same answer to every operation, over every run.
-/
import Wado.EntryLogRows

namespace Wado

variable {K V σ : Type}

/-- The operations that change a map. -/
inductive MapOp (K V : Type) where
  | assign (key : K) (value : V)
  | tryInsert (key : K) (value : V)
  | getOrInsert (key : K) (value : V)
  | remove (key : K)
  | clear
deriving Repr, DecidableEq

/-- What an operation returns. -/
inductive MapAnswer (V : Type) where
  | unit
  | bool (b : Bool)
  | value (value : V)
deriving Repr, DecidableEq

/-- Runs `ops` in order, collecting the answers; `none` once a step traps. -/
def runOps (step : σ → MapOp K V → Option (MapAnswer V × σ)) :
    σ → List (MapOp K V) → Option (List (MapAnswer V) × σ)
  | state, [] => some ([], state)
  | state, op :: ops => do
    let (answer, state) ← step state op
    let (answers, state) ← runOps step state ops
    return (answer :: answers, state)

/-- The pairs of a map in insertion order. -/
abbrev AssocList (K V : Type) := List (K × V)

namespace AssocList

-- Keys are compared by the key type's own `==`.
variable (same : K → K → Bool)

def get (list : AssocList K V) (key : K) : Option V :=
  (list.find? fun pair => same pair.1 key).map Prod.snd

def containsKey (list : AssocList K V) (key : K) : Bool :=
  list.any fun pair => same pair.1 key

/-- Updates in place, or appends. -/
def assign (list : AssocList K V) (key : K) (value : V) : AssocList K V :=
  if containsKey same list key then
    list.map fun pair => if same pair.1 key then (pair.1, value) else pair
  else list ++ [(key, value)]

def remove (list : AssocList K V) (key : K) : AssocList K V :=
  list.filter fun pair => !same pair.1 key

def step (list : AssocList K V) : MapOp K V → MapAnswer V × AssocList K V
  | .assign key value => (.unit, assign same list key value)
  | .tryInsert key value =>
    if containsKey same list key then (.bool false, list)
    else (.bool true, list ++ [(key, value)])
  | .getOrInsert key value =>
    match get same list key with
    | some old => (.value old, list)
    | none => (.value value, list ++ [(key, value)])
  | .remove key => (.bool (containsKey same list key), remove same list key)
  | .clear => (.unit, [])

/-- The answers of a run, and the list it ends with. -/
def run : AssocList K V → List (MapOp K V) → List (MapAnswer V) × AssocList K V
  | list, [] => ([], list)
  | list, op :: ops =>
    let (answer, list) := step same list op
    let (answers, list) := run list ops
    (answer :: answers, list)

end AssocList

/-- A step relation that answers as the list does, and stays related to it,
does so over every run. -/
theorem runOps_eq_run {same : K → K → Bool}
    {step : σ → MapOp K V → Option (MapAnswer V × σ)}
    {Related : σ → AssocList K V → Prop}
    (hstep : ∀ state list op, Related state list →
      ∃ state', step state op = some ((AssocList.step same list op).1, state') ∧
        Related state' (AssocList.step same list op).2)
    (state : σ) (list : AssocList K V) (hstate : Related state list)
    (ops : List (MapOp K V)) :
    ∃ state', runOps step state ops = some ((AssocList.run same list ops).1, state') ∧
      Related state' (AssocList.run same list ops).2 := by
  induction ops generalizing state list with
  | nil => exact ⟨state, rfl, hstate⟩
  | cons op ops ih =>
    obtain ⟨middle, hmiddle, hrelated⟩ := hstep state list op hstate
    obtain ⟨final, hfinal, hrelated'⟩ := ih middle _ hrelated
    exact ⟨final, by simp [runOps, hmiddle, hfinal, AssocList.run], hrelated'⟩

end Wado

/-
Rows against the association list they stand for.  While no two live rows have
the same key, finding a key's row is finding its pair: overwriting the row
updates in place, killing it removes, and appending a row appends.
-/

namespace Wado

variable {K V : Type} {same : K → K → Bool}

/-- What `Eq` promises of `==`.  A NaN is not equal to itself, so `==` need not
be reflexive. -/
structure LawfulSame (same : K → K → Bool) : Prop where
  symm : ∀ {a b : K}, same a b = true → same b a = true
  trans : ∀ {a b c : K}, same a b = true → same b c = true → same a c = true

/-- No two live rows have the same key. -/
def LiveDistinct (same : K → K → Bool) (rows : List (Row K V)) : Prop :=
  ∀ {i j : Nat} {key key' : K} {value value' : V},
    rows[i]? = some (key, some value) → rows[j]? = some (key', some value') →
      same key key' = true → i = j

/-- No live row has the same key as `key`. -/
def LiveAbsent (same : K → K → Bool) (rows : List (Row K V)) (key : K) : Prop :=
  ∀ {i : Nat} {key' : K} {value : V}, rows[i]? = some (key', some value) → same key' key = false

variable {rows : List (Row K V)} {key : K}

section

variable (h : LiveAbsent same rows key)
include h

theorem LiveAbsent.of_mem {pair : K × V} (hmem : pair ∈ liveRows rows) :
    same pair.1 key = false := by
  obtain ⟨i, hi⟩ := (mem_liveRows_iff rows pair).mp hmem
  exact h hi

theorem LiveAbsent.containsKey_eq :
    AssocList.containsKey same (liveRows rows) key = false := by
  rw [AssocList.containsKey, List.any_eq_false]
  intro pair hmem
  simp [h.of_mem hmem]

theorem LiveAbsent.get_eq :
    AssocList.get same (liveRows rows) key = none := by
  rw [AssocList.get, Option.map_eq_none_iff, List.find?_eq_none]
  intro pair hmem
  simp [h.of_mem hmem]

theorem LiveAbsent.remove_eq :
    AssocList.remove same (liveRows rows) key = liveRows rows := by
  rw [AssocList.remove, List.filter_eq_self]
  intro pair hmem
  simp [h.of_mem hmem]

theorem LiveAbsent.assign_eq (value : V) :
    AssocList.assign same (liveRows rows) key value = liveRows (rows ++ [(key, some value)]) := by
  simp [AssocList.assign, h.containsKey_eq]

end

variable {i : Nat} {key key' : K} {value : V}

theorem containsKey_of_live
    (hrow : rows[i]? = some (key', some value)) (hsame : same key' key = true) :
    AssocList.containsKey same (liveRows rows) key = true := by
  rw [AssocList.containsKey, List.any_eq_true]
  exact ⟨(key', value), (mem_liveRows_iff rows _).mpr ⟨i, hrow⟩, hsame⟩

/-- The one live row with a key: no pair before or after it has that key. -/
theorem split_live (hlaw : LawfulSame same) (hdistinct : LiveDistinct same rows)
    (hrow : rows[i]? = some (key', some value)) (hsame : same key' key = true) :
    ∃ before after, rows = before ++ (key', some value) :: after ∧ before.length = i ∧
      (∀ pair ∈ liveRows before, same pair.1 key = false) ∧
      ∀ pair ∈ liveRows after, same pair.1 key = false := by
  obtain ⟨before, after, rfl, rfl⟩ := GcArray.exists_split hrow
  have hother : ∀ {j : Nat} {k : K} {v : V},
      (before ++ (key', some value) :: after)[j]? = some (k, some v) →
        j ≠ before.length → same k key = false := by
    intro j k v hj hne
    by_contra hk
    have hk' : same k key' = true :=
      hlaw.trans (by simpa using hk) (hlaw.symm hsame)
    exact hne (hdistinct hj hrow hk')
  refine ⟨before, after, rfl, rfl, ?_, ?_⟩
  · intro pair hmem
    obtain ⟨j, hj⟩ := (mem_liveRows_iff before pair).mp hmem
    have hlt := (List.getElem?_eq_some_iff.mp hj).1
    exact hother (by rw [List.getElem?_append_left hlt, hj]) (by omega)
  · intro pair hmem
    obtain ⟨j, hj⟩ := (mem_liveRows_iff after pair).mp hmem
    refine hother (j := before.length + 1 + j) (v := pair.2) ?_ (by omega)
    rw [List.getElem?_append_right (by omega)]
    simpa [show before.length + 1 + j - before.length = j + 1 by omega] using hj

variable {pairs : AssocList K V}

theorem map_eq_self_of_forall (value : V) (h : ∀ pair ∈ pairs, same pair.1 key = false) :
    pairs.map (fun pair => if same pair.1 key then (pair.1, value) else pair) = pairs := by
  conv_rhs => rw [← List.map_id pairs]
  apply List.map_congr_left
  intro pair hmem
  simp [h pair hmem]

section

variable (h : ∀ pair ∈ pairs, same pair.1 key = false)
include h

theorem filter_eq_self_of_forall :
    pairs.filter (fun pair => !same pair.1 key) = pairs := by
  rw [List.filter_eq_self]
  intro pair hmem
  simp [h pair hmem]

theorem find?_eq_none_of_forall :
    pairs.find? (fun pair => same pair.1 key) = none := by
  rw [List.find?_eq_none]
  intro pair hmem
  simp [h pair hmem]

end

section

variable (hlaw : LawfulSame same)
include hlaw

section

variable (hdistinct : LiveDistinct same rows)
include hdistinct

theorem get_of_live (hrow : rows[i]? = some (key', some value)) (hsame : same key' key = true) :
    AssocList.get same (liveRows rows) key = some value := by
  obtain ⟨before, after, rfl, -, hbefore, -⟩ := split_live hlaw hdistinct hrow hsame
  simp [AssocList.get, find?_eq_none_of_forall hbefore, hsame]

theorem assign_of_live {old : V}
    (hrow : rows[i]? = some (key', some old)) (hsame : same key' key = true) (value : V) :
    AssocList.assign same (liveRows rows) key value = liveRows (rows.set i (key', some value)) := by
  have hcontains := containsKey_of_live hrow hsame
  obtain ⟨before, after, rfl, rfl, hbefore, hafter⟩ :=
    split_live hlaw hdistinct hrow hsame
  rw [AssocList.assign, if_pos hcontains]
  simp [map_eq_self_of_forall value hbefore, map_eq_self_of_forall value hafter, hsame]

theorem remove_of_live (hrow : rows[i]? = some (key', some value)) (hsame : same key' key = true) :
    AssocList.remove same (liveRows rows) key = liveRows (rows.set i (key', none)) := by
  obtain ⟨before, after, rfl, rfl, hbefore, hafter⟩ :=
    split_live hlaw hdistinct hrow hsame
  simp [AssocList.remove, filter_eq_self_of_forall hbefore, filter_eq_self_of_forall hafter, hsame]

end

end

end Wado
