/-
The predictor's map from non-negative keys to ids: open addressing over a table of a power of
two of slots, with the slots in use kept in a list so that the table grows before it is half full.
-/
import Mathlib.Data.List.Perm.Subperm
import Wado.LinearProbe

namespace Wado.Gale

open List Option

/-- The slots' keys, -1 for an empty one, their values, and the slots in use. -/
structure AtnKeyMap where
  keys : List Int
  vals : List Int
  used : List Nat
deriving DecidableEq, Repr

namespace AtnKeyMap

def withSlots (slots : Nat) : AtnKeyMap :=
  { keys := List.replicate slots (-1), vals := List.replicate slots (-1), used := [] }

def new : AtnKeyMap :=
  withSlots 64

/-- The slot the search for `k` starts at. -/
def homeSlot (slots k : Nat) : Nat :=
  let hash := BitVec.ofNat 64 k
  (((hash ^^^ (hash >>> 29)) * 0x5851F42D4C957F2D#64) >>> 32).toNat &&& (slots - 1)

/-- The slot of `k`, or the empty slot it would take; a search that passes every slot is
`none`.  A key is a natural number, as the contract of the search says. -/
def slotOf (map : AtnKeyMap) (k : Nat) : Option Nat :=
  LinearProbe.probe
    (fun i => (map.keys[i]?).map fun key => if key ≥ 0 ∧ key ≠ (k : Int) then none else some i)
    (map.keys.length - 1) map.keys.length (homeSlot map.keys.length k)

def get (map : AtnKeyMap) (k : Nat) : Option Int := do
  map.vals[← map.slotOf k]?

/-- `set`, once the table has room. -/
def put (map : AtnKeyMap) (k : Nat) (v : Int) : Option AtnKeyMap := do
  let i ← map.slotOf k
  let key ← map.keys[i]?
  if key < 0 then
    return { keys := map.keys.set i (k : Int), vals := map.vals.set i v, used := map.used ++ [i] }
  else
    return { map with vals := map.vals.set i v }

/-- The calls of `set` nest `fuel` deep: a table that grows is filled by `set` too. -/
def setNested : Nat → AtnKeyMap → Nat → Int → Option AtnKeyMap
  | 0, _, _, _ => none
  | fuel + 1, map, k, v =>
    if (map.used.length + 1) * 2 > map.keys.length then do
      let grown ← map.used.foldlM (fun grown s => do
        setNested fuel grown (← map.keys[s]?).toNat (← map.vals[s]?))
        (withSlots (map.keys.length * 2))
      grown.put k v
    else map.put k v

def set (map : AtnKeyMap) (k : Nat) (v : Int) : Option AtnKeyMap :=
  setNested 2 map k v

def clear (map : AtnKeyMap) : AtnKeyMap :=
  { keys := map.used.foldl (·.set · (-1)) map.keys, vals := map.used.foldl (·.set · (-1)) map.vals,
    used := [] }

/-- A pair is set, and `none` clears the map. -/
def step (map : AtnKeyMap) : Option (Nat × Int) → Option AtnKeyMap
  | some (k, v) => map.set k v
  | none => map.clear

/-- The pairs set since the last `clear`, the last one first. -/
def kept (ops : List (Option (Nat × Int))) : List (Nat × Int) :=
  (ops.reverse.takeWhile isSome).filterMap id

/-- Key `k` has value `v`. -/
def Holds (map : AtnKeyMap) (k : Nat) (v : Int) : Prop :=
  ∃ s : Nat, map.keys[s]? = some (k : Int) ∧ map.vals[s]? = some v

/-- The table is half empty, and every key is found from its home without crossing an empty
slot. -/
structure Valid (map : AtnKeyMap) : Prop where
  slots : LinearProbe.Slots map.keys
  two_pow : ∃ p, 1 ≤ p ∧ map.keys.length = 2 ^ p
  vals_length : map.vals.length = map.keys.length
  used_nodup : map.used.Nodup
  mem_used : ∀ s, s ∈ map.used ↔ ∃ k : Nat, map.keys[s]? = some (k : Int)
  half : map.used.length * 2 ≤ map.keys.length
  found : ∀ {s k : Nat}, map.keys[s]? = some (k : Int) →
    LinearProbe.Reaches map.keys (homeSlot map.keys.length k) s
  unused : ∀ {s : Nat}, map.keys[s]? = some (-1) → map.vals[s]? = some (-1)

variable {map map' : AtnKeyMap} {k s : Nat} {v : Int}

theorem withSlots_valid {p : Nat} (hp : 1 ≤ p) : Valid (withSlots (2 ^ p)) where
  slots := LinearProbe.replicate_slots _
  two_pow := ⟨p, hp, by simp [withSlots]⟩
  vals_length := by simp [withSlots]
  used_nodup := nodup_nil
  mem_used := by
    intro s
    constructor
    · intro hs
      cases hs
    · rintro ⟨k, hk⟩
      exact absurd hk (LinearProbe.replicate_ne _ s k)
  half := by simp [withSlots]
  found := fun hk => absurd hk (LinearProbe.replicate_ne _ _ _)
  unused := by
    intro s hs
    exact hs

theorem withSlots_not_holds (slots : Nat) : ¬ Holds (withSlots slots) k v := by
  rintro ⟨s, hs, -⟩
  exact LinearProbe.replicate_ne _ s k hs

theorem Valid.length_pos (h : Valid map) : 0 < map.keys.length := by
  obtain ⟨p, -, hp⟩ := h.two_pow
  rw [hp]
  exact Nat.two_pow_pos p

theorem Valid.home_lt (h : Valid map) (k : Nat) : homeSlot map.keys.length k < map.keys.length := by
  have hpos := h.length_pos
  have hle := Nat.and_le_right
    (n := (((BitVec.ofNat 64 k ^^^ (BitVec.ofNat 64 k >>> 29)) * 0x5851F42D4C957F2D#64)
      >>> 32).toNat) (m := map.keys.length - 1)
  simp only [homeSlot]
  omega

/-- A table that is not full has an empty slot. -/
theorem Valid.exists_empty (h : Valid map) : ∃ s : Nat, map.keys[s]? = some (-1) := by
  by_contra hnone
  have hpos := h.length_pos
  have hhalf := h.half
  have hall : List.range map.keys.length ⊆ map.used := by
    intro s hs
    rcases h.slots.cases_eq (mem_range.mp hs) with hempty | hnumber
    · exact absurd ⟨s, hempty⟩ hnone
    · exact (h.mem_used s).mpr hnumber
  have hle := (nodup_range.subperm hall).length_le
  rw [length_range] at hle
  omega

section

variable (h : Valid map)
include h

/-- What the search for `k` ends at: the slot of `k`, or an empty slot where `k` is nowhere. -/
theorem Valid.slotOf_spec (k : Nat) : ∃ i, map.slotOf k = some i ∧
      LinearProbe.Reaches map.keys (homeSlot map.keys.length k) i ∧
      (map.keys[i]? = some (k : Int) ∨
        map.keys[i]? = some (-1) ∧ ∀ s : Nat, map.keys[s]? ≠ some (k : Int)) := by
  obtain ⟨p, hp, hlength⟩ := h.two_pow
  have hhome := h.home_lt k
  obtain ⟨n, hn, hstop, hcrowded, hpass⟩ := h.slots.exists_first hhome
    (fun s => map.keys[s]? = some (-1) ∨ map.keys[s]? = some (k : Int)) (fun _ => Or.inl)
    h.exists_empty
  refine ⟨(homeSlot map.keys.length k + n) % map.keys.length, ?_, ⟨n, hn, rfl, hcrowded⟩, ?_⟩
  · rw [slotOf, hlength]
    rw [hlength] at hhome hn hstop hpass hcrowded
    apply LinearProbe.probe_eq_some (k := n) hn hhome
    · intro j hj
      obtain ⟨i, hi⟩ := hcrowded j hj
      rw [hlength] at hi
      have hne : (i : Int) ≠ (k : Int) := by
        intro heq
        exact hpass j hj (Or.inr (heq ▸ hi))
      rw [hi, map_some, if_pos ⟨by omega, hne⟩]
    · rcases hstop with hempty | hkey
      · rw [hempty, map_some, if_neg (by omega)]
      · rw [hkey, map_some, if_neg (by omega)]
  · rcases hstop with hempty | hkey
    · refine Or.inr ⟨hempty, fun s hs => ?_⟩
      -- the search would have met the key before the empty slot
      obtain ⟨m, hm, hms, hmcrowded⟩ := h.found hs
      rcases Nat.lt_trichotomy m n with hlt | heq | hgt
      · exact hpass m hlt (Or.inr (hms ▸ hs))
      · rw [← heq, hms, hs] at hempty
        have := Option.some.inj hempty
        omega
      · obtain ⟨i, hi⟩ := hmcrowded n hgt
        rw [hempty] at hi
        have := Option.some.inj hi
        omega
    · exact Or.inl hkey

/-- What `get` answers: the key's value, or -1 when it has none. -/
theorem Valid.get_spec (k : Nat) :
    ∃ v, map.get k = some v ∧ (Holds map k v ∨ v = -1 ∧ ∀ v, ¬ Holds map k v) := by
  obtain ⟨i, hslot, -, hkey | ⟨hempty, hnone⟩⟩ := h.slotOf_spec k
  · have hi : i < map.vals.length := by
      rw [h.vals_length]
      exact (List.getElem?_eq_some_iff.mp hkey).1
    refine ⟨map.vals[i], ?_, Or.inl ⟨i, hkey, List.getElem?_eq_getElem hi⟩⟩
    rw [get, hslot, bind_eq_bind, bind_some, List.getElem?_eq_getElem hi]
  · refine ⟨-1, ?_, Or.inr ⟨rfl, ?_⟩⟩
    · rw [get, hslot, bind_eq_bind, bind_some, h.unused hempty]
    · rintro v ⟨s, hs, -⟩
      exact hnone s hs

theorem Valid.holds_unique {v' : Int} (hv : Holds map k v) (hv' : Holds map k v') :
    v = v' := by
  obtain ⟨s, hs, hval⟩ := hv
  obtain ⟨s', hs', hval'⟩ := hv'
  obtain rfl := h.slots.injective hs hs'
  rw [hval] at hval'
  exact Option.some.inj hval'

/-- Putting a value keeps the other keys' values. -/
theorem Valid.put_spec (hroom : (map.used.length + 1) * 2 ≤ map.keys.length) (k : Nat) (v : Int) :
    ∃ map', map.put k v = some map' ∧ Valid map' ∧ map'.keys.length = map.keys.length ∧
      map'.used.length ≤ map.used.length + 1 ∧
      ∀ k' v', Holds map' k' v' ↔ k' = k ∧ v' = v ∨ k' ≠ k ∧ Holds map k' v' := by
  obtain ⟨i, hslot, hreach, hkey | ⟨hempty, hnone⟩⟩ := h.slotOf_spec k
  · have hi : i < map.vals.length := by
      rw [h.vals_length]
      exact (List.getElem?_eq_some_iff.mp hkey).1
    refine ⟨{ map with vals := map.vals.set i v }, ?_, ?_, rfl, Nat.le_succ _, ?_⟩
    · rw [put, hslot, bind_eq_bind, bind_some, hkey, bind_eq_bind,
        bind_some, if_neg (by omega)]
      rfl
    · refine ⟨h.slots, h.two_pow, by simpa using h.vals_length, h.used_nodup, h.mem_used, h.half,
        h.found, ?_⟩
      intro s hs
      have hne : i ≠ s := by
        rintro rfl
        rw [hs] at hkey
        have := Option.some.inj hkey
        omega
      show (map.vals.set i v)[s]? = some (-1)
      rw [List.getElem?_set_ne hne]
      exact h.unused hs
    · intro k' v'
      constructor
      · rintro ⟨s, hs, hval⟩
        by_cases heq : i = s
        · subst heq
          rw [show map.keys[i]? = some (k' : Int) from hs] at hkey
          have hval' : (map.vals.set i v)[i]? = some v' := hval
          rw [List.getElem?_set_self hi] at hval'
          refine Or.inl ⟨?_, (Option.some.inj hval').symm⟩
          have := Option.some.inj hkey
          omega
        · have hval' : (map.vals.set i v)[s]? = some v' := hval
          rw [List.getElem?_set_ne heq] at hval'
          refine Or.inr ⟨?_, s, hs, hval'⟩
          rintro rfl
          exact heq (h.slots.injective hkey hs)
      · rintro (⟨rfl, rfl⟩ | ⟨hne, s, hs, hval⟩)
        · exact ⟨i, hkey, List.getElem?_set_self hi⟩
        · refine ⟨s, hs, ?_⟩
          show (map.vals.set i v)[s]? = some v'
          rw [List.getElem?_set_ne, hval]
          rintro rfl
          rw [hs] at hkey
          have := Option.some.inj hkey
          omega
  · have hi : i < map.keys.length := (List.getElem?_eq_some_iff.mp hempty).1
    have hiv : i < map.vals.length := by
      rw [h.vals_length]
      exact hi
    refine ⟨{ keys := map.keys.set i (k : Int), vals := map.vals.set i v,
              used := map.used ++ [i] }, ?_, ?_, by simp, by simp, ?_⟩
    · rw [put, hslot, bind_eq_bind, bind_some, hempty, bind_eq_bind,
        bind_some, if_pos (by omega)]
      rfl
    · constructor
      · exact h.slots.set i hnone
      · simpa using h.two_pow
      · simpa using h.vals_length
      · rw [nodup_append]
        refine ⟨h.used_nodup, nodup_singleton i, ?_⟩
        rintro a ha b hb rfl
        rw [mem_singleton.mp hb] at ha
        obtain ⟨j, hj⟩ := (h.mem_used i).mp ha
        rw [hempty] at hj
        have := Option.some.inj hj
        omega
      · intro s
        rw [mem_append, mem_singleton, h.mem_used]
        constructor
        · rintro (⟨j, hj⟩ | rfl)
          · refine ⟨j, ?_⟩
            show (map.keys.set i (k : Int))[s]? = some (j : Int)
            rw [List.getElem?_set_ne, hj]
            rintro rfl
            rw [hempty] at hj
            have := Option.some.inj hj
            omega
          · exact ⟨k, List.getElem?_set_self hi⟩
        · rintro ⟨j, hj⟩
          rcases LinearProbe.getElem?_set_cases hj with ⟨rfl, -⟩ | ⟨-, hold⟩
          · exact Or.inr rfl
          · exact Or.inl ⟨j, hold⟩
      · show (map.used ++ [i]).length * 2 ≤ (map.keys.set i (k : Int)).length
        rw [length_append, length_singleton, length_set]
        exact hroom
      · intro s j hj
        show LinearProbe.Reaches (map.keys.set i (k : Int))
          (homeSlot (map.keys.set i (k : Int)).length j) s
        rw [length_set]
        rcases LinearProbe.getElem?_set_cases hj with ⟨rfl, rfl⟩ | ⟨-, hold⟩
        · exact hreach.set s j
        · exact (h.found hold).set i k
      · intro s hs
        have hne : i ≠ s := by
          rintro rfl
          have hself : (map.keys.set i (k : Int))[i]? = some (-1) := hs
          rw [List.getElem?_set_self hi] at hself
          have := Option.some.inj hself
          omega
        have hs' : (map.keys.set i (k : Int))[s]? = some (-1) := hs
        rw [List.getElem?_set_ne hne] at hs'
        show (map.vals.set i v)[s]? = some (-1)
        rw [List.getElem?_set_ne hne]
        exact h.unused hs'
    · intro k' v'
      constructor
      · rintro ⟨s, hs, hval⟩
        have hval' : (map.vals.set i v)[s]? = some v' := hval
        rcases LinearProbe.getElem?_set_cases hs with ⟨rfl, rfl⟩ | ⟨hne, hold⟩
        · rw [List.getElem?_set_self hiv] at hval'
          exact Or.inl ⟨rfl, (Option.some.inj hval').symm⟩
        · rw [List.getElem?_set_ne (Ne.symm hne)] at hval'
          refine Or.inr ⟨?_, s, hold, hval'⟩
          rintro rfl
          exact hnone s hold
      · rintro (⟨rfl, rfl⟩ | ⟨-, s, hs, hval⟩)
        · exact ⟨i, List.getElem?_set_self hi, List.getElem?_set_self hiv⟩
        · have hne : i ≠ s := by
            rintro rfl
            rw [hempty] at hs
            have := Option.some.inj hs
            omega
          refine ⟨s, ?_, ?_⟩
          · show (map.keys.set i (k : Int))[s]? = some (k' : Int)
            rw [List.getElem?_set_ne hne, hs]
          · show (map.vals.set i v)[s]? = some v'
            rw [List.getElem?_set_ne hne, hval]

end

/-- A call that finds room puts the value. -/
theorem setNested_of_room {fuel : Nat} (hroom : (map.used.length + 1) * 2 ≤ map.keys.length)
    (k : Nat) (v : Int) : setNested (fuel + 1) map k v = map.put k v := by
  rw [setNested, if_neg (by omega)]

/-- What a larger table holds once some of the slots in use were copied to it. -/
structure Copied (map grown : AtnKeyMap) (done : List Nat) : Prop where
  valid : Valid grown
  length_eq : grown.keys.length = map.keys.length * 2
  used_le : grown.used.length ≤ done.length
  holds_iff : ∀ k v, Holds grown k v ↔
    ∃ s ∈ done, map.keys[s]? = some (k : Int) ∧ map.vals[s]? = some v

theorem Valid.copied (h : Valid map) {done todo : List Nat} (hused : done ++ todo = map.used)
    {grown : AtnKeyMap} (hcopied : Copied map grown done) :
    ∃ full, todo.foldlM (fun grown s => do
      setNested 1 grown (← map.keys[s]?).toNat (← map.vals[s]?)) grown = some full ∧
      Copied map full map.used := by
  induction todo generalizing done grown with
  | nil =>
    rw [append_nil] at hused
    exact ⟨grown, rfl, hused ▸ hcopied⟩
  | cons s todo ih =>
    obtain ⟨k, hk⟩ := (h.mem_used s).mp (hused ▸ mem_append_right done mem_cons_self)
    have hs : s < map.vals.length := by
      rw [h.vals_length]
      exact (List.getElem?_eq_some_iff.mp hk).1
    have hval : map.vals[s]? = some map.vals[s] := List.getElem?_eq_getElem hs
    have hlength : done.length + 1 ≤ map.used.length := by
      rw [← hused, length_append, length_cons]
      omega
    have hhalf := h.half
    have hle := hcopied.used_le
    have hroom : (grown.used.length + 1) * 2 ≤ grown.keys.length := by
      rw [hcopied.length_eq]
      omega
    obtain ⟨next, hput, hvalid, hkeys, hnext, hholds⟩ := hcopied.valid.put_spec hroom k
      map.vals[s]
    have hstep : (do setNested 1 grown (← map.keys[s]?).toNat (← map.vals[s]?)) = some next := by
      rw [hk, hval, bind_eq_bind, bind_some, bind_some, Int.toNat_natCast,
        setNested_of_room hroom, hput]
    rw [foldlM_cons, hstep, bind_eq_bind, bind_some]
    have hused' : (done ++ [s]) ++ todo = map.used := by
      rw [append_assoc, ← hused]
      rfl
    apply ih hused'
    refine ⟨hvalid, hkeys.trans hcopied.length_eq, ?_, ?_⟩
    · rw [length_append, length_singleton]
      omega
    · intro k' v'
      rw [hholds, hcopied.holds_iff]
      constructor
      · rintro (⟨rfl, rfl⟩ | ⟨-, s', hs', hold⟩)
        · exact ⟨s, by simp, hk, hval⟩
        · exact ⟨s', mem_append_left _ hs', hold⟩
      · rintro ⟨s', hs', hkey, hval'⟩
        by_cases heq : s' = s
        · subst heq
          rw [hk] at hkey
          rw [hval] at hval'
          have := Option.some.inj hkey
          exact Or.inl ⟨by omega, (Option.some.inj hval').symm⟩
        · rcases mem_append.mp hs' with hs' | hs'
          · refine Or.inr ⟨?_, s', hs', hkey, hval'⟩
            rintro rfl
            exact heq (h.slots.injective hkey hk)
          · exact absurd (mem_singleton.mp hs') heq

/-- Setting a value keeps the other keys' values, whether or not the table grows. -/
theorem Valid.set_spec (h : Valid map) (k : Nat) (v : Int) :
    ∃ map', map.set k v = some map' ∧ Valid map' ∧
      ∀ k' v', Holds map' k' v' ↔ k' = k ∧ v' = v ∨ k' ≠ k ∧ Holds map k' v' := by
  by_cases hroom : (map.used.length + 1) * 2 > map.keys.length
  · obtain ⟨p, hp, hlength⟩ := h.two_pow
    have hempty : Copied map (withSlots (map.keys.length * 2)) [] := by
      refine ⟨?_, by simp [withSlots], Nat.le_refl 0, ?_⟩
      · rw [hlength, ← Nat.pow_succ]
        exact withSlots_valid (by omega)
      · intro k' v'
        constructor
        · intro hholds
          exact absurd hholds (withSlots_not_holds _)
        · rintro ⟨_, hin, -⟩
          cases hin
    obtain ⟨full, hfold, hfull⟩ := h.copied (nil_append _) hempty
    have hhalf := h.half
    have hpos := h.length_pos
    have hle := hfull.used_le
    have heven : 2 ≤ map.keys.length := by
      rw [hlength]
      calc 2 = 2 ^ 1 := rfl
        _ ≤ 2 ^ p := Nat.pow_le_pow_right (by omega) hp
    obtain ⟨map', hput, hvalid, -, -, hholds⟩ := hfull.valid.put_spec
      (by rw [hfull.length_eq]; omega) k v
    refine ⟨map', ?_, hvalid, fun k' v' => ?_⟩
    · rw [set, setNested, if_pos hroom, hfold, bind_eq_bind, bind_some, hput]
    · rw [hholds, hfull.holds_iff]
      refine or_congr Iff.rfl (and_congr Iff.rfl ⟨?_, ?_⟩)
      · rintro ⟨s, -, hs⟩
        exact ⟨s, hs⟩
      · rintro ⟨s, hkey, hval⟩
        exact ⟨s, (h.mem_used s).mpr ⟨k', hkey⟩, hkey, hval⟩
  · obtain ⟨map', hput, hvalid, -, -, hholds⟩ := h.put_spec (by omega) k v
    exact ⟨map', by rw [set, setNested_of_room (by omega), hput], hvalid, hholds⟩

theorem new_valid : Valid new :=
  withSlots_valid (p := 6) (by omega)

theorem new_not_holds : ¬ Holds new k v :=
  withSlots_not_holds 64

theorem foldl_set {slots : List Int} {used : List Nat}
    (h : ∀ i ∉ used, ∀ x, slots[i]? = some x → x = -1) :
    used.foldl (·.set · (-1)) slots = replicate slots.length (-1) := by
  induction used generalizing slots with
  | nil =>
    refine eq_replicate_iff.mpr ⟨rfl, fun x hx => ?_⟩
    obtain ⟨i, hi⟩ := mem_iff_getElem?.mp hx
    exact h i not_mem_nil x hi
  | cons s used ih =>
    rw [foldl_cons, ih, length_set]
    intro i hi x hx
    grind

theorem Valid.clear_eq (h : Valid map) : map.clear = withSlots map.keys.length := by
  have hempty {i : Nat} (hi : i ∉ map.used) (hlt : i < map.keys.length) :
      map.keys[i]? = some (-1) :=
    (h.slots.cases_eq hlt).resolve_right fun hk => hi ((h.mem_used i).mpr hk)
  rw [clear, foldl_set, foldl_set, h.vals_length, withSlots]
  · intro i hi x hx
    have := h.unused (hempty hi (h.vals_length ▸ (List.getElem?_eq_some_iff.mp hx).1))
    simp_all
  · intro i hi x hx
    have := hempty hi (List.getElem?_eq_some_iff.mp hx).1
    simp_all

/-- Any run of `set` and `clear` on a new map succeeds, and each key then has the last value set
since the last `clear`, or -1. -/
theorem set_run_reads (ops : List (Option (Nat × Int))) : ∃ map,
    ops.foldlM step new = some map ∧ ∀ k, map.get k = some (((kept ops).lookup k).getD (-1)) := by
  suffices hrun : ∃ map, ops.foldlM step new = some map ∧ Valid map ∧
      ∀ k v, Holds map k v ↔ (kept ops).lookup k = some v by
    obtain ⟨map, hmap, hvalid, hholds⟩ := hrun
    refine ⟨map, hmap, fun k => ?_⟩
    obtain ⟨v, hget, hv | ⟨rfl, hnone⟩⟩ := hvalid.get_spec k
    · rw [hget, (hholds k v).mp hv]
      rfl
    · cases hlookup : (kept ops).lookup k with
      | none => exact hget
      | some v => exact absurd ((hholds k v).mpr hlookup) (hnone v)
  induction ops using List.reverseRecOn with
  | nil => exact ⟨new, rfl, new_valid, fun k v => by simp [kept, new_not_holds]⟩
  | append_singleton ops op ih =>
    obtain ⟨map, hmap, hvalid, hholds⟩ := ih
    cases op with
    | none =>
      obtain ⟨p, hp, hlength⟩ := hvalid.two_pow
      refine ⟨map.clear, by simp [hmap, step], ?_, fun k v => ?_⟩
      · rw [hvalid.clear_eq, hlength]
        exact withSlots_valid hp
      · simp [kept, hvalid.clear_eq, withSlots_not_holds]
    | some set =>
      obtain ⟨map', hset, hvalid', hholds'⟩ := hvalid.set_spec set.1 set.2
      refine ⟨map', by simp [hmap, step, hset], hvalid', fun k v => ?_⟩
      have hkept : kept (ops ++ [some set]) = set :: kept ops := by simp [kept]
      rw [hholds', hholds, hkept, lookup_cons]
      by_cases hk : k = set.1
      · simp [hk, eq_comm]
      · simp [hk, beq_eq_false_iff_ne.mpr hk]

end AtnKeyMap

end Wado.Gale
