/-
An entry log as a list of rows: each row a key with its value, or a key alone
once its entry is dead.  Every operation of the log is the expected operation on
rows, so the maps above it reason about rows only.
-/
import Wado.EntryLog

namespace Wado

open List Option GcArray

variable {K V : Type}

/-- One entry: its key, and its value while it lives. -/
abbrev Row (K V : Type) := K × Option V

/-- The live entries of `rows`, in order. -/
def liveRows (rows : List (Row K V)) : List (K × V) :=
  rows.filterMap fun row => row.2.map fun value => (row.1, value)

@[simp]
theorem liveRows_nil : liveRows ([] : List (Row K V)) = [] := rfl

@[simp]
theorem liveRows_cons_live (key : K) (value : V) (rows : List (Row K V)) :
    liveRows ((key, some value) :: rows) = (key, value) :: liveRows rows := rfl

@[simp]
theorem liveRows_cons_dead (key : K) (rows : List (Row K V)) :
    liveRows ((key, none) :: rows) = liveRows rows := rfl

@[simp]
theorem liveRows_append (first last : List (Row K V)) :
    liveRows (first ++ last) = liveRows first ++ liveRows last := by
  simp [liveRows]

section

variable (rows : List (Row K V))
include rows

theorem length_liveRows :
    (liveRows rows).length = rows.countP (fun row => row.2.isSome) := by
  induction rows with
  | nil => rfl
  | cons row rows ih =>
    obtain ⟨key, value⟩ := row
    cases value <;> simp [ih]

theorem mem_liveRows_iff (pair : K × V) :
    pair ∈ liveRows rows ↔ ∃ i : Nat, rows[i]? = some (pair.1, some pair.2) := by
  simp only [liveRows, mem_filterMap, map_eq_some_iff]
  constructor
  · rintro ⟨⟨key, value⟩, hmem, v, hv, rfl⟩
    obtain ⟨i, hi⟩ := mem_iff_getElem?.mp hmem
    exact ⟨i, by simpa [← hv] using hi⟩
  · rintro ⟨i, hi⟩
    exact ⟨_, mem_of_getElem? hi, pair.2, rfl, rfl⟩

theorem liveRows_filter_live :
    liveRows (rows.filter fun row => row.2.isSome) = liveRows rows := by
  induction rows with
  | nil => rfl
  | cons row rows ih =>
    obtain ⟨key, value⟩ := row
    cases value <;> simp [ih]

end

/-- How many live rows stand before row `i`: its index once the dead are
dropped. -/
def rank (rows : List (Row K V)) (i : Nat) : Nat :=
  (rows.take i).countP fun row => row.2.isSome

@[simp]
theorem rank_zero (rows : List (Row K V)) : rank rows 0 = 0 := by
  simp [rank]

variable {rows : List (Row K V)} {i : Nat} {row : Row K V}

theorem rank_succ (hrow : rows[i]? = some row) :
    rank rows (i + 1) = rank rows i + (if row.2.isSome then 1 else 0) := by
  have htake : rows.take (i + 1) = rows.take i ++ [row] := by
    rw [take_add_one, hrow]
    rfl
  rw [rank, rank, htake, countP_append, countP_singleton]

theorem rank_length (rows : List (Row K V)) :
    rank rows rows.length = rows.countP fun row => row.2.isSome := by
  simp [rank]

variable {i j : Nat}

theorem rank_mono (rows : List (Row K V)) (hij : i ≤ j) : rank rows i ≤ rank rows j :=
  ((take_prefix_take_left hij).sublist).countP_le

variable {key : K} {value : V}

theorem rank_lt_of_live (hrow : rows[i]? = some (key, some value)) (hij : i < j) :
    rank rows i < rank rows j := by
  have hsucc := rank_succ hrow
  have hmono := rank_mono rows (show i + 1 ≤ j from hij)
  simp at hsucc
  omega

/-- Where row `i` goes when the dead are dropped: its rank, or -1 for dead. -/
def newIndex (rows : List (Row K V)) (i : Nat) (row : Row K V) : Int :=
  if row.2.isSome then (rank rows i : Int) else -1

/-- A live row moves to its rank. -/
theorem getElem?_filter_rank (hrow : rows[i]? = some (key, some value)) :
    (rows.filter fun row => row.2.isSome)[rank rows i]? = some (key, some value) := by
  have hsplit : rows = rows.take i ++ (key, some value) :: rows.drop (i + 1) := by
    obtain ⟨hi, hget⟩ := List.getElem?_eq_some_iff.mp hrow
    rw [← hget, getElem_cons_drop, take_append_drop]
  have hrank : rank rows i = ((rows.take i).filter fun row => row.2.isSome).length := by
    rw [rank, countP_eq_length_filter]
  rw [hrank]
  have hfilter : (rows.filter fun row => row.2.isSome) =
      ((rows.take i).filter fun row => row.2.isSome) ++
        (key, some value) :: ((rows.drop (i + 1)).filter fun row => row.2.isSome) := by
    refine (congrArg (List.filter fun row : Row K V => row.2.isSome) hsplit).trans ?_
    simp
  rw [hfilter, List.getElem?_append_right (Nat.le_refl _)]
  simp

/-- Every row left after the dead are dropped was a live row, at its rank. -/
theorem exists_rank_of_getElem?_filter {j : Nat}
    (hrow : (rows.filter fun row => row.2.isSome)[j]? = some row) :
    ∃ i value, rows[i]? = some (row.1, some value) ∧ row.2 = some value ∧ rank rows i = j := by
  induction rows generalizing j with
  | nil => simp at hrow
  | cons head tail ih =>
    obtain ⟨key, value⟩ := head
    cases value with
    | none =>
      rw [filter_cons_of_neg (by simp)] at hrow
      obtain ⟨i, value, hi, hvalue, hrank⟩ := ih hrow
      exact ⟨i + 1, value, by simpa using hi, hvalue, by simpa [rank] using hrank⟩
    | some value =>
      rw [filter_cons_of_pos (by simp)] at hrow
      cases j with
      | zero =>
        obtain rfl : (key, some value) = row := by simpa using hrow
        exact ⟨0, value, rfl, rfl, by simp⟩
      | succ j =>
        obtain ⟨i, value', hi, hvalue, hrank⟩ := ih (by simpa using hrow)
        exact ⟨i + 1, value', by simpa using hi, hvalue, by simpa [rank] using hrank⟩

namespace EntryLog

/-- `log` holds `rows`: every field agrees with them below `count`, and the
three arrays have one capacity. -/
structure Holds (log : EntryLog K V) (rows : List (Row K V)) : Prop where
  count_eq : log.count = rows.length
  count_le : log.count ≤ log.keys.length
  length_values : log.values.length = log.keys.length
  length_alive : log.alive.length = log.keys.length
  keys_eq : ∀ {i : Nat} {row : Row K V}, rows[i]? = some row → log.keys[i]? = some (some row.1)
  values_eq : ∀ {i : Nat} {key : K} {value : V}, rows[i]? = some (key, some value) →
    log.values[i]? = some (some value)
  alive_eq : ∀ {i : Nat} {row : Row K V}, rows[i]? = some row → log.alive[i]? = some row.2.isSome
  size_eq : log.size = rows.countP (fun row => row.2.isSome)
  deleted_eq : log.deletedCount + log.size = rows.length

theorem new_holds : (new : EntryLog K V).Holds [] := by
  constructor <;> simp [new]

theorem clear_holds (log : EntryLog K V) : log.clear.Holds [] := by
  constructor <;> simp [clear]

variable {log : EntryLog K V}

section

variable (h : log.Holds rows)
include h

theorem Holds.keyAt_eq (hrow : rows[i]? = some row) :
    log.keyAt i = some row.1 := by
  simp [keyAt, GcArray.get, h.keys_eq hrow]

theorem Holds.readValue_eq
    (hrow : rows[i]? = some (key, some value)) : log.readValue i = some value := by
  simp [readValue, GcArray.get, h.values_eq hrow]

theorem Holds.isAlive_eq (hrow : rows[i]? = some row) :
    get log.alive i = some row.2.isSome :=
  h.alive_eq hrow

theorem Holds.size_eq_length : log.size = (liveRows rows).length := by
  rw [h.size_eq, length_liveRows]

end

/-- A copy of the first `len` elements keeps them. -/
theorem getElem?_copyFrom_replicate {α : Type} {cap len : Nat} {x : α} {src out : List α}
    (h : copyFrom (List.replicate cap x) 0 src 0 len = some out)
    (hi : i < len) : out[i]? = src[i]? := by
  rw [getElem?_of_copyFrom_eq_some h i]
  simp [hi]

theorem grow_holds {log : EntryLog K V} {rows : List (Row K V)} (h : log.Holds rows)
    {cap : Nat} (hcap : rows.length ≤ cap) :
    ∃ log', log.grow cap = some log' ∧ log'.Holds rows ∧ log'.keys.length = cap := by
  have hcount := h.count_eq
  have hle := h.count_le
  have hvalues := h.length_values
  have halive := h.length_alive
  obtain ⟨keys, hkeys⟩ : ∃ keys, copyFrom (List.replicate cap none) 0
      log.keys 0 log.count = some keys :=
    ⟨_, copyFrom_of_le (by simp; omega) (by omega)⟩
  obtain ⟨values, hvals⟩ : ∃ values, copyFrom (List.replicate cap none) 0
      log.values 0 log.count = some values :=
    ⟨_, copyFrom_of_le (by simp; omega) (by omega)⟩
  obtain ⟨alive, haliv⟩ : ∃ alive, copyFrom (List.replicate cap false) 0
      log.alive 0 log.count = some alive :=
    ⟨_, copyFrom_of_le (by simp; omega) (by omega)⟩
  have hlkeys := length_of_copyFrom_eq_some hkeys
  have hlvals := length_of_copyFrom_eq_some hvals
  have hlaliv := length_of_copyFrom_eq_some haliv
  simp only [length_replicate] at hlkeys hlvals hlaliv
  have hlt : ∀ {i : Nat} {row : Row K V}, rows[i]? = some row → i < log.count := by
    intro i row hrow
    have := (List.getElem?_eq_some_iff.mp hrow).1
    omega
  refine ⟨{ log with keys, values, alive }, ?_, ?_, hlkeys⟩
  · simp [grow, hkeys, hvals, haliv]
  · constructor
    · exact hcount
    · simp only [hlkeys]; omega
    · simp only [hlvals, hlkeys]
    · simp only [hlaliv, hlkeys]
    · intro i row hrow
      simpa [getElem?_copyFrom_replicate hkeys (hlt hrow)] using h.keys_eq hrow
    · intro i key value hrow
      simpa [getElem?_copyFrom_replicate hvals (hlt hrow)] using h.values_eq hrow
    · intro i row hrow
      simpa [getElem?_copyFrom_replicate haliv (hlt hrow)] using h.alive_eq hrow
    · exact h.size_eq
    · exact h.deleted_eq

section

variable (h : log.Holds rows)
include h

theorem Holds.lt_count (hrow : rows[i]? = some row) :
    i < log.count := by
  have := (List.getElem?_eq_some_iff.mp hrow).1
  have := h.count_eq
  omega

/-- Writing the three slots past the last row, where there is room for them. -/
theorem append_holds (hroom : rows.length < log.keys.length) (key : K) (value : V) :
    ({ log with
        keys := log.keys.set rows.length (some key)
        values := log.values.set rows.length (some value)
        alive := log.alive.set rows.length true
        count := rows.length + 1, size := log.size + 1 } : EntryLog K V).Holds
      (rows ++ [(key, some value)]) := by
  have hvalues := h.length_values
  have halive := h.length_alive
  have hcases : ∀ {i : Nat} {row : Row K V}, (rows ++ [(key, some value)])[i]? = some row →
        (i ≠ rows.length ∧ rows[i]? = some row) ∨ (i = rows.length ∧ row = (key, some value)) := by
    intro i row hrow
    rcases Nat.lt_trichotomy i rows.length with hlt | heq | hgt
    · rw [List.getElem?_append_left hlt] at hrow
      exact Or.inl ⟨Nat.ne_of_lt hlt, hrow⟩
    · subst heq
      simp at hrow
      exact Or.inr ⟨rfl, hrow.symm⟩
    · rw [List.getElem?_append_right (Nat.le_of_lt hgt),
        List.getElem?_eq_none (by simp; omega)] at hrow
      cases hrow
  constructor
  · simp
  · simp only [length_set]; omega
  · simp [hvalues]
  · simp [halive]
  · intro i row hrow
    rcases hcases hrow with ⟨hne, hold⟩ | ⟨rfl, rfl⟩
    · simpa [List.getElem?_set, Ne.symm hne] using h.keys_eq hold
    · simp [hroom]
  · intro i k v hrow
    rcases hcases hrow with ⟨hne, hold⟩ | ⟨rfl, heq⟩
    · simpa [List.getElem?_set, Ne.symm hne] using h.values_eq hold
    · obtain ⟨rfl, rfl⟩ : k = key ∧ v = value := by simpa using heq
      simp [hvalues, hroom]
  · intro i row hrow
    rcases hcases hrow with ⟨hne, hold⟩ | ⟨rfl, rfl⟩
    · simpa [List.getElem?_set, Ne.symm hne] using h.alive_eq hold
    · simp [halive, hroom]
  · have := h.size_eq
    simp [this]
  · have := h.deleted_eq
    simp
    omega

theorem makeRoom_holds :
    ∃ log', log.makeRoom = some log' ∧ log'.Holds rows ∧ rows.length < log'.keys.length := by
  have hcount := h.count_eq
  by_cases hfull : log.count = log.keys.length
  · obtain ⟨grown, hgrown, hholds, hcap⟩ :=
      (@grow_holds _ _ _ _ h (max 4 (log.count * 2)) (by omega))
    exact ⟨grown, by rw [makeRoom, if_pos hfull, hgrown], hholds, by omega⟩
  · have := h.count_le
    exact ⟨log, by rw [makeRoom, if_neg hfull], h, by omega⟩

theorem push_holds (key : K) (value : V) :
    ∃ log', log.push key value = some log' ∧ log'.Holds (rows ++ [(key, some value)]) := by
  have hcount := h.count_eq
  obtain ⟨roomy, hroomy, hholds, hroom⟩ := makeRoom_holds h
  refine ⟨_, ?_, append_holds hholds hroom key value⟩
  have hvalues := hholds.length_values
  have halive := hholds.length_alive
  simp only [push, hroomy, bind_eq_bind, bind_some]
  rw [set_of_lt (by omega), bind_some, set_of_lt (by omega),
    bind_some, set_of_lt (by omega)]
  simp [hcount]

end

variable {e : Nat}

variable {old : Option V}

/-- Overwriting row `e` of the rows held: the row's new value and flag. -/
theorem set_holds (h : log.Holds rows)
    (hrow : rows[e]? = some (key, old)) (value : Option V) (size deletedCount : Nat)
    (hsize : size = (rows.set e (key, value)).countP (fun row => row.2.isSome))
    (hdeleted : deletedCount + size = rows.length) :
    ({ log with
        values := log.values.set e value
        alive := log.alive.set e value.isSome
        size, deletedCount } : EntryLog K V).Holds (rows.set e (key, value)) := by
  have hlt := h.lt_count hrow
  have hle := h.count_le
  have hvalues := h.length_values
  have halive := h.length_alive
  have hcases : ∀ {i : Nat} {r : Row K V}, (rows.set e (key, value))[i]? = some r →
      (e ≠ i ∧ rows[i]? = some r) ∨ (e = i ∧ r = (key, value)) := by
    intro i r hr
    by_cases heq : e = i
    · subst heq
      rw [List.getElem?_set_self (by have := h.count_eq; omega)] at hr
      exact Or.inr ⟨rfl, (Option.some.inj hr).symm⟩
    · rw [List.getElem?_set_ne heq] at hr
      exact Or.inl ⟨heq, hr⟩
  constructor
  · simpa using h.count_eq
  · exact hle
  · simpa using hvalues
  · simpa using halive
  · intro i r hr
    rcases hcases hr with ⟨_, hold⟩ | ⟨rfl, rfl⟩
    · exact h.keys_eq hold
    · exact (@Holds.keys_eq _ _ _ _ h _ ((key, old)) hrow)
  · intro i k v hr
    rcases hcases hr with ⟨hne, hold⟩ | ⟨rfl, heq⟩
    · simpa [List.getElem?_set_ne hne] using h.values_eq hold
    · obtain ⟨_, rfl⟩ : k = key ∧ some v = value := by simpa using heq
      exact List.getElem?_set_self (by omega)
  · intro i r hr
    rcases hcases hr with ⟨hne, hold⟩ | ⟨rfl, rfl⟩
    · simpa [List.getElem?_set_ne hne] using h.alive_eq hold
    · exact List.getElem?_set_self (by omega)
  · exact hsize
  · simpa using hdeleted

/-- Rewriting row `e` changes the number of live rows by that row alone. -/
theorem countP_set (hrow : rows[e]? = some (key, old)) (value : Option V) :
    (rows.set e (key, value)).countP (fun row => row.2.isSome) + (if old.isSome then 1 else 0) =
      rows.countP (fun row => row.2.isSome) + (if value.isSome then 1 else 0) := by
  induction rows generalizing e with
  | nil => simp at hrow
  | cons head tail ih =>
    cases e with
    | zero =>
      obtain rfl : head = (key, old) := by simpa using hrow
      simp only [set_cons_zero, countP_cons]
      omega
    | succ e =>
      have := ih (e := e) (by simpa using hrow)
      simp only [set_cons_succ, countP_cons]
      omega

theorem kill_holds (h : log.Holds rows) (hrow : rows[e]? = some (key, some value)) :
    ∃ log' full, log.kill e = some (log', full) ∧ log'.Holds (rows.set e (key, none)) := by
  have hlt := h.lt_count hrow
  have hle := h.count_le
  have hvalues := h.length_values
  have halive := h.length_alive
  have hsize := h.size_eq
  have hdeleted := h.deleted_eq
  have hcount := countP_set hrow none
  simp only [isSome_some, if_true, isSome_none, Bool.false_eq_true,
    if_false] at hcount
  refine ⟨_, decide (log.deletedCount + 1 > log.size - 1 ∧ log.deletedCount + 1 > 4), ?_,
    set_holds h hrow none (log.size - 1) (log.deletedCount + 1) (by omega) (by omega)⟩
  have hguard : log.alive[e]? = some true := h.alive_eq hrow
  simp only [kill, hguard]
  rw [set_of_lt (by omega), set_of_lt (by omega)]
  rfl

theorem setValue_holds (h : log.Holds rows)
    {old : V} (hrow : rows[e]? = some (key, some old)) (value : V) :
    ∃ log', log.setValue e value = some log' ∧ log'.Holds (rows.set e (key, some value)) := by
  have hlt := h.lt_count hrow
  have hle := h.count_le
  have hvalues := h.length_values
  have hcount := countP_set hrow (some value)
  have hset := set_holds h hrow (some value) log.size log.deletedCount
    (by have := h.size_eq; simp only [isSome_some, if_true] at hcount; omega)
    h.deleted_eq
  have hsame : log.alive.set e (some value).isSome = log.alive := by
    obtain ⟨_, hget⟩ := List.getElem?_eq_some_iff.mp (h.alive_eq hrow)
    simp only [isSome_some] at hget ⊢
    rw [← hget, set_getElem_self]
  rw [hsame] at hset
  refine ⟨_, ?_, hset⟩
  rw [setValue, set_of_lt (by omega)]
  rfl

/-- What the compaction loop has done once it stands at index `i`: every live
row before it is copied to its rank. -/
structure Compacted (log : EntryLog K V) (rows : List (Row K V)) (i : Nat)
    (c : Compacting K V) : Prop where
  live_eq : c.live = rank rows i
  length_renumbered : c.renumbered.length = rows.length
  length_keys : c.keys.length = log.size
  length_values : c.values.length = log.size
  renumbered_eq : ∀ {j : Nat} {row : Row K V}, j < i → rows[j]? = some row →
    c.renumbered[j]? = some (newIndex rows j row)
  pending_eq : ∀ {j : Nat}, i ≤ j → j < rows.length → c.renumbered[j]? = some (-1)
  keys_eq : ∀ {j : Nat} {key : K} {value : V}, j < i → rows[j]? = some (key, some value) →
    c.keys[rank rows j]? = some (some key)
  values_eq : ∀ {j : Nat} {key : K} {value : V}, j < i →
    rows[j]? = some (key, some value) → c.values[rank rows j]? = some (some value)

theorem lt_succ_cases (h : j < i + 1) : j < i ∨ j = i := by
  omega

theorem compactStep_compacted (h : log.Holds rows) (hrow : rows[i]? = some row)
    {c : Compacting K V} (hc : Compacted log rows i c) :
    ∃ c', log.compactStep c i = some c' ∧ Compacted log rows (i + 1) c' := by
  have hlt := (List.getElem?_eq_some_iff.mp hrow).1
  have hrank := rank_succ hrow
  have halive : get log.alive i = some row.2.isSome := h.isAlive_eq hrow
  obtain ⟨key, value⟩ := row
  cases value with
  | none =>
    simp only [isSome_none, Bool.false_eq_true, if_false, Nat.add_zero] at hrank
    refine ⟨c, by simp [compactStep, halive], ?_⟩
    constructor
    · rw [hrank, hc.live_eq]
    · exact hc.length_renumbered
    · exact hc.length_keys
    · exact hc.length_values
    · intro j row' hj hrow'
      rcases lt_succ_cases hj with hlt' | rfl
      · exact hc.renumbered_eq hlt' hrow'
      · obtain rfl : (key, none) = row' := Option.some.inj (hrow.symm.trans hrow')
        exact hc.pending_eq (Nat.le_refl _) hlt
    · intro j hij hj
      exact hc.pending_eq (by omega) hj
    · intro j key' value' hj hrow'
      rcases lt_succ_cases hj with hlt' | rfl
      · exact hc.keys_eq hlt' hrow'
      · simp [hrow] at hrow'
    · intro j key' value' hj hrow'
      rcases lt_succ_cases hj with hlt' | rfl
      · exact hc.values_eq hlt' hrow'
      · simp [hrow] at hrow'
  | some value =>
    simp only [isSome_some, if_true] at hrank
    have hroom : c.live < log.size := by
      have := rank_lt_of_live hrow hlt
      rw [h.size_eq, hc.live_eq, ← rank_length]
      exact this
    have hlrenum := hc.length_renumbered
    have hlkeys := hc.length_keys
    have hlvals := hc.length_values
    -- A live row already copied went to a smaller rank than this one's.
    have hbefore : ∀ {j : Nat} {key' : K} {value' : V}, j < i →
        rows[j]? = some (key', some value') → c.live ≠ rank rows j := by
      intro j key' value' hj hrow'
      have := rank_lt_of_live hrow' hj
      have := hc.live_eq
      omega
    have hkey : get log.keys i = some (some key) := h.keys_eq hrow
    have hvalue : get log.values i = some (some value) := h.values_eq hrow
    refine ⟨⟨c.renumbered.set i c.live, c.keys.set c.live (some key),
      c.values.set c.live (some value), c.live + 1⟩, ?_, ?_⟩
    · simp only [compactStep, halive, hkey, hvalue, bind_eq_bind, bind_some,
        isSome_some, if_true]
      rw [set_of_lt (by omega), bind_some, set_of_lt (by omega),
        bind_some, set_of_lt (by omega)]
      rfl
    · constructor
      · simp only [hc.live_eq, hrank]
      · simpa using hlrenum
      · simpa using hlkeys
      · simpa using hlvals
      · intro j row' hj hrow'
        rcases lt_succ_cases hj with hlt' | rfl
        · simpa [List.getElem?_set_ne (Nat.ne_of_gt hlt')] using hc.renumbered_eq hlt' hrow'
        · obtain rfl : (key, some value) = row' := Option.some.inj (hrow.symm.trans hrow')
          simp [newIndex, hc.live_eq, hlrenum, hlt]
      · intro j hij hj
        rw [List.getElem?_set_ne (by omega)]
        exact hc.pending_eq (by omega) hj
      · intro j key' value' hj hrow'
        rcases lt_succ_cases hj with hlt' | rfl
        · rw [List.getElem?_set_ne (hbefore hlt' hrow')]
          exact hc.keys_eq hlt' hrow'
        · obtain ⟨rfl, rfl⟩ : key = key' ∧ value = value' := by simpa [hrow] using hrow'
          rw [← hc.live_eq, List.getElem?_set_self (by omega)]
      · intro j key' value' hj hrow'
        rcases lt_succ_cases hj with hlt' | rfl
        · rw [List.getElem?_set_ne (hbefore hlt' hrow')]
          exact hc.values_eq hlt' hrow'
        · obtain ⟨rfl, rfl⟩ : key = key' ∧ value = value' := by simpa [hrow] using hrow'
          rw [← hc.live_eq, List.getElem?_set_self (by omega)]

theorem compactLoop_compacted (h : log.Holds rows) (hi : i ≤ rows.length) :
    ∃ c, (List.range i).foldlM log.compactStep
        ⟨List.replicate log.count (-1), List.replicate log.size none,
          List.replicate log.size none, 0⟩ = some c ∧ Compacted log rows i c := by
  induction i with
  | zero =>
    refine ⟨_, rfl, ?_⟩
    constructor <;> simp [h.count_eq]
    intro j hj
    simp [hj]
  | succ i ih =>
    obtain ⟨c, hfold, hc⟩ := ih (by omega)
    obtain ⟨row, hrow⟩ : ∃ row, rows[i]? = some row :=
      ⟨_, List.getElem?_eq_getElem (by omega)⟩
    obtain ⟨c', hstep, hc'⟩ := compactStep_compacted h hrow hc
    refine ⟨c', ?_, hc'⟩
    rw [range_succ, foldlM_append, hfold]
    simp [hstep]

/-- `compact` keeps the live rows in order and answers where each row went. -/
theorem compact_holds {log : EntryLog K V} {rows : List (Row K V)} (h : log.Holds rows) :
    ∃ log' renumbered, log.compact = some (log', renumbered) ∧
      log'.Holds (rows.filter fun row => row.2.isSome) ∧
      renumbered.length = rows.length ∧
      ∀ {i : Nat} {row : Row K V}, rows[i]? = some row →
        renumbered[i]? = some (newIndex rows i row) := by
  obtain ⟨c, hfold, hc⟩ := compactLoop_compacted h (Nat.le_refl rows.length)
  have hlive : (rows.filter fun row => row.2.isSome).length = log.size := by
    rw [h.size_eq, countP_eq_length_filter]
  refine ⟨⟨c.keys, c.values, List.replicate log.size true, log.size, log.size, 0⟩,
    c.renumbered, ?_, ?_, hc.length_renumbered, ?_⟩
  · rw [← h.count_eq] at hfold
    simp only [compact, bind_eq_bind]
    rw [hfold]
    rfl
  · constructor
    · exact hlive.symm
    · simp [hc.length_keys]
    · simp [hc.length_keys, hc.length_values]
    · simp [hc.length_keys]
    · intro j row hrow
      obtain ⟨i, value, hi, -, rfl⟩ := exists_rank_of_getElem?_filter hrow
      exact hc.keys_eq (List.getElem?_eq_some_iff.mp hi).1 hi
    · intro j key value hrow
      obtain ⟨i, value', hi, hvalue, rfl⟩ := exists_rank_of_getElem?_filter hrow
      obtain rfl : value = value' := by simpa using hvalue
      exact hc.values_eq (List.getElem?_eq_some_iff.mp hi).1 hi
    · intro j row hrow
      have hlt := (List.getElem?_eq_some_iff.mp hrow).1
      obtain ⟨i, value, -, hvalue, -⟩ := exists_rank_of_getElem?_filter hrow
      rw [hvalue]
      exact List.getElem?_eq_some_iff.mpr ⟨by simp; omega, by simp⟩
    · simp [countP_eq_length_filter, hlive]
    · simp [hlive]
  · intro i row hrow
    exact hc.renumbered_eq (List.getElem?_eq_some_iff.mp hrow).1 hrow

theorem Holds.valueAt_eq (h : log.Holds rows)
    (hrow : rows[i]? = some (key, some value)) : log.valueAt i = some (some value) := by
  simp [valueAt, h.readValue_eq hrow]

@[simp]
theorem valueAt_miss (log : EntryLog K V) : log.valueAt (-1) = some none := by
  simp [valueAt]

variable {log : EntryLog K V} {rows : List (Row K V)}

section

variable (h : log.Holds rows)
include h

/-- Skipping from `i` stops at the next live row, or at the end. -/
theorem nextLiveFrom_holds (fuel : Nat) {i : Nat} (hfuel : fuel + i = rows.length) :
    ∃ j, log.nextLiveFrom fuel i = some j ∧ i ≤ j ∧ j ≤ rows.length ∧
      liveRows (rows.drop i) = liveRows (rows.drop j) ∧
      ∀ {row : Row K V}, rows[j]? = some row → row.2.isSome := by
  induction fuel generalizing i with
  | zero =>
    refine ⟨i, rfl, Nat.le_refl _, by omega, rfl, ?_⟩
    intro row hrow
    have := (List.getElem?_eq_some_iff.mp hrow).1
    omega
  | succ fuel ih =>
    have hlt : i < rows.length := by omega
    obtain ⟨⟨key, value⟩, hrow⟩ : ∃ row, rows[i]? = some row :=
      ⟨_, List.getElem?_eq_getElem hlt⟩
    have halive := h.isAlive_eq hrow
    cases value with
    | some value =>
      refine ⟨i, by simp [nextLiveFrom, halive], Nat.le_refl _, by omega, rfl, ?_⟩
      intro row hrow'
      obtain rfl : (key, some value) = row := Option.some.inj (hrow.symm.trans hrow')
      rfl
    | none =>
      obtain ⟨j, hj, hij, hle, hlive, hrows⟩ := ih (i := i + 1) (by omega)
      refine ⟨j, by simp [nextLiveFrom, halive, hj], by omega, hle, ?_, hrows⟩
      obtain ⟨_, hget⟩ := List.getElem?_eq_some_iff.mp hrow
      rw [← hlive, drop_eq_getElem_cons hlt, hget, liveRows_cons_dead]

theorem nextLive_holds {i : Nat} (hi : i ≤ rows.length) :
    ∃ j, log.nextLive i = some j ∧ i ≤ j ∧ j ≤ rows.length ∧
      liveRows (rows.drop i) = liveRows (rows.drop j) ∧
      ∀ {row : Row K V}, rows[j]? = some row → row.2.isSome := by
  by_cases hdead : log.deletedCount > 0
  · have hcount := h.count_eq
    obtain ⟨j, hj, hrest⟩ := nextLiveFrom_holds h
      (log.count - i) (i := i) (by omega)
    exact ⟨j, by rw [nextLive, if_pos hdead, hj], hrest⟩
  · refine ⟨i, by rw [nextLive, if_neg hdead], Nat.le_refl _, hi, rfl, ?_⟩
    intro row hrow
    have hall : rows.countP (fun row => row.2.isSome) = rows.length := by
      have := h.size_eq
      have := h.deleted_eq
      omega
    exact countP_eq_length.mp hall row (mem_of_getElem? hrow)

theorem entriesFrom_holds (fuel : Nat) {i : Nat} (hfuel : rows.length < fuel + i)
    (hi : i ≤ rows.length) :
    log.entriesFrom fuel i = some (liveRows (rows.drop i)) := by
  have hcount := h.count_eq
  induction fuel generalizing i with
  | zero => omega
  | succ fuel ih =>
    obtain ⟨j, hj, hij, hle, hlive, hrows⟩ := nextLive_holds h hi
    rw [hlive]
    by_cases hend : j ≥ log.count
    · have : rows.drop j = [] := drop_eq_nil_of_le (by omega)
      simp [entriesFrom, entriesNext, hj, hend, this]
    · have hlt : j < rows.length := by omega
      obtain ⟨⟨key, value⟩, hrow⟩ : ∃ row, rows[j]? = some row :=
        ⟨_, List.getElem?_eq_getElem hlt⟩
      obtain ⟨value, rfl⟩ := Option.isSome_iff_exists.mp (hrows hrow)
      obtain ⟨_, hget⟩ := List.getElem?_eq_some_iff.mp hrow
      rw [drop_eq_getElem_cons hlt, hget, liveRows_cons_live]
      simp only [entriesFrom, entriesNext, hj, h.keyAt_eq hrow, h.readValue_eq hrow,
        Option.bind_eq_bind, Option.bind_some, if_neg hend, Option.pure_def]
      rw [ih (i := j + 1) (by omega) (by omega)]
      rfl

/-- `entries` yields the live rows in insertion order. -/
theorem Holds.entries_eq : log.entries = some (liveRows rows) := by
  have := entriesFrom_holds h (log.count + 1) (i := 0)
    (by have := h.count_eq; omega) (Nat.zero_le _)
  simpa [entries] using this

end

section Compare

variable {other : EntryLog K V}

/-- Where a loop over the live entries stands: at one with those after it, or at the end. -/
inductive At (log : EntryLog K V) : Nat → List (K × V) → Prop
  | entry {i next : Nat} {key : K} {value : V} {pairs : List (K × V)} (hi : i < log.count)
      (hkey : log.keyAt i = some key) (hvalue : log.readValue i = some value)
      (hnext : log.nextLive (i + 1) = some next) (hat : At log next pairs) :
      At log i ((key, value) :: pairs)
  | done {i : Nat} (hi : ¬ i < log.count) : At log i []

theorem exists_at (h : log.Holds rows) {i : Nat} (hi : i ≤ rows.length) :
    ∃ j, log.nextLive i = some j ∧ log.At j (liveRows (rows.drop i)) := by
  obtain ⟨n, hn⟩ : ∃ n, n = rows.length - i := ⟨_, rfl⟩
  induction n using Nat.strongRecOn generalizing i with
  | ind n ih =>
    obtain ⟨j, hj, hij, hle, hlive, hrows⟩ := nextLive_holds h hi
    refine ⟨j, hj, ?_⟩
    rw [hlive]
    by_cases hlt : j < rows.length
    · obtain ⟨value, hvalue⟩ := isSome_iff_exists.mp (hrows (List.getElem?_eq_getElem hlt))
      have hrow : rows[j]? = some (rows[j].1, some value) := by
        rw [List.getElem?_eq_getElem hlt, ← hvalue]
      obtain ⟨next, hnext, hat⟩ := @ih (rows.length - (j + 1)) (by omega) (j + 1) (by omega) rfl
      have hpair : rows[j] = (rows[j].1, some value) := Prod.ext rfl hvalue
      rw [drop_eq_getElem_cons hlt, hpair, liveRows_cons_live]
      exact .entry (h.count_eq ▸ hlt) (h.keyAt_eq (List.getElem?_eq_getElem hlt))
        (h.readValue_eq hrow) hnext hat
    · rw [drop_eq_nil_of_le (by omega)]
      exact .done (h.count_eq ▸ hlt)

variable {i j fuel : Nat} {pairs pairs' : List (K × V)}

theorem eqFrom_eq [BEq K] [BEq V]
    (hat : log.At i pairs) (hat' : other.At j pairs') (hlength : pairs.length = pairs'.length)
    (hfuel : pairs.length < fuel) : log.eqFrom other fuel i j = some (pairs == pairs') := by
  induction hat generalizing j pairs' fuel with
  | done hi =>
    obtain ⟨fuel, rfl⟩ := Nat.exists_eq_add_one.mpr hfuel
    obtain rfl := length_eq_zero_iff.mp hlength.symm
    rw [eqFrom, if_neg hi]
    rfl
  | @entry _ _ key value pairs hi hkey hvalue hnext _ ih =>
    obtain ⟨fuel, rfl⟩ : ∃ n, fuel = n + 1 := Nat.exists_eq_add_one.mpr (by omega)
    cases hat' with
    | done => cases hlength
    | @entry _ _ key' value' pairs' _ hkey' hvalue' hnext' hat' =>
      have hrec := ih hat' (by simpa using hlength) (by simpa using hfuel)
      have hcons : ((key, value) :: pairs == (key', value') :: pairs') =
          (key == key' && value == value' && pairs == pairs') := rfl
      simp only [eqFrom, if_pos hi, hkey, hkey', hvalue, hvalue', hnext, hnext', hrec, hcons,
        bind_eq_bind, bind_some]
      unfold bne
      cases key == key' <;> cases value == value' <;> rfl

theorem cmpFrom_eq [Ord K] [Ord V] (hat : log.At i pairs) (hat' : other.At j pairs')
    (hsize : log.size + pairs'.length = other.size + pairs.length) (hfuel : pairs.length < fuel) :
    log.cmpFrom other fuel i j = some (List.compareLex
      (fun a b => (compare a.1 b.1).then (compare a.2 b.2)) pairs pairs') := by
  induction hat generalizing j pairs' fuel with
  | done hi =>
    obtain ⟨fuel, rfl⟩ := Nat.exists_eq_add_one.mpr hfuel
    rw [cmpFrom, if_neg (fun h => hi h.1)]
    cases pairs' with
    | nil => exact congrArg some (Nat.compare_eq_eq.mpr hsize)
    | cons pair pairs' =>
      exact congrArg some (Nat.compare_eq_lt.mpr (by simp at hsize; omega))
  | @entry _ _ key value pairs hi hkey hvalue hnext _ ih =>
    obtain ⟨fuel, rfl⟩ : ∃ n, fuel = n + 1 := Nat.exists_eq_add_one.mpr (by omega)
    cases hat' with
    | done hj =>
      rw [cmpFrom, if_neg (fun h => hj h.2)]
      exact congrArg some (Nat.compare_eq_gt.mpr (by simp at hsize; omega))
    | @entry _ _ key' value' pairs' hj hkey' hvalue' hnext' hat' =>
      have hrec := ih hat' (by simp at hsize; omega) (by simpa using hfuel)
      simp only [cmpFrom, if_pos (And.intro hi hj), hkey, hkey', hvalue, hvalue', hnext, hnext',
        hrec, bind_eq_bind, bind_some, List.compareLex_cons_cons]
      cases compare key key' <;> cases compare value value' <;> rfl

end Compare

end EntryLog

end Wado
