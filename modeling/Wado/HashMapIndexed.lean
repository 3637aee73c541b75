/-
What a `HashMap`'s table and fingerprints say about its entries: every live
entry is in the table, no two keys in the table are equal, and every entry in
it can be reached from its home slot.  A lookup therefore ends, at the slot of
its key or at an empty one.
-/
import Wado.HashMap
import Mathlib.Tactic.Ring

namespace Wado

variable {K V : Type}

theorem go_two_pow (fuel p : Nat) : ctz.go fuel (2 ^ p) = min p fuel := by
  induction fuel generalizing p with
  | zero => simp [ctz.go]
  | succ fuel ih =>
    cases p with
    | zero => simp [ctz.go]
    | succ p =>
      have heven : 2 ^ (p + 1) % 2 = 0 := by rw [Nat.pow_succ]; omega
      have hhalf : 2 ^ (p + 1) / 2 = 2 ^ p := by rw [Nat.pow_succ]; omega
      simp only [ctz.go, heven, hhalf, ih]
      rw [if_neg (by omega)]
      omega

theorem ctz_two_pow (p : Nat) : ctz (2 ^ p) = min p 32 :=
  go_two_pow 32 p

namespace HashMap

open LinearProbe

/-- A fingerprint's home is one of the table's slots. -/
theorem home_lt {p : Nat} (hp : 1 ≤ p) (fp : BitVec 32) : home (32 - ctz (2 ^ p)) fp < 2 ^ p := by
  have hfp : fp.toNat < 2 ^ 32 := fp.isLt
  rw [ctz_two_pow, home, BitVec.toNat_ushiftRight, Nat.shiftRight_eq_div_pow]
  rcases Nat.lt_or_ge p 32 with hlt | hge
  · have hshift : (32 - min p 32) % 32 = 32 - p := by
      rw [Nat.min_eq_left (by omega), Nat.mod_eq_of_lt (by omega)]
    rw [hshift, Nat.div_lt_iff_lt_mul (Nat.two_pow_pos _), ← Nat.pow_add]
    rwa [show p + (32 - p) = 32 by omega]
  · have hshift : (32 - min p 32) % 32 = 0 := by
      rw [Nat.min_eq_right (by omega)]
    rw [hshift, Nat.pow_zero, Nat.div_one]
    exact Nat.lt_of_lt_of_le hfp (Nat.pow_le_pow_right (by omega) hge)

variable [BEq K] [Hash K]

/-- The table of `map` and its fingerprints index `rows`. -/
structure Indexed (map : HashMap K V) (rows : List (Row K V)) : Prop where
  size_eq : map.table = [] ∨ ∃ p, 3 ≤ p ∧ map.table.length = 2 ^ p ∧ map.shift = 32 - ctz (2 ^ p)
  half : rows.length * 2 ≤ map.table.length
  fps_eq : ∀ {i : Nat} {row : Row K V}, rows[i]? = some row →
    map.fps[i]? = some (fingerprint map.seed row.1)
  slots : Slots map.table
  row_of : ∀ {s i : Nat}, map.table[s]? = some (i : Int) → ∃ row, rows[i]? = some row
  reaches : ∀ {s i : Nat} {row : Row K V}, map.table[s]? = some (i : Int) → rows[i]? = some row →
      Reaches map.table (home map.shift (fingerprint map.seed row.1)) s
  slot_of_live : ∀ {i : Nat} {key : K} {value : V}, rows[i]? = some (key, some value) →
    ∃ s : Nat, map.table[s]? = some (i : Int)
  distinct : ∀ {s s' i i' : Nat} {row row' : Row K V},
    map.table[s]? = some (i : Int) → map.table[s']? = some (i' : Int) →
      rows[i]? = some row → rows[i']? = some row' → (row.1 == row'.1) = true → s = s'

theorem withSeed_indexed (seed : HashSeed) : (withSeed seed : HashMap K V).Indexed [] := by
  constructor <;> simp [withSeed]
  exact replicate_slots 0

theorem clear_indexed (map : HashMap K V) : map.clear.Indexed [] := by
  constructor <;> simp [clear]
  exact replicate_slots 0

variable {map : HashMap K V} {rows : List (Row K V)}

theorem Indexed.liveDistinct (h : map.Indexed rows) : LiveDistinct (· == ·) rows := by
  intro i j key key' value value' hi hj hsame
  obtain ⟨s, hs⟩ := h.slot_of_live hi
  obtain ⟨s', hs'⟩ := h.slot_of_live hj
  obtain rfl := h.distinct hs hs' hi hj hsame
  have : (i : Int) = j := Option.some.inj (hs.symm.trans hs')
  omega

/-- A table that has slots keeps one of them empty. -/
theorem Indexed.exists_empty {map : HashMap K V} {rows : List (Row K V)}
    (h : map.Indexed rows) (hsome : map.table ≠ []) :
    ∃ s : Nat, map.table[s]? = some noEntry := by
  have hpos := List.length_pos_iff.mpr hsome
  have hhalf := h.half
  refine (@Slots.exists_empty _ h.slots rows.length ?_ (by omega))
  intro s i hi
  obtain ⟨row, hrow⟩ := h.row_of hi
  exact (List.getElem?_eq_some_iff.mp hrow).1

/-- Overwriting a row's value, or killing it, needs no change to the table. -/
theorem Indexed.set (h : map.Indexed rows)
    {e : Nat} {key : K} {old : V} (hrow : rows[e]? = some (key, some old))
    (value : Option V) (log : EntryLog K V) :
    Indexed { map with log } (rows.set e (key, value)) := by
  have hlt := (List.getElem?_eq_some_iff.mp hrow).1
  -- A row keeps its key.
  have hkey : ∀ {i : Nat} {row : Row K V}, (rows.set e (key, value))[i]? = some row →
      ∃ row', rows[i]? = some row' ∧ row'.1 = row.1 ∧ (row.2.isSome → row'.2.isSome) := by
    intro i row hi
    by_cases heq : e = i
    · subst heq
      rw [List.getElem?_set_self hlt] at hi
      obtain rfl := Option.some.inj hi
      exact ⟨_, hrow, rfl, fun _ => rfl⟩
    · rw [List.getElem?_set_ne heq] at hi
      exact ⟨row, hi, rfl, id⟩
  constructor
  · exact h.size_eq
  · simpa using h.half
  · intro i row hi
    obtain ⟨row', hrow', heq, -⟩ := hkey hi
    rw [← heq]
    exact h.fps_eq hrow'
  · exact h.slots
  · intro s i hs
    obtain ⟨row, hi⟩ := h.row_of hs
    exact ⟨_, List.getElem?_eq_getElem
      (by simpa using (List.getElem?_eq_some_iff.mp hi).1)⟩
  · intro s i row hs hi
    obtain ⟨row', hrow', heq, -⟩ := hkey hi
    rw [← heq]
    exact h.reaches hs hrow'
  · intro i k v hi
    obtain ⟨⟨k', v'⟩, hrow', -, hlive⟩ := hkey hi
    obtain ⟨v', rfl⟩ := Option.isSome_iff_exists.mp (hlive rfl)
    exact h.slot_of_live hrow'
  · intro s s' i i' row row' hs hs' hi hi' hsame
    obtain ⟨_, hrow₁, heq₁, -⟩ := hkey hi
    obtain ⟨_, hrow₂, heq₂, -⟩ := hkey hi'
    exact h.distinct hs hs' hrow₁ hrow₂ (by rw [heq₁, heq₂]; exact hsame)

section Lookup

variable {map : HashMap K V} {rows : List (Row K V)}

omit [Hash K] in
theorem findSlotAt_empty {s : Nat} (hs : map.table[s]? = some noEntry)
    (key : K) (fp : BitVec 32) :
    map.findSlotAt key fp s = some (some (-1 - (s : Int))) := by
  simp [findSlotAt, GcArray.get, hs]

omit [Hash K] in
theorem findSlotAt_entry {s i : Nat} {found fp : BitVec 32} {held : K}
    (hs : map.table[s]? = some (i : Int)) (hfp : map.fps[i]? = some found)
    (hkey : map.log.keyAt i = some held) (key : K) :
    map.findSlotAt key fp s =
      some (if found = fp ∧ (held == key) = true then some (s : Int) else none) := by
  have hne : (i : Int) ≠ noEntry := by simp only [noEntry]; omega
  by_cases hfp' : found = fp <;> by_cases hkey' : (held == key) = true <;>
    simp [findSlotAt, GcArray.get, hs, hne, hfp, hkey, hfp', hkey']

theorem fingerprint_eq [LawfulHash K] {a b : K} (hab : (a == b) = true)
    (seed : HashSeed) : fingerprint seed a = fingerprint seed b := by
  rw [fingerprint, fingerprint, LawfulHash.hash_eq hab]

/-- `find_slot` ends: at the first empty slot, and then no key in the table is
equal to `key`, or at the slot of a key that is. -/
theorem findSlot_cases [LawfulHash K] (h : map.Indexed rows) (hlog : map.log.Holds rows)
    (hsome : map.table ≠ []) (key : K) :
    ∃ s < map.table.length, Reaches map.table (home map.shift (fingerprint map.seed key)) s ∧
      ((map.findSlot key (fingerprint map.seed key) = some (-1 - (s : Int)) ∧
          map.table[s]? = some noEntry ∧
          ∀ {s' i : Nat} {row : Row K V}, map.table[s']? = some (i : Int) →
            rows[i]? = some row → (row.1 == key) = false) ∨
        ∃ (i : Nat) (row : Row K V), map.findSlot key (fingerprint map.seed key) = some (s : Int) ∧
          map.table[s]? = some (i : Int) ∧ rows[i]? = some row ∧
          (row.1 == key) = true) := by
  obtain ⟨p, hp, hlen, hshift⟩ := h.size_eq.resolve_left hsome
  have hhome : home map.shift (fingerprint map.seed key) < 2 ^ p := by
    rw [hshift]
    exact home_lt (by omega) _
  let holdsKey (s : Nat) : Prop := ∃ (i : Nat) (row : Row K V),
    map.table[s]? = some (i : Int) ∧ rows[i]? = some row ∧ (row.1 == key) = true
  -- The probe stops at the first slot that is empty or holds the key.
  obtain ⟨k, hk, hstop, hcrowded, hbefore⟩ :=
    h.slots.exists_first (by rw [hlen]; exact hhome)
      (fun s => map.table[s]? = some noEntry ∨ holdsKey s)
      (fun s hs => Or.inl hs) (h.exists_empty hsome)
  have hpass : ∀ j < k, map.findSlotAt key (fingerprint map.seed key)
      ((home map.shift (fingerprint map.seed key) + j) % 2 ^ p) = some none := by
    intro j hj
    obtain ⟨i, hi⟩ := hcrowded j hj
    obtain ⟨row, hrow⟩ := h.row_of hi
    have hother : ¬ (row.1 == key) = true := fun hsame =>
      hbefore j hj (Or.inr ⟨i, row, hi, hrow, hsame⟩)
    rw [← hlen, findSlotAt_entry hi (h.fps_eq hrow) (hlog.keyAt_eq hrow),
      if_neg fun hboth => hother hboth.2]
  refine ⟨_, Nat.mod_lt _ (by omega), ⟨k, hk, rfl, hcrowded⟩, ?_⟩
  rw [hlen] at hstop ⊢
  have hprobe : ∀ {answer : Int}, map.findSlotAt key (fingerprint map.seed key)
      ((home map.shift (fingerprint map.seed key) + k) % 2 ^ p) = some (some answer) →
        map.findSlot key (fingerprint map.seed key) = some answer := by
    intro answer hanswer
    rw [findSlot, hlen]
    exact probe_eq_some (by omega) hhome hpass hanswer
  rcases hstop with hempty | ⟨i, row, hs, hrow, hsame⟩
  · refine Or.inl ⟨hprobe (findSlotAt_empty hempty _ _), hempty, ?_⟩
    intro s' i row hs' hrow
    by_contra hsame
    rw [Bool.not_eq_false] at hsame
    -- The key's own slot is reached before any empty one.
    obtain ⟨k', hk', hsteps, hcrowded'⟩ := h.reaches hs' hrow
    rw [fingerprint_eq hsame] at hsteps hcrowded'
    rcases Nat.lt_trichotomy k k' with hlt | rfl | hgt
    · obtain ⟨j, hj⟩ := hcrowded' k hlt
      rw [hlen, hempty] at hj
      have : noEntry = (j : Int) := Option.some.inj hj
      simp only [noEntry] at this
      omega
    · rw [← hsteps, hlen, hempty] at hs'
      have : noEntry = (i : Int) := Option.some.inj hs'
      simp only [noEntry] at this
      omega
    · exact hbefore k' hgt (Or.inr ⟨i, row, by rw [hsteps]; exact hs', hrow, hsame⟩)
  · refine Or.inr ⟨i, row, hprobe ?_, hs, hrow, hsame⟩
    rw [findSlotAt_entry hs (h.fps_eq hrow) (hlog.keyAt_eq hrow),
      if_pos ⟨fingerprint_eq hsame _, hsame⟩]

/-- `find_index` answers the live row of `key`, or -1 when it has none. -/
theorem findIndex_cases [LawfulHash K] [PartialEquivBEq K] (h : map.Indexed rows)
    (hlog : map.log.Holds rows) (key : K) :
    (map.findIndex key = some (-1) ∧ LiveAbsent (· == ·) rows key) ∨
      ∃ (i : Nat) (key' : K) (value : V), map.findIndex key = some (i : Int) ∧
        rows[i]? = some (key', some value) ∧ (key' == key) = true := by
  by_cases hcount : map.log.count = 0
  · refine Or.inl ⟨by simp [findIndex, hcount], ?_⟩
    intro i key' value hrow
    have := hlog.lt_count hrow
    omega
  · have hsome : map.table ≠ [] := by
      intro hnil
      have hhalf := h.half
      have := hlog.count_eq
      rw [hnil, List.length_nil] at hhalf
      omega
    obtain ⟨s, hlt, -, hcases⟩ := findSlot_cases h hlog hsome key
    rcases hcases with ⟨hfind, -, habsent⟩ | ⟨i, row, hfind, hs, hrow, hsame⟩
    · refine Or.inl ⟨?_, ?_⟩
      · have hneg : -1 - (s : Int) < 0 := by omega
        simp [findIndex, hcount, hfind, hneg]
      · intro i key' value hrow
        obtain ⟨s', hs'⟩ := h.slot_of_live hrow
        exact habsent hs' hrow
    · have hneg : ¬ (s : Int) < 0 := by omega
      have hindex : map.findIndex key = some (if row.2.isSome then (i : Int) else -1) := by
        simp [findIndex, hcount, hfind, hneg, GcArray.get, hs, hlog.alive_eq hrow]
      obtain ⟨key', value⟩ := row
      cases value with
      | some value => exact Or.inr ⟨i, key', value, hindex, hrow, hsame⟩
      | none =>
        refine Or.inl ⟨hindex, ?_⟩
        intro j key'' value hj
        by_contra hsame'
        rw [Bool.not_eq_false] at hsame'
        -- The dead entry holds the only slot of its key.
        obtain ⟨s', hs'⟩ := h.slot_of_live hj
        have heq : (key'' == key') = true :=
          PartialEquivBEq.trans hsame' (PartialEquivBEq.symm hsame)
        obtain rfl := h.distinct hs' hs hj hrow heq
        have : (j : Int) = i := Option.some.inj (hs'.symm.trans hs)
        obtain rfl : j = i := by omega
        simp [hrow] at hj

end Lookup

end HashMap

end Wado

/-
Rebuilding the table and claiming a slot: the two places a `HashMap`'s table is
written.  Both keep it an index of the entries.
-/

namespace Wado

namespace HashMap

open LinearProbe

variable {K V : Type} [BEq K] [Hash K] {map : HashMap K V} {rows : List (Row K V)}

variable {table : List Int}

/-- The rebuilding loop's probe stops at the first empty slot from the home on. -/
theorem freeSlot_eq_some {p : Nat} (hp : 1 ≤ p) (hlen : table.length = 2 ^ p) (hslots : Slots table)
    (hempty : ∃ s : Nat, table[s]? = some noEntry) (fp : BitVec 32) :
    ∃ s < table.length, freeSlot table (32 - ctz (2 ^ p)) fp = some s ∧
      table[s]? = some noEntry ∧ Reaches table (home (32 - ctz (2 ^ p)) fp) s := by
  have hhome := home_lt hp fp
  obtain ⟨k, hk, hstop, hcrowded, -⟩ :=
    hslots.exists_first (by rw [hlen]; exact hhome)
      (fun s => table[s]? = some noEntry) (fun s hs => hs) hempty
  refine ⟨_, Nat.mod_lt _ (by omega), ?_, hstop, k, hk, rfl, hcrowded⟩
  rw [hlen] at hk hstop
  rw [freeSlot, hlen]
  refine probe_eq_some hk hhome ?_ ?_
  · intro j hj
    obtain ⟨i, hi⟩ := hcrowded j hj
    have hne : (i : Int) ≠ noEntry := by simp only [noEntry]; omega
    rw [hlen] at hi
    simp [GcArray.get, hi, hne]
  · simp [GcArray.get, hstop]

/-- What the rebuilding loop has done once it stands at entry `i`: the table
holds the live entries before it, each reachable from its home. -/
structure Rebuilt (map : HashMap K V) (rows : List (Row K V)) (p i : Nat)
    (table : List Int) : Prop where
  length_eq : table.length = 2 ^ p
  slots : Slots table
  row_of : ∀ {s j : Nat}, table[s]? = some (j : Int) →
    j < i ∧ ∃ key value, rows[j]? = some (key, some value)
  reaches : ∀ {s j : Nat} {row : Row K V}, table[s]? = some (j : Int) → rows[j]? = some row →
      Reaches table (home (32 - ctz (2 ^ p)) (fingerprint map.seed row.1)) s
  slot_of_live : ∀ {j : Nat} {key : K} {value : V}, j < i →
    rows[j]? = some (key, some value) → ∃ s : Nat, table[s]? = some (j : Int)

omit [BEq K] in
theorem rebuildStep_rebuilt (hlog : map.log.Holds rows)
    (hfps : ∀ {i : Nat} {row : Row K V}, rows[i]? = some row →
      map.fps[i]? = some (fingerprint map.seed row.1))
    {p : Nat} (hp : 1 ≤ p) (hroom : rows.length * 2 ≤ 2 ^ p) {i : Nat} (hi : i < rows.length)
    (h : Rebuilt map rows p i table) :
    ∃ table', map.rebuildStep (32 - ctz (2 ^ p)) table i = some table' ∧
      Rebuilt map rows p (i + 1) table' := by
  obtain ⟨⟨key, value⟩, hrow⟩ : ∃ row, rows[i]? = some row :=
    ⟨_, List.getElem?_eq_getElem hi⟩
  have halive : GcArray.get map.log.alive i = some value.isSome := hlog.isAlive_eq hrow
  cases value with
  | none =>
    refine ⟨table, by simp [rebuildStep, halive], h.length_eq, h.slots, ?_, h.reaches, ?_⟩
    · intro s j hs
      obtain ⟨hlt, hlive⟩ := h.row_of hs
      exact ⟨by omega, hlive⟩
    · intro j key' value' hj hrow'
      rcases Nat.lt_or_ge j i with hlt | hge
      · exact h.slot_of_live hlt hrow'
      · obtain rfl : j = i := by omega
        simp [hrow] at hrow'
  | some value =>
    have hempty : ∃ s : Nat, table[s]? = some noEntry :=
      (@Slots.exists_empty _ h.slots rows.length (fun hs => by have := (h.row_of hs).1; omega)
          (by have := h.length_eq; omega))
    obtain ⟨s, hlt, hfree, hblank, hreach⟩ :=
      freeSlot_eq_some hp h.length_eq h.slots hempty (fingerprint map.seed key)
    have hnew : ∀ s : Nat, table[s]? ≠ some (i : Int) := by
      intro s hs
      have := (h.row_of hs).1
      omega
    refine ⟨table.set s (i : Int), ?_, ?_⟩
    · have hget : GcArray.get map.fps i = some (fingerprint map.seed key) := hfps hrow
      simp only [rebuildStep, halive, hget, hfree, Option.bind_eq_bind, Option.bind_some,
        Option.isSome_some, if_true]
      exact GcArray.set_of_lt hlt _
    · constructor
      · simpa using h.length_eq
      · exact h.slots.set s hnew
      · intro s' j hs'
        rcases getElem?_set_cases hs' with ⟨rfl, rfl⟩ | ⟨-, hold⟩
        · exact ⟨by omega, key, value, hrow⟩
        · obtain ⟨hlt', hlive⟩ := h.row_of hold
          exact ⟨by omega, hlive⟩
      · intro s' j row hs' hrow'
        rcases getElem?_set_cases hs' with ⟨rfl, rfl⟩ | ⟨-, hold⟩
        · obtain rfl : (key, some value) = row := Option.some.inj (hrow.symm.trans hrow')
          exact hreach.set _ _
        · exact (h.reaches hold hrow').set _ _
      · intro j key' value' hj hrow'
        rcases Nat.lt_or_ge j i with hlt' | hge
        · obtain ⟨s', hs'⟩ := h.slot_of_live hlt' hrow'
          -- The slot written was empty, so it held no entry.
          have hne : s ≠ s' := by
            rintro rfl
            have : noEntry = (j : Int) := Option.some.inj (hblank.symm.trans hs')
            simp only [noEntry] at this
            omega
          exact ⟨s', by rw [List.getElem?_set_ne hne, hs']⟩
        · obtain rfl : j = i := by omega
          exact ⟨s, List.getElem?_set_self hlt⟩

omit [BEq K] in
theorem rebuildLoop_rebuilt (hlog : map.log.Holds rows)
    (hfps : ∀ {i : Nat} {row : Row K V}, rows[i]? = some row →
      map.fps[i]? = some (fingerprint map.seed row.1))
    {p : Nat} (hp : 1 ≤ p) (hroom : rows.length * 2 ≤ 2 ^ p)
    {i : Nat} (hi : i ≤ rows.length) :
    ∃ table, (List.range i).foldlM (map.rebuildStep (32 - ctz (2 ^ p)))
        (List.replicate (2 ^ p) noEntry) = some table ∧ Rebuilt map rows p i table := by
  induction i with
  | zero =>
    refine ⟨_, rfl, by simp, replicate_slots _, ?_, ?_, ?_⟩
    · intro s j hs
      exact absurd hs (replicate_ne _ s j)
    · intro s j row hs
      exact absurd hs (replicate_ne _ s j)
    · intro j key value hj
      omega
  | succ i ih =>
    obtain ⟨table, hfold, htable⟩ := ih (by omega)
    obtain ⟨table', hstep, htable'⟩ :=
      rebuildStep_rebuilt hlog hfps hp hroom (by omega) htable
    refine ⟨table', ?_, htable'⟩
    rw [List.range_succ, List.foldlM_append, hfold]
    simp [hstep]

/-- A table rebuilt with a power of two slots, twice the entries or more,
indexes them. -/
theorem rebuildTable_indexed [PartialEquivBEq K] (hlog : map.log.Holds rows)
    (hfps : ∀ {i : Nat} {row : Row K V}, rows[i]? = some row →
      map.fps[i]? = some (fingerprint map.seed row.1))
    (hdistinct : LiveDistinct (· == ·) rows) {p : Nat} (hp : 3 ≤ p)
    (hroom : rows.length * 2 ≤ 2 ^ p) :
    ∃ map', map.rebuildTable (2 ^ p) = some map' ∧ map'.Indexed rows ∧
      map'.table.length = 2 ^ p ∧ map'.log = map.log ∧ map'.seed = map.seed := by
  obtain ⟨table, hfold, htable⟩ :=
    rebuildLoop_rebuilt hlog hfps (by omega) hroom (Nat.le_refl rows.length)
  have hpow : 2 ^ p &&& (2 ^ p - 1) = 0 := by
    rw [Nat.and_two_pow_sub_one_eq_mod, Nat.mod_self]
  refine ⟨{ map with table, shift := 32 - ctz (2 ^ p) }, ?_, ?_, htable.length_eq, rfl, rfl⟩
  · rw [← hlog.count_eq] at hfold
    simp [rebuildTable, hpow, hfold]
  · constructor
    · exact Or.inr ⟨p, hp, htable.length_eq, rfl⟩
    · have := htable.length_eq
      simp only
      omega
    · exact hfps
    · exact htable.slots
    · intro s i hs
      obtain ⟨-, key, value, hrow⟩ := htable.row_of hs
      exact ⟨_, hrow⟩
    · exact htable.reaches
    · intro i key value hrow
      exact htable.slot_of_live (List.getElem?_eq_some_iff.mp hrow).1 hrow
    · intro s s' i i' row row' hs hs' hrow hrow' hsame
      obtain ⟨-, key, value, hlive⟩ := htable.row_of hs
      obtain ⟨-, key', value', hlive'⟩ := htable.row_of hs'
      obtain rfl : (key, some value) = row := Option.some.inj (hlive.symm.trans hrow)
      obtain rfl : (key', some value') = row' := Option.some.inj (hlive'.symm.trans hrow')
      obtain rfl := hdistinct hrow hrow' hsame
      exact htable.slots.injective hs hs'

/-- After growing, the table has room for one more entry. -/
theorem growTable_indexed [PartialEquivBEq K] (hlog : map.log.Holds rows)
    (h : map.Indexed rows) :
    ∃ map', map.growTable = some map' ∧ map'.Indexed rows ∧
      (rows.length + 1) * 2 ≤ map'.table.length ∧ map'.log = map.log ∧
      map'.seed = map.seed := by
  have hcount := hlog.count_eq
  have hhalf := h.half
  by_cases hfull : (map.log.count + 1) * 2 > map.table.length
  · obtain ⟨p, hp, hslots⟩ : ∃ p, 3 ≤ p ∧ max minSlots (map.table.length * 2) = 2 ^ p := by
      rcases h.size_eq with hnil | ⟨p, hp, hlen, -⟩
      · exact ⟨3, Nat.le_refl _, by simp [hnil, minSlots]⟩
      · have hpow : 2 ^ 3 ≤ 2 ^ p := Nat.pow_le_pow_right (by omega) hp
        exact ⟨p + 1, by omega, by rw [hlen, minSlots, Nat.pow_succ]; omega⟩
    have hge := Nat.le_max_right minSlots (map.table.length * 2)
    have hmin := Nat.le_max_left minSlots (map.table.length * 2)
    rw [hslots] at hge hmin
    simp only [minSlots] at hmin
    obtain ⟨map', hmap', hindexed, hlen, hlog', hseed⟩ :=
      rebuildTable_indexed hlog h.fps_eq h.liveDistinct hp (by omega)
    exact ⟨map', by rw [growTable, if_pos hfull, hslots, hmap'], hindexed, by omega, hlog', hseed⟩
  · exact ⟨map, by rw [growTable, if_neg hfull], h, by omega, rfl, rfl⟩

end HashMap

end Wado
