/-
`HashMap` refines the insertion-ordered association list.  Over every run, under
every seed, each operation answers as the list does.
-/
import Wado.HashMapIndexed

namespace Wado.HashMap

open LinearProbe List Option GcArray

variable {K V : Type} [BEq K] [Hash K] {map : HashMap K V} {rows : List (Row K V)}

omit [Hash K] in
theorem lawfulSame_beq [PartialEquivBEq K] : LawfulSame (fun a b : K => a == b) where
  symm := PartialEquivBEq.symm
  trans := PartialEquivBEq.trans

/-- The map holds `rows`: its log does, and its table indexes them. -/
structure Holds (map : HashMap K V) (rows : List (Row K V)) : Prop where
  log : map.log.Holds rows
  indexed : map.Indexed rows

section Place

omit [BEq K] in
/-- Recording the next entry's fingerprint leaves the others alone. -/
theorem pushFingerprint_eq_some (hlog : map.log.Holds rows)
    (hfps : ∀ {i : Nat} {row : Row K V}, rows[i]? = some row →
      map.fps[i]? = some (fingerprint map.seed row.1)) (fp : BitVec 32) :
    ∃ fps, map.pushFingerprint fp = some { map with fps } ∧
      fps[rows.length]? = some fp ∧ ∀ i < rows.length, fps[i]? = map.fps[i]? := by
  have hcount := hlog.count_eq
  have hlen : rows.length ≤ map.fps.length := by
    rcases Nat.eq_zero_or_pos rows.length with hzero | hpos
    · omega
    · have hlast := hfps (List.getElem?_eq_getElem (show rows.length - 1 < rows.length by omega))
      have := (List.getElem?_eq_some_iff.mp hlast).1
      omega
  by_cases hfull : map.log.count = map.fps.length
  · obtain ⟨grown, hgrown⟩ : ∃ grown, copyFrom
        (List.replicate (max 4 (map.log.count * 2)) 0) 0 map.fps 0 map.log.count =
          some grown := ⟨_, copyFrom_of_le (by simp; omega) (by omega)⟩
    have hglen := length_of_copyFrom_eq_some hgrown
    rw [length_replicate] at hglen
    refine ⟨grown.set map.log.count fp, ?_, ?_, ?_⟩
    · simp only [pushFingerprint, if_pos hfull, hgrown, bind_eq_bind, bind_some]
      rw [set_of_lt (by omega)]
      rfl
    · rw [← hcount, List.getElem?_set_self (by omega)]
    · intro i hi
      rw [List.getElem?_set_ne (by omega), getElem?_of_copyFrom_eq_some hgrown]
      simp [show i < map.log.count by omega]
  · refine ⟨map.fps.set map.log.count fp, ?_, ?_, ?_⟩
    · simp only [pushFingerprint, if_neg hfull, bind_eq_bind, bind_some]
      rw [set_of_lt (by omega)]
      rfl
    · rw [← hcount, List.getElem?_set_self (by omega)]
    · intro i hi
      rw [List.getElem?_set_ne (by omega)]

/-- A slot reached from the home of `key` and holding no live entry can be
handed to the entry appended next, if no other slot holds the key. -/
theorem Indexed.claim (h : map.Indexed rows) {key : K} {s : Nat}
    (hs : s < map.table.length) (hroom : (rows.length + 1) * 2 ≤ map.table.length)
    (hreach : Reaches map.table (home map.shift (fingerprint map.seed key)) s)
    (hdead : ∀ {i : Nat} {row : Row K V}, map.table[s]? = some (i : Int) →
      rows[i]? = some row → row.2 = none)
    (hkey : ∀ {s' i : Nat} {row : Row K V}, map.table[s']? = some (i : Int) →
      rows[i]? = some row → (row.1 == key) = true → s' = s)
    [PartialEquivBEq K] {fps : List (BitVec 32)}
    (hfp : fps[rows.length]? = some (fingerprint map.seed key))
    (hfps : ∀ i < rows.length, fps[i]? = map.fps[i]?)
    (value : V) (log : EntryLog K V) :
    Indexed { map with log, fps, table := map.table.set s (rows.length : Int) }
      (rows ++ [(key, some value)]) := by
  -- A row of the longer log is an old one or the new one.
  have hrows : ∀ {i : Nat} {row : Row K V}, (rows ++ [(key, some value)])[i]? = some row →
      (i < rows.length ∧ rows[i]? = some row) ∨ (i = rows.length ∧ row = (key, some value)) := by
    intro i row hi
    rcases Nat.lt_trichotomy i rows.length with hlt | rfl | hgt
    · rw [List.getElem?_append_left hlt] at hi
      exact Or.inl ⟨hlt, hi⟩
    · rw [List.getElem?_concat_length] at hi
      exact Or.inr ⟨rfl, (Option.some.inj hi).symm⟩
    · rw [List.getElem?_eq_none (by simp; omega)] at hi
      cases hi
  have hnumber : ∀ {s i : Nat}, map.table[s]? = some (i : Int) → i < rows.length := by
    intro s i hi
    obtain ⟨row, hrow⟩ := h.row_of hi
    exact (List.getElem?_eq_some_iff.mp hrow).1
  have hnew : ∀ s : Nat, map.table[s]? ≠ some (rows.length : Int) := by
    intro s hs
    have := hnumber hs
    omega
  constructor
  · rcases h.size_eq with hnil | ⟨p, hp, hlen, hshift⟩
    · rw [hnil] at hs
      cases hs
    · exact Or.inr ⟨p, hp, by simpa using hlen, hshift⟩
  · simpa using hroom
  · intro i row hi
    rcases hrows hi with ⟨hlt, hold⟩ | ⟨rfl, rfl⟩
    · exact (hfps i hlt).trans (h.fps_eq hold)
    · exact hfp
  · exact h.slots.set s hnew
  · intro s' i hs'
    rcases getElem?_set_cases hs' with ⟨-, rfl⟩ | ⟨-, hold⟩
    · exact ⟨_, List.getElem?_concat_length⟩
    · obtain ⟨row, hrow⟩ := h.row_of hold
      exact ⟨row, by rw [List.getElem?_append_left (hnumber hold), hrow]⟩
  · intro s' i row hs' hi
    rcases getElem?_set_cases hs' with ⟨rfl, rfl⟩ | ⟨-, hold⟩ <;>
      rcases hrows hi with ⟨hlt, hrow⟩ | ⟨heq, rfl⟩
    · omega
    · exact hreach.set _ _
    · exact (h.reaches hold hrow).set _ _
    · have := hnumber hold
      omega
  · intro i k v hi
    rcases hrows hi with ⟨hlt, hrow⟩ | ⟨rfl, -⟩
    · obtain ⟨s', hs'⟩ := h.slot_of_live hrow
      have hne : s ≠ s' := by
        rintro rfl
        cases hdead hs' hrow
      exact ⟨s', by simp only; rw [List.getElem?_set_ne hne, hs']⟩
    · exact ⟨s, List.getElem?_set_self hs⟩
  · intro a b i j row row' ha hb hi hj hsame
    rcases getElem?_set_cases ha with ⟨rfl, rfl⟩ | ⟨-, holda⟩ <;>
      rcases getElem?_set_cases hb with ⟨rfl, rfl⟩ | ⟨-, holdb⟩ <;>
      rcases hrows hi with ⟨hlti, hrowi⟩ | ⟨heqi, rfl⟩ <;>
      rcases hrows hj with ⟨hltj, hrowj⟩ | ⟨heqj, rfl⟩ <;>
      first
        | rfl
        | omega
        | exact (hkey holdb hrowj (PartialEquivBEq.symm hsame)).symm
        | exact hkey holda hrowi hsame
        | exact h.distinct holda holdb hrowi hrowj hsame
        | exact absurd (hnumber holda) (by omega)
        | exact absurd (hnumber holdb) (by omega)

/-- `place` answers the live row of `key`, or makes the table point at the entry
appended next. -/
theorem place_cases [PartialEquivBEq K] [LawfulHash K] (h : map.Holds rows) (key : K) :
    ∃ map', map'.log = map.log ∧ map'.seed = map.seed ∧
      ((∃ (i : Nat) (key' : K) (value : V), map.place key = some ((i : Int), map') ∧
          map'.Indexed rows ∧ rows[i]? = some (key', some value) ∧
          (key' == key) = true) ∨
        (map.place key = some (-1, map') ∧ LiveAbsent (· == ·) rows key ∧
          ∀ (value : V) (log : EntryLog K V),
            Indexed { map' with log } (rows ++ [(key, some value)]))) := by
  obtain ⟨roomy, hgrow, hindexed, hroom, hlog, hseed⟩ := growTable_indexed h.log h.indexed
  have hholds : roomy.log.Holds rows := hlog ▸ h.log
  have hcount := h.log.count_eq
  have hsome : roomy.table ≠ [] := by
    intro hnil
    rw [hnil, length_nil] at hroom
    omega
  -- Claiming slot `s`, whatever it held.
  have hclaim : ∀ {s : Nat}, s < roomy.table.length →
      Reaches roomy.table (home roomy.shift (fingerprint roomy.seed key)) s →
      (∀ {i : Nat} {row : Row K V}, roomy.table[s]? = some (i : Int) →
        rows[i]? = some row → row.2 = none) →
      (∀ {s' i : Nat} {row : Row K V}, roomy.table[s']? = some (i : Int) →
        rows[i]? = some row → (row.1 == key) = true → s' = s) →
      LiveAbsent (· == ·) rows key ∧
      ∃ map', map'.log = roomy.log ∧ map'.seed = roomy.seed ∧
        pushFingerprint { roomy with table := roomy.table.set s (map.log.count : Int) }
          (fingerprint roomy.seed key) = some map' ∧
        ∀ (value : V) (log : EntryLog K V),
          Indexed { map' with log } (rows ++ [(key, some value)]) := by
    intro s hs hreach hdead hkey
    refine ⟨?_, ?_⟩
    · intro i key' value hrow
      by_contra hsame
      rw [Bool.not_eq_false] at hsame
      obtain ⟨s', hs'⟩ := hindexed.slot_of_live hrow
      obtain rfl := hkey hs' hrow hsame
      cases hdead hs' hrow
    · obtain ⟨fps, hpush, hfp, hfps⟩ := @pushFingerprint_eq_some _ _ _
        { roomy with table := roomy.table.set s (map.log.count : Int) } _ hholds
        hindexed.fps_eq (fingerprint roomy.seed key)
      refine ⟨{ roomy with fps, table := roomy.table.set s (map.log.count : Int) },
        rfl, rfl, hpush, ?_⟩
      intro value log
      rw [hcount]
      exact hindexed.claim hs hroom hreach hdead hkey hfp hfps value log
  obtain ⟨s, hs, hreach, hcases⟩ := findSlot_cases hindexed hholds hsome key
  rcases hcases with ⟨hfind, hempty, habsent⟩ | ⟨i, row, hfind, hheld, hrow, hsame⟩
  · obtain ⟨hlive, map', hlog', hseed', hpush, hindexed'⟩ := hclaim hs hreach
      (by
        intro i row hi
        have : noEntry = (i : Int) := Option.some.inj (hempty.symm.trans hi)
        simp only [noEntry] at this
        omega)
      (by
        intro s' i row hs' hrow hsame
        rw [habsent hs' hrow] at hsame
        cases hsame)
    refine ⟨map', hlog'.trans hlog, hseed'.trans hseed, Or.inr ⟨?_, hlive, hindexed'⟩⟩
    have hneg : ¬ (-1 - (s : Int)) ≥ 0 := by omega
    have hslot : (-1 - (-1 - (s : Int))).toNat = s := by omega
    simp only [place, hgrow, hfind, bind_eq_bind, bind_some, if_neg hneg, hslot]
    rw [GcArray.set_of_lt hs]
    simp only [bind_some]
    rw [hpush]
    rfl
  · have hpos : (s : Int) ≥ 0 := by omega
    have halive := hholds.isAlive_eq hrow
    have hget : GcArray.get roomy.table s = some (i : Int) := hheld
    obtain ⟨key', value⟩ := row
    cases value with
    | some value =>
      refine ⟨roomy, hlog, hseed, Or.inl ⟨i, key', value, ?_, hindexed, hrow, hsame⟩⟩
      simp [place, hgrow, hfind, hget, halive]
    | none =>
      obtain ⟨hlive, map', hlog', hseed', hpush, hindexed'⟩ := hclaim hs hreach
        (by
          intro j row hj hrow'
          have : (i : Int) = j := Option.some.inj (hheld.symm.trans hj)
          obtain rfl : i = j := by omega
          rw [hrow] at hrow'
          rw [← Option.some.inj hrow'])
        (by
          intro s' j row hs' hrow' hsame'
          exact hindexed.distinct hs' hheld hrow' hrow
            (PartialEquivBEq.trans hsame' (PartialEquivBEq.symm hsame)))
      refine ⟨map', hlog'.trans hlog, hseed'.trans hseed, Or.inr ⟨?_, hlive, hindexed'⟩⟩
      simp only [place, hgrow, hfind, bind_eq_bind, bind_some, if_pos hpos,
        Int.toNat_natCast, hget, halive, isSome_none, Bool.false_eq_true, if_false]
      rw [GcArray.set_of_lt hs]
      simp only [bind_some]
      rw [hpush]
      rfl

end Place

section Compact

omit [BEq K] [Hash K] in
/-- The renumbering loop moves a fingerprint to its row's rank, never past the
rows still to be moved. -/
theorem renumberLoop_eq {renumbered : List Int} {fps : List (BitVec 32)}
    (hfps : rows.length ≤ fps.length)
    (hnew : ∀ {i : Nat} {row : Row K V}, rows[i]? = some row →
      renumbered[i]? = some (newIndex rows i row)) {i : Nat} (hi : i ≤ rows.length) :
    ∃ moved, (List.range i).foldlM (renumberStep renumbered) fps = some moved ∧
      moved.length = fps.length ∧ (∀ j, i ≤ j → moved[j]? = fps[j]?) ∧
      ∀ {j : Nat} {key : K} {value : V}, j < i → rows[j]? = some (key, some value) →
        moved[rank rows j]? = fps[j]? := by
  induction i with
  | zero => exact ⟨fps, rfl, rfl, fun _ _ => rfl, fun hj => by omega⟩
  | succ i ih =>
    obtain ⟨moved, hfold, hmlen, hrest, hdone⟩ := ih (by omega)
    obtain ⟨⟨key, value⟩, hrow⟩ : ∃ row, rows[i]? = some row :=
      ⟨_, List.getElem?_eq_getElem (by omega)⟩
    have hto : GcArray.get renumbered i = some (newIndex rows i (key, value)) := hnew hrow
    obtain ⟨fp, hfp⟩ : ∃ fp, moved[i]? = some fp :=
      ⟨_, List.getElem?_eq_getElem (by omega)⟩
    have hget : GcArray.get moved i = some fp := hfp
    cases value with
    | none =>
      refine ⟨moved, ?_, hmlen, fun j hj => hrest j (by omega), ?_⟩
      · rw [range_succ, foldlM_append, hfold]
        simp [renumberStep, hto, newIndex]
      · intro j key' value' hj hrow'
        rcases Nat.lt_or_ge j i with hlt | hge
        · exact hdone hlt hrow'
        · obtain rfl : j = i := by omega
          simp [hrow] at hrow'
    | some value =>
      have hrank : rank rows i ≤ i := by
        have := countP_le_length (p := fun row : Row K V => row.2.isSome)
          (l := rows.take i)
        rw [length_take] at this
        rw [rank]
        omega
      refine ⟨moved.set (rank rows i) fp, ?_, by simpa using hmlen, ?_, ?_⟩
      · rw [range_succ, foldlM_append, hfold]
        simp [renumberStep, hto, newIndex, hget, GcArray.set_of_lt
          (show rank rows i < moved.length by omega)]
      · intro j hj
        rw [List.getElem?_set_ne (by omega), hrest j (by omega)]
      · intro j key' value' hj hrow'
        rcases Nat.lt_or_ge j i with hlt | hge
        · have := rank_lt_of_live hrow' hlt
          rw [List.getElem?_set_ne (by omega), hdone hlt hrow']
        · obtain rfl : j = i := by omega
          rw [List.getElem?_set_self (by omega), ← hfp, hrest j (Nat.le_refl _)]

theorem compact_holds [PartialEquivBEq K] (hlog : map.log.Holds rows)
    (h : map.Indexed rows) (hne : rows ≠ []) :
    ∃ map', map.compact = some map' ∧ map'.Holds (rows.filter fun row => row.2.isSome) ∧
      map'.seed = map.seed := by
  obtain ⟨log, renumbered, hcompact, hlog', hlen, hnew⟩ := EntryLog.compact_holds hlog
  have hfps : rows.length ≤ map.fps.length := by
    have hpos := length_pos_iff.mpr hne
    have hlast := h.fps_eq
      (List.getElem?_eq_getElem (show rows.length - 1 < rows.length by omega))
    have := (List.getElem?_eq_some_iff.mp hlast).1
    omega
  obtain ⟨fps, hfold, -, -, hmoved⟩ :=
    renumberLoop_eq hfps hnew (Nat.le_refl rows.length)
  have hsome : map.table ≠ [] := by
    intro hnil
    have hhalf := h.half
    have hpos := length_pos_iff.mpr hne
    rw [hnil, length_nil] at hhalf
    omega
  obtain ⟨p, hp, hslots, -⟩ := h.size_eq.resolve_left hsome
  have hfewer : (rows.filter fun row => row.2.isSome).length ≤ rows.length :=
    length_filter_le _ _
  have hhalf := h.half
  obtain ⟨map', hmap', hindexed, -, hlog'', hseed⟩ := @rebuildTable_indexed _ _ _ _
    { map with log, fps } _ _ hlog'
    (by
      intro j row hrow
      obtain ⟨i, value, hi, hvalue, rfl⟩ := exists_rank_of_getElem?_filter hrow
      exact (hmoved (List.getElem?_eq_some_iff.mp hi).1 hi).trans
        (@Indexed.fps_eq _ _ _ _ _ _ h _ (row.1, some value) hi))
    (by
      intro i j key key' value value' hi hj hsame
      obtain ⟨i', v, hi', -, rfl⟩ := exists_rank_of_getElem?_filter hi
      obtain ⟨j', v', hj', -, rfl⟩ := exists_rank_of_getElem?_filter hj
      rw [h.liveDistinct hi' hj' hsame])
    _ hp (by omega)
  refine ⟨map', ?_, ⟨by rw [hlog'']; exact hlog', hindexed⟩, hseed⟩
  simp only [compact, hcompact, bind_eq_bind, bind_some, hlen, hfold, hslots]
  exact hmap'

end Compact

section Operations

variable [PartialEquivBEq K] [LawfulHash K]

omit [PartialEquivBEq K] [LawfulHash K] in
theorem withSeed_holds (seed : HashSeed) : (withSeed seed : HashMap K V).Holds [] :=
  ⟨EntryLog.new_holds, withSeed_indexed seed⟩

section

variable (h : map.Holds rows)
include h

theorem get_eq (key : K) :
    map.get key = some (AssocList.get (· == ·) (liveRows rows) key) := by
  rcases findIndex_cases h.indexed h.log key with
    ⟨hfind, habsent⟩ | ⟨i, key', value, hfind, hrow, hsame⟩
  · simp [get, hfind, habsent.get_eq]
  · simp [get, hfind, h.log.valueAt_eq hrow,
      get_of_live lawfulSame_beq h.indexed.liveDistinct hrow hsame]

theorem containsKey_eq (key : K) :
    map.containsKey key = some (AssocList.containsKey (· == ·) (liveRows rows) key) := by
  rcases findIndex_cases h.indexed h.log key with
    ⟨hfind, habsent⟩ | ⟨i, key', value, hfind, hrow, hsame⟩
  · simp [containsKey, hfind, habsent.containsKey_eq]
  · simp [containsKey, hfind, containsKey_of_live hrow hsame]

omit [PartialEquivBEq K] [LawfulHash K] in
theorem len_eq : map.len = (liveRows rows).length :=
  h.log.size_eq_length

omit [PartialEquivBEq K] [LawfulHash K] in
theorem entries_eq : map.entries = some (liveRows rows) :=
  h.log.entries_eq

omit [PartialEquivBEq K] [LawfulHash K] in
/-- Appending the entry `place` made room for. -/
private theorem push_place_holds {map' : HashMap K V} (hlog : map'.log = map.log) {key : K}
    (hindexed : ∀ (value : V) (log : EntryLog K V),
      Indexed { map' with log } (rows ++ [(key, some value)])) (value : V) :
    ∃ map'', map'.push key value = some map'' ∧ map''.Holds (rows ++ [(key, some value)]) := by
  obtain ⟨log, hpush, hholds⟩ := EntryLog.push_holds h.log key value
  exact ⟨{ map' with log }, by simp [push, hlog, hpush], hholds, hindexed value log⟩

end

/-- An operation answers as the association list does, and holds its pairs. -/
def Answers (map : HashMap K V) (rows : List (Row K V)) (op : MapOp K V) : Prop :=
  ∃ map' rows', map.step op = some ((AssocList.step (· == ·) (liveRows rows) op).1, map') ∧
    map'.Holds rows' ∧ liveRows rows' = (AssocList.step (· == ·) (liveRows rows) op).2

section

variable (h : map.Holds rows)
include h

theorem insert_answers (key : K) (value : V) :
    Answers map rows (.assign key value) := by
  obtain ⟨placed, hlog, -, hcases⟩ := place_cases h key
  rcases hcases with ⟨i, key', old, hplace, hindexed, hrow, hsame⟩ | ⟨hplace, habsent, hnew⟩
  · obtain ⟨log, hset, hholds⟩ := EntryLog.setValue_holds h.log hrow value
    refine ⟨{ placed with log }, rows.set i (key', some value), ?_,
      ⟨hholds, hindexed.set hrow (some value) log⟩,
      (assign_of_live lawfulSame_beq h.indexed.liveDistinct hrow hsame value).symm⟩
    simp [step, insert, hplace, hlog, hset, AssocList.step]
  · obtain ⟨pushed, hpush, hholds⟩ := push_place_holds h hlog hnew value
    exact ⟨pushed, _, by simp [step, insert, hplace, hpush, AssocList.step], hholds,
      (habsent.assign_eq value).symm⟩

theorem tryInsert_answers (key : K) (value : V) :
    Answers map rows (.tryInsert key value) := by
  obtain ⟨placed, hlog, -, hcases⟩ := place_cases h key
  rcases hcases with ⟨i, key', old, hplace, hindexed, hrow, hsame⟩ | ⟨hplace, habsent, hnew⟩
  · have hlist := containsKey_of_live hrow hsame
    exact ⟨placed, rows, by simp [step, tryInsert, hplace, AssocList.step, hlist],
      ⟨by rw [hlog]; exact h.log, hindexed⟩, by simp [AssocList.step, hlist]⟩
  · obtain ⟨pushed, hpush, hholds⟩ := push_place_holds h hlog hnew value
    have hlist := habsent.containsKey_eq
    exact ⟨pushed, _, by simp [step, tryInsert, hplace, hpush, AssocList.step, hlist], hholds,
      by simp [AssocList.step, hlist]⟩

theorem getOrInsert_answers (key : K) (value : V) :
    Answers map rows (.getOrInsert key value) := by
  obtain ⟨placed, hlog, -, hcases⟩ := place_cases h key
  rcases hcases with ⟨i, key', old, hplace, hindexed, hrow, hsame⟩ | ⟨hplace, habsent, hnew⟩
  · have hread := h.log.readValue_eq hrow
    have hlist := get_of_live lawfulSame_beq h.indexed.liveDistinct hrow hsame
    exact ⟨placed, rows, by simp [step, getOrInsert, hplace, hlog, hread, AssocList.step, hlist],
      ⟨by rw [hlog]; exact h.log, hindexed⟩, by simp [AssocList.step, hlist]⟩
  · obtain ⟨pushed, hpush, hholds⟩ := push_place_holds h hlog hnew value
    have hlist := habsent.get_eq
    exact ⟨pushed, _, by simp [step, getOrInsert, hplace, hpush, AssocList.step, hlist], hholds,
      by simp [AssocList.step, hlist]⟩

theorem remove_answers (key : K) : Answers map rows (.remove key) := by
  rcases findIndex_cases h.indexed h.log key with
    ⟨hfind, habsent⟩ | ⟨i, key', value, hfind, hrow, hsame⟩
  · have hlist := habsent.containsKey_eq
    exact ⟨map, rows, by simp [step, remove, hfind, AssocList.step, hlist], h,
      by simp [AssocList.step, habsent.remove_eq]⟩
  · obtain ⟨log, full, hkill, hlog⟩ := EntryLog.kill_holds h.log hrow
    have hindexed := h.indexed.set hrow none log
    have hlist := containsKey_of_live hrow hsame
    have hlive : liveRows (rows.set i (key', none)) =
        (AssocList.step (· == ·) (liveRows rows) (.remove key)).2 := by
      simp [AssocList.step, remove_of_live lawfulSame_beq h.indexed.liveDistinct hrow hsame]
    have hpos : ¬ (i : Int) < 0 := by omega
    cases full with
    | false =>
      exact ⟨{ map with log }, _, by simp [step, remove, hfind, hpos, hkill, AssocList.step, hlist],
        ⟨hlog, hindexed⟩, hlive⟩
    | true =>
      have hne : rows.set i (key', none) ≠ [] := by
        have := (List.getElem?_eq_some_iff.mp hrow).1
        intro hnil
        have := congrArg List.length hnil
        rw [length_set, length_nil] at this
        omega
      obtain ⟨map', hmap', hholds, -⟩ :=
        @compact_holds _ _ _ _ { map with log } _ _ hlog hindexed hne
      exact ⟨map', _, by simp [step, remove, hfind, hpos, hkill, hmap', AssocList.step, hlist],
        hholds, by rw [liveRows_filter_live]; exact hlive⟩

theorem step_answers (op : MapOp K V) : Answers map rows op := by
  cases op with
  | assign key value => exact insert_answers h key value
  | tryInsert key value => exact tryInsert_answers h key value
  | getOrInsert key value => exact getOrInsert_answers h key value
  | remove key => exact remove_answers h key
  | clear =>
    exact ⟨map.clear, [], rfl, ⟨EntryLog.clear_holds map.log, clear_indexed map⟩, rfl⟩

end

/-- Under any seed, every run ends, answers each operation as the association
list does, and leaves a map whose lookups, length and entries are the list's.
Its table keeps an empty slot, so every probe loop ends. -/
theorem hashMap_run_refines_assocList (seed : HashSeed) (ops : List (MapOp K V)) :
    ∃ map : HashMap K V,
      runOps step (withSeed seed) ops = some ((AssocList.run (· == ·) [] ops).1, map) ∧
      (∀ key, map.get key = some (AssocList.get (· == ·) (AssocList.run (· == ·) [] ops).2 key)) ∧
      (∀ key, map.containsKey key =
        some (AssocList.containsKey (· == ·) (AssocList.run (· == ·) [] ops).2 key)) ∧
      map.len = (AssocList.run (· == ·) [] ops).2.length ∧
      map.entries = some (AssocList.run (· == ·) [] ops).2 ∧
      (map.table = [] ∨ noEntry ∈ map.table) := by
  obtain ⟨map, hrun, rows, hholds, hlive⟩ := @runOps_eq_run _ _ _ _ _
    (fun (map : HashMap K V) list => ∃ rows, map.Holds rows ∧ liveRows rows = list)
    (fun map list op hrelated => by
      obtain ⟨rows, hholds, rfl⟩ := hrelated
      obtain ⟨map', rows', hstep, hholds', hlive⟩ := step_answers hholds op
      exact ⟨map', hstep, rows', hholds', hlive⟩)
    (withSeed seed) [] ⟨[], withSeed_holds seed, rfl⟩ ops
  refine ⟨map, hrun, ?_, ?_, ?_, ?_, ?_⟩
  · intro key
    rw [get_eq hholds, hlive]
  · intro key
    rw [containsKey_eq hholds, hlive]
  · rw [len_eq hholds, hlive]
  · rw [entries_eq hholds, hlive]
  · by_cases hnil : map.table = []
    · exact Or.inl hnil
    · obtain ⟨s, hs⟩ := hholds.indexed.exists_empty hnil
      exact Or.inr (List.mem_of_getElem? hs)

/-- A key removed and inserted again moves to the end. -/
theorem hashMap_run_refines_assocList_u64 : ∃ map : HashMap (BitVec 64) Nat,
      runOps step (withSeed ⟨3, 5⟩)
          [.assign 7 1, .assign 9 2, .remove 7, .getOrInsert 7 4, .tryInsert 9 8] =
        some ([.unit, .unit, .bool true, .value 4, .bool false], map) ∧
      map.len = 2 ∧ map.entries = some [(9, 2), (7, 4)] := by
  obtain ⟨map, hrun, -, -, hlen, hentries, -⟩ := hashMap_run_refines_assocList
    (K := BitVec 64) (V := Nat) ⟨3, 5⟩
    [.assign 7 1, .assign 9 2, .remove 7, .getOrInsert 7 4, .tryInsert 9 8]
  exact ⟨map, hrun, hlen, hentries⟩

end Operations

end Wado.HashMap
