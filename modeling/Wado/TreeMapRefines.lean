/-
`TreeMap` refines the insertion-ordered association list.  Over every run, each
operation answers as the list does, whatever splits and compactions it makes.
-/
import Wado.TreeIndexes

namespace Wado.TreeMap

open KeyOrder

variable {K V : Type} {map : TreeMap K V} {rows : List (Row K V)}

section Operations

variable [Ord K]

/-- The map holds `rows`: its log does, and its tree indexes them. -/
def Holds (map : TreeMap K V) (rows : List (Row K V)) : Prop :=
  map.log.Holds rows ∧ ∃ items, map.Tree items ∧ Indexes items rows

theorem new_holds : (new : TreeMap K V).Holds [] := by
  refine ⟨EntryLog.new_holds, [], new_tree, List.Pairwise.nil, ?_, ?_⟩
  · intro item hmem
    cases hmem
  · intro i key value hi
    simp at hi

theorem clear_holds (map : TreeMap K V) : map.clear.Holds [] := by
  refine ⟨EntryLog.clear_holds map.log, [], clearTree_tree map _, List.Pairwise.nil, ?_, ?_⟩
  · intro item hmem
    cases hmem
  · intro i key value hi
    simp at hi

variable [Std.TransOrd K]

/-- `find_index` answers the live row of `key`, or -1 when it has none. -/
theorem findIndex_cases (h : map.Holds rows) (key : K) :
    (map.findIndex key = some (-1) ∧ LiveAbsent sameKey rows key) ∨
      ∃ (i : Nat) (key' : K) (value : V), map.findIndex key = some (i : Int) ∧
        rows[i]? = some (key', some value) ∧ sameKey key' key = true := by
  obtain ⟨hlog, items, htree, hindex⟩ := h
  rcases findIndex_cases_items htree hindex.sorted (hindex.alive hlog) key with
    ⟨item, hmem, b, hcmp, hb, hfind⟩ | ⟨hfind, hnone⟩
  · obtain ⟨⟨key', value⟩, hrow, hcmp'⟩ := hindex.row_of hmem
    rw [hlog.isAlive_eq hrow] at hb
    cases value with
    | some value =>
      obtain rfl : true = b := Option.some.inj hb
      exact Or.inr ⟨item.1, key', value, hfind, hrow, sameKey_eq_true.mpr
        (Std.OrientedCmp.eq_symm (Std.TransCmp.eq_trans hcmp hcmp'))⟩
    | none =>
      obtain rfl : false = b := Option.some.inj hb
      refine Or.inl ⟨hfind, hindex.liveAbsent ?_⟩
      intro i k v hi k' hk' hcmp''
      -- The dead entry's item is the only one with the key.
      have := hindex.sorted.eq_of_compare_eq hk' hmem
        (Std.TransCmp.eq_trans (Std.OrientedCmp.eq_symm hcmp'') hcmp)
      rw [← congrArg Prod.fst this] at hrow
      simp [hi] at hrow
  · exact Or.inl ⟨hfind, hindex.liveAbsent fun _ _ hk => hnone _ hk⟩

/-- `place` answers the live row of `key`, or makes the tree index the log with
the key's entry appended. -/
theorem place_cases (h : map.Holds rows) (key : K) : ∃ map', map'.log = map.log ∧
      ((∃ (i : Nat) (key' : K) (value : V),
          map.place key map.log.count = some ((i : Int), map') ∧ map'.Holds rows ∧
          rows[i]? = some (key', some value) ∧ sameKey key' key = true) ∨
        (map.place key map.log.count = some (-1, map') ∧ LiveAbsent sameKey rows key ∧
          ∀ (value : V) (log : EntryLog K V), log.Holds (rows ++ [(key, some value)]) →
            Holds { map' with log } (rows ++ [(key, some value)]))) := by
  obtain ⟨hlog, items, htree, hindex⟩ := h
  obtain ⟨answer, map', items', hplace, htree', hlog', hplaced⟩ :=
    place_tree htree hindex.sorted (hindex.alive hlog) key map.log.count
  have hcount := hlog.count_eq
  rw [hcount] at hplaced
  refine ⟨map', hlog', ?_⟩
  rcases hindex.placed hlog hplaced with
    ⟨i, key', value, rfl, rfl, hrow, hsame⟩ | ⟨rfl, habsent, hnew⟩
  · exact Or.inl ⟨i, key', value, hplace, ⟨by rw [hlog']; exact hlog, _, htree', hindex⟩,
      hrow, hsame⟩
  · exact Or.inr ⟨hplace, habsent, fun value log hlog'' =>
      ⟨hlog'', items', htree'.with_log log, hnew value⟩⟩

omit [Ord K] [Std.TransOrd K] in
theorem Tree.root_isSome {items : List (Nat × K)} (h : map.Tree items) (hne : items ≠ []) :
    ∃ t, Holding map t ∧ t.items = items := by
  rcases h with ⟨-, -, -, hnil⟩ | hroot
  · exact absurd hnil hne
  · exact hroot

theorem compact_holds (h : map.Holds rows) (hne : ∃ items, map.Tree items ∧
      Indexes items rows ∧ items ≠ []) :
    ∃ map', map.compact = some map' ∧ map'.Holds (rows.filter fun row => row.2.isSome) := by
  obtain ⟨items, htree, hindex, hitems⟩ := hne
  obtain ⟨t, ht, rfl⟩ := htree.root_isSome hitems
  obtain ⟨log, renumbered, hcompact, hlog, -, hnew⟩ := EntryLog.compact_holds h.1
  have hcollect := (@collectInOrder_eq _ _ _ _ _ ht.subtree renumbered (fun item hmem => by
      obtain ⟨row, hrow, -⟩ := hindex.row_of hmem
      exact ⟨_, hnew hrow⟩) [])
  have horder : t.items.filterMap (kept renumbered) =
      (t.items.filterMap (moved rows)).map Prod.fst := by
    rw [List.map_filterMap]
    refine List.filterMap_congr fun item hmem => ?_
    obtain ⟨row, hrow, -⟩ := hindex.row_of hmem
    exact kept_eq_moved hrow (hnew hrow)
  have hcompacted := hindex.compact
  obtain ⟨map', hfold, htree', hlog'⟩ :=
    (@foldlM_placeLast_tree _ _ ({ map.clearTree with log }) _ (t.items.filterMap (moved rows))
        (clearTree_tree map log) (fun item hmem => by
        obtain ⟨old, -, hmoved⟩ := List.mem_filterMap.mp hmem
        obtain ⟨v, hrow, hrank⟩ := moved_eq_some_iff.mp hmoved
        have := hlog.keyAt_eq (getElem?_filter_rank hrow)
        rw [hrank]
        exact this))
  refine ⟨map', ?_, by rw [hlog']; exact hlog, _, htree', hcompacted⟩
  rw [List.nil_append, horder] at hcollect
  simp only [compact, hcompact, ht.root_eq, hcollect, Option.bind_eq_bind, Option.bind_some]
  exact hfold

section

variable (h : map.Holds rows)
include h

theorem get_eq (key : K) :
    map.get key = some (AssocList.get sameKey (liveRows rows) key) := by
  rcases findIndex_cases h key with ⟨hfind, habsent⟩ | ⟨i, key', value, hfind, hrow, hsame⟩
  · simp [get, hfind, habsent.get_eq]
  · obtain ⟨hlog, items, -, hindex⟩ := h
    simp [get, hfind, hlog.valueAt_eq hrow,
      get_of_live lawfulSame_sameKey hindex.liveDistinct hrow hsame]

theorem containsKey_eq (key : K) :
    map.containsKey key = some (AssocList.containsKey sameKey (liveRows rows) key) := by
  rcases findIndex_cases h key with ⟨hfind, habsent⟩ | ⟨i, key', value, hfind, hrow, hsame⟩
  · simp [containsKey, hfind, habsent.containsKey_eq]
  · simp [containsKey, hfind, containsKey_of_live hrow hsame]

omit [Std.TransOrd K] in
theorem len_eq : map.len = (liveRows rows).length :=
  h.1.size_eq_length

omit [Std.TransOrd K] in
theorem entries_eq : map.entries = some (liveRows rows) :=
  h.1.entries_eq

omit [Std.TransOrd K] in
/-- Appending the entry `place` made room for. -/
private theorem push_place_holds {map' : TreeMap K V} (hlog : map'.log = map.log) {key : K}
    (hnew : ∀ (value : V) (log : EntryLog K V), log.Holds (rows ++ [(key, some value)]) →
      Holds { map' with log } (rows ++ [(key, some value)])) (value : V) :
    ∃ map'', map'.push key value = some map'' ∧ map''.Holds (rows ++ [(key, some value)]) := by
  obtain ⟨log, hpush, hholds⟩ := EntryLog.push_holds h.1 key value
  exact ⟨{ map' with log }, by simp [push, hlog, hpush], hnew value log hholds⟩

end

/-- An operation answers as the association list does, and holds its pairs. -/
def Answers (map : TreeMap K V) (rows : List (Row K V)) (op : MapOp K V) : Prop :=
  ∃ map' rows', map.step op = some ((AssocList.step sameKey (liveRows rows) op).1, map') ∧
    map'.Holds rows' ∧ liveRows rows' = (AssocList.step sameKey (liveRows rows) op).2

section

variable (h : map.Holds rows)
include h

theorem insert_answers (key : K) (value : V) :
    Answers map rows (.assign key value) := by
  obtain ⟨placed, hlog, hcases⟩ := place_cases h key
  rcases hcases with ⟨i, key', old, hplace, hholds, hrow, hsame⟩ | ⟨hplace, habsent, hnew⟩
  · obtain ⟨log, hset, hlog'⟩ := EntryLog.setValue_holds h.1 hrow value
    obtain ⟨-, items, htree, hindex⟩ := hholds
    refine ⟨{ placed with log }, rows.set i (key', some value), ?_,
      ⟨hlog', items, htree.with_log log, hindex.set hrow (some value)⟩,
      (assign_of_live lawfulSame_sameKey hindex.liveDistinct hrow hsame value).symm⟩
    simp [step, insert, hplace, hlog, hset, AssocList.step]
  · obtain ⟨pushed, hpush, hholds⟩ := push_place_holds h hlog hnew value
    exact ⟨pushed, _, by simp [step, insert, hplace, hpush, AssocList.step], hholds,
      (habsent.assign_eq value).symm⟩

theorem tryInsert_answers (key : K) (value : V) :
    Answers map rows (.tryInsert key value) := by
  obtain ⟨placed, hlog, hcases⟩ := place_cases h key
  rcases hcases with ⟨i, key', old, hplace, hholds, hrow, hsame⟩ | ⟨hplace, habsent, hnew⟩
  · have hlist := containsKey_of_live hrow hsame
    exact ⟨placed, rows, by simp [step, tryInsert, hplace, AssocList.step, hlist], hholds,
      by simp [AssocList.step, hlist]⟩
  · obtain ⟨pushed, hpush, hholds⟩ := push_place_holds h hlog hnew value
    have hlist := habsent.containsKey_eq
    exact ⟨pushed, _, by simp [step, tryInsert, hplace, hpush, AssocList.step, hlist], hholds,
      by simp [AssocList.step, hlist]⟩

theorem getOrInsert_answers (key : K) (value : V) :
    Answers map rows (.getOrInsert key value) := by
  obtain ⟨placed, hlog, hcases⟩ := place_cases h key
  rcases hcases with ⟨i, key', old, hplace, hholds, hrow, hsame⟩ | ⟨hplace, habsent, hnew⟩
  · have hread := h.1.readValue_eq hrow
    obtain ⟨-, items, -, hindex⟩ := id hholds
    have hlist := get_of_live lawfulSame_sameKey hindex.liveDistinct hrow hsame
    exact ⟨placed, rows, by simp [step, getOrInsert, hplace, hlog, hread, AssocList.step, hlist],
      hholds, by simp [AssocList.step, hlist]⟩
  · obtain ⟨pushed, hpush, hholds⟩ := push_place_holds h hlog hnew value
    have hlist := habsent.get_eq
    exact ⟨pushed, _, by simp [step, getOrInsert, hplace, hpush, AssocList.step, hlist], hholds,
      by simp [AssocList.step, hlist]⟩

theorem remove_answers (key : K) : Answers map rows (.remove key) := by
  rcases findIndex_cases h key with ⟨hfind, habsent⟩ | ⟨i, key', value, hfind, hrow, hsame⟩
  · have hlist := habsent.containsKey_eq
    exact ⟨map, rows, by simp [step, remove, hfind, AssocList.step, hlist], h,
      by simp [AssocList.step, habsent.remove_eq]⟩
  · obtain ⟨hlog, items, htree, hindex⟩ := h
    obtain ⟨log, full, hkill, hlog'⟩ := EntryLog.kill_holds hlog hrow
    have hlist := containsKey_of_live hrow hsame
    have hlive : liveRows (rows.set i (key', none)) =
        (AssocList.step sameKey (liveRows rows) (.remove key)).2 := by
      simp [AssocList.step, remove_of_live lawfulSame_sameKey hindex.liveDistinct hrow hsame]
    have hpos : ¬ (i : Int) < 0 := by omega
    have hindex' := hindex.set hrow none
    have hkilled : Holds { map with log } (rows.set i (key', none)) :=
      ⟨hlog', items, htree.with_log log, hindex'⟩
    cases full with
    | false =>
      exact ⟨{ map with log }, _, by simp [step, remove, hfind, hpos, hkill, AssocList.step, hlist],
        hkilled, hlive⟩
    | true =>
      obtain ⟨k, hk⟩ := hindex.item_of_live hrow
      obtain ⟨map', hmap', hholds⟩ := compact_holds hkilled
        ⟨items, htree.with_log log, hindex', List.ne_nil_of_mem hk⟩
      exact ⟨map', _, by simp [step, remove, hfind, hpos, hkill, hmap', AssocList.step, hlist],
        hholds, by rw [liveRows_filter_live]; exact hlive⟩

theorem step_answers (op : MapOp K V) : Answers map rows op := by
  cases op with
  | assign key value => exact insert_answers h key value
  | tryInsert key value => exact tryInsert_answers h key value
  | getOrInsert key value => exact getOrInsert_answers h key value
  | remove key => exact remove_answers h key
  | clear => exact ⟨map.clear, [], rfl, clear_holds map, rfl⟩

end

/-- Every run ends, answers each operation as the association list does, and
leaves a map whose lookups, length and entries are the list's. -/
theorem treeMap_run_refines_assocList (ops : List (MapOp K V)) : ∃ map : TreeMap K V,
      runOps step new ops = some ((AssocList.run sameKey [] ops).1, map) ∧
      (∀ key, map.get key = some (AssocList.get sameKey (AssocList.run sameKey [] ops).2 key)) ∧
      (∀ key, map.containsKey key =
        some (AssocList.containsKey sameKey (AssocList.run sameKey [] ops).2 key)) ∧
      map.len = (AssocList.run sameKey [] ops).2.length ∧
      map.entries = some (AssocList.run sameKey [] ops).2 := by
  obtain ⟨map, hrun, rows, hholds, hlive⟩ := (@runOps_eq_run _ _ _ _ _
      (fun (map : TreeMap K V) list => ∃ rows, map.Holds rows ∧ liveRows rows = list)
      (fun map list op hrelated => by
      obtain ⟨rows, hholds, rfl⟩ := hrelated
      obtain ⟨map', rows', hstep, hholds', hlive⟩ := step_answers hholds op
      exact ⟨map', hstep, rows', hholds', hlive⟩) new [] ⟨[], new_holds, rfl⟩ ops)
  refine ⟨map, hrun, ?_, ?_, ?_, ?_⟩
  · intro key
    rw [get_eq hholds, hlive]
  · intro key
    rw [containsKey_eq hholds, hlive]
  · rw [len_eq hholds, hlive]
  · rw [entries_eq hholds, hlive]

/-- A key removed and inserted again moves to the end. -/
theorem treeMap_run_refines_assocList_nat : ∃ map : TreeMap Nat Nat, runOps step new
          [.assign 7 1, .assign 9 2, .remove 7, .getOrInsert 7 4, .tryInsert 9 8] =
        some ([.unit, .unit, .bool true, .value 4, .bool false], map) ∧
      map.len = 2 ∧ map.entries = some [(9, 2), (7, 4)] := by
  obtain ⟨map, hrun, -, -, hlen, hentries⟩ := treeMap_run_refines_assocList
    (K := Nat) (V := Nat)
    [.assign 7 1, .assign 9 2, .remove 7, .getOrInsert 7 4, .tryInsert 9 8]
  exact ⟨map, hrun, hlen, hentries⟩

end Operations

end Wado.TreeMap
