/-
The two maps side by side: they answer alike where their keys are equal alike, and comparing two
maps compares their live entries in insertion order, whatever was done to reach them.
-/
import Wado.HashMapRefines
import Wado.TreeMapRefines

namespace Wado

open Option

variable {K V : Type}

/-- Entry by entry, by key and then by value, and then by length. -/
def comparePairs [Ord K] [Ord V] (list list' : AssocList K V) : Ordering :=
  List.compareLex (fun a b => (compare a.1 b.1).then (compare a.2 b.2)) list list'

section Logs

variable {log other : EntryLog K V} {rows rows' : List (Row K V)}

theorem EntryLog.Holds.eq_eq [BEq K] [BEq V] (h : log.Holds rows) (h' : other.Holds rows') :
    log.eq other = some (liveRows rows == liveRows rows') := by
  have hsize := h.size_eq_length
  have hsize' := h'.size_eq_length
  by_cases hne : log.size ≠ other.size
  · have hfalse : (liveRows rows == liveRows rows') = false := by
      by_contra hbeq
      have := List.length_eq_of_beq (Bool.of_not_eq_false hbeq)
      omega
    simp [EntryLog.eq, hne, hfalse]
  · obtain ⟨i, hi, hat⟩ := EntryLog.exists_at h (Nat.zero_le _)
    obtain ⟨j, hj, hat'⟩ := EntryLog.exists_at h' (Nat.zero_le _)
    have hle : (liveRows rows).length ≤ rows.length := List.length_filterMap_le _ _
    simp only [EntryLog.eq, if_neg hne, hi, hj, bind_eq_bind, bind_some]
    exact EntryLog.eqFrom_eq hat hat' (by omega)
      (by rw [h.count_eq]; simpa using Nat.lt_succ_of_le hle)

theorem EntryLog.Holds.cmp_eq [Ord K] [Ord V] (h : log.Holds rows) (h' : other.Holds rows') :
    log.cmp other = some (comparePairs (liveRows rows) (liveRows rows')) := by
  have hsize := h.size_eq_length
  have hsize' := h'.size_eq_length
  obtain ⟨i, hi, hat⟩ := EntryLog.exists_at h (Nat.zero_le _)
  obtain ⟨j, hj, hat'⟩ := EntryLog.exists_at h' (Nat.zero_le _)
  have hle : (liveRows rows).length ≤ rows.length := List.length_filterMap_le _ _
  simp only [EntryLog.cmp, hi, hj, bind_eq_bind, bind_some]
  exact EntryLog.cmpFrom_eq hat hat' (by omega)
    (by rw [h.count_eq]; simpa using Nat.lt_succ_of_le hle)

end Logs

theorem HashMap.run_holds [BEq K] [Hash K] [PartialEquivBEq K] [LawfulHash K] (seed : HashSeed)
    (ops : List (MapOp K V)) : ∃ (map : HashMap K V) (rows : List (Row K V)),
      runOps HashMap.step (HashMap.withSeed seed) ops =
        some ((AssocList.run (· == ·) [] ops).1, map) ∧
      map.Holds rows ∧ liveRows rows = (AssocList.run (· == ·) [] ops).2 := by
  obtain ⟨map, hrun, rows, hholds, hlive⟩ := @runOps_eq_run _ _ _ _ _
    (fun (map : HashMap K V) list => ∃ rows, map.Holds rows ∧ liveRows rows = list)
    (fun map list op hrelated => by
      obtain ⟨rows, hholds, rfl⟩ := hrelated
      obtain ⟨map', rows', hstep, hholds', hlive⟩ := HashMap.step_answers hholds op
      exact ⟨map', hstep, rows', hholds', hlive⟩)
    (HashMap.withSeed seed) [] ⟨[], HashMap.withSeed_holds seed, rfl⟩ ops
  exact ⟨map, rows, hrun, hholds, hlive⟩

theorem TreeMap.run_holds [Ord K] [Std.TransOrd K] (ops : List (MapOp K V)) :
    ∃ (map : TreeMap K V) (rows : List (Row K V)),
      runOps TreeMap.step TreeMap.new ops =
        some ((AssocList.run TreeMap.sameKey [] ops).1, map) ∧
      map.Holds rows ∧ liveRows rows = (AssocList.run TreeMap.sameKey [] ops).2 := by
  obtain ⟨map, hrun, rows, hholds, hlive⟩ := @runOps_eq_run _ _ _ _ _
    (fun (map : TreeMap K V) list => ∃ rows, map.Holds rows ∧ liveRows rows = list)
    (fun map list op hrelated => by
      obtain ⟨rows, hholds, rfl⟩ := hrelated
      obtain ⟨map', rows', hstep, hholds', hlive⟩ := TreeMap.step_answers hholds op
      exact ⟨map', hstep, rows', hholds', hlive⟩)
    TreeMap.new [] ⟨[], TreeMap.new_holds, rfl⟩ ops
  exact ⟨map, rows, hrun, hholds, hlive⟩

/-- Where `==` and the order tell keys apart alike, a `HashMap` under any seed and a `TreeMap`
answer every run alike, and are read alike after it. -/
theorem maps_answer_alike [BEq K] [Hash K] [PartialEquivBEq K] [LawfulHash K] [Ord K]
    [Std.TransOrd K] (hsame : ∀ a b : K, (a == b) = (compare a b == .eq)) (seed : HashSeed)
    (ops : List (MapOp K V)) : ∃ (answers : List (MapAnswer V)) (map : HashMap K V)
      (tree : TreeMap K V),
      runOps HashMap.step (HashMap.withSeed seed) ops = some (answers, map) ∧
      runOps TreeMap.step TreeMap.new ops = some (answers, tree) ∧
      map.entries = tree.entries ∧ map.len = tree.len ∧
      ∀ key, map.get key = tree.get key ∧ map.containsKey key = tree.containsKey key := by
  obtain ⟨map, rows, hrun, hholds, hlive⟩ := HashMap.run_holds seed ops
  obtain ⟨tree, rows', hrun', hholds', hlive'⟩ := TreeMap.run_holds ops
  have hkeys : (TreeMap.sameKey : K → K → Bool) = (· == ·) :=
    funext fun a => funext fun b => (hsame a b).symm
  rw [hkeys] at hrun' hlive'
  have hrows : liveRows rows = liveRows rows' := hlive.trans hlive'.symm
  refine ⟨_, map, tree, hrun, hrun', ?_, ?_, fun key => ⟨?_, ?_⟩⟩
  · rw [HashMap.entries_eq hholds, TreeMap.entries_eq hholds', hrows]
  · rw [HashMap.len_eq hholds, TreeMap.len_eq hholds', hrows]
  · rw [HashMap.get_eq hholds, TreeMap.get_eq hholds', hrows, hkeys]
  · rw [HashMap.containsKey_eq hholds, TreeMap.containsKey_eq hholds', hrows, hkeys]

theorem maps_answer_alike_u64 : ∃ (map : HashMap (BitVec 64) Nat) (tree : TreeMap (BitVec 64) Nat),
    map.entries = tree.entries ∧ map.len = tree.len := by
  obtain ⟨_, map, tree, -, -, hentries, hlen, -⟩ := @maps_answer_alike (BitVec 64) Nat _ _ _ _ _ _
    (fun a b => by rw [Bool.eq_iff_iff, beq_iff_eq, beq_iff_eq, Std.compare_eq_iff_eq])
    ⟨3, 5⟩ [.assign 7 1, .assign 9 2, .remove 7]
  exact ⟨map, tree, hentries, hlen⟩

/-- Comparing two maps, whatever seeds and runs they come from, compares the pairs of their lists
in order: a removal leaves no trace. -/
theorem maps_compare_by_entries [BEq K] [Hash K] [PartialEquivBEq K] [LawfulHash K] [BEq V]
    [Ord K] [Std.TransOrd K] [Ord V] (ops ops' : List (MapOp K V)) :
    (∀ seed seed' : HashSeed, ∃ (map map' : HashMap K V) (answers answers' : List (MapAnswer V)),
      runOps HashMap.step (HashMap.withSeed seed) ops = some (answers, map) ∧
      runOps HashMap.step (HashMap.withSeed seed') ops' = some (answers', map') ∧
      map.eq map' = some ((AssocList.run (· == ·) [] ops).2 ==
        (AssocList.run (· == ·) [] ops').2) ∧
      map.cmp map' = some (comparePairs (AssocList.run (· == ·) [] ops).2
        (AssocList.run (· == ·) [] ops').2)) ∧
    ∃ (tree tree' : TreeMap K V) (answers answers' : List (MapAnswer V)),
      runOps TreeMap.step TreeMap.new ops = some (answers, tree) ∧
      runOps TreeMap.step TreeMap.new ops' = some (answers', tree') ∧
      tree.eq tree' = some ((AssocList.run TreeMap.sameKey [] ops).2 ==
        (AssocList.run TreeMap.sameKey [] ops').2) ∧
      tree.cmp tree' = some (comparePairs (AssocList.run TreeMap.sameKey [] ops).2
        (AssocList.run TreeMap.sameKey [] ops').2) := by
  constructor
  · intro seed seed'
    obtain ⟨map, rows, hrun, hholds, hlive⟩ := HashMap.run_holds seed ops
    obtain ⟨map', rows', hrun', hholds', hlive'⟩ := HashMap.run_holds seed' ops'
    rw [← hlive, ← hlive']
    exact ⟨map, map', _, _, hrun, hrun', hholds.log.eq_eq hholds'.log,
      hholds.log.cmp_eq hholds'.log⟩
  · obtain ⟨tree, rows, hrun, hholds, hlive⟩ := TreeMap.run_holds ops
    obtain ⟨tree', rows', hrun', hholds', hlive'⟩ := TreeMap.run_holds ops'
    rw [← hlive, ← hlive']
    exact ⟨tree, tree', _, _, hrun, hrun', hholds.1.eq_eq hholds'.1, hholds.1.cmp_eq hholds'.1⟩

theorem maps_compare_by_entries_u64 : ∃ map map' : HashMap (BitVec 64) Nat,
    map.eq map' = some true ∧ map.cmp map' = some .eq := by
  obtain ⟨map, map', _, _, -, -, heq, hcmp⟩ := (@maps_compare_by_entries (BitVec 64) Nat
    _ _ _ _ _ _ _ _ [.assign 7 1, .assign 9 2, .remove 7] [.assign 9 2]).1 ⟨3, 5⟩ ⟨1, 2⟩
  exact ⟨map, map', heq, hcmp⟩

end Wado
