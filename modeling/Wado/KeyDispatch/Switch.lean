/-
A match as a switch: a table of arms by offset from the least key, with a default, and
the arm the lowered table branch selects.
-/
import Wado.KeyDispatch.Bitset

namespace Wado.KeyDispatch

open List Option

/-- Minimum values a table must cover to be worth it. -/
def switchMinCases : Nat := 12

/-- Spans a cascade must test for a table to pay at any density. -/
def switchLongCascadeSpans : Nat := 12

/-- Maximum range size for a table. -/
def switchMaxRange : Int := 1024

structure SwitchAnalysis where
  minValue : Int
  /-- Per value from `minValue`, the first arm naming it. -/
  offsetArm : List (Option Nat)
  /-- Index of the wildcard arm, if any. -/
  defaultArm : Option Nat

section Analyze

/-- The first span covering an offset wins. -/
def getOrInsert (table : List (Option Nat)) (offset arm : Nat) : List (Option Nat) :=
  table.modify offset fun slot => slot.or (some arm)

def fillSpan (minValue : Int) (table : List (Option Nat)) (span : ArmSpan) : List (Option Nat) :=
  (keysBetween span.lo span.hi).foldl
    (fun table key => getOrInsert table (key - minValue).toNat span.arm) table

/-- Analyze whether a match can be rewritten into a switch. -/
def analyzeSwitch {β : Type} (t : ScrutineeType) (arms : List (ArmData β)) :
    Option SwitchAnalysis :=
  if (scrutineeBits t).isNone then none
  else
    match armSpans arms with
    | none => none
    | some (specs, defaultArm) =>
      let minValue := leastKey specs
      let range := greatestKey specs - minValue + 1
      if specs = [] then none
      else if switchMaxRange < range then none
      else if specs.length < 2 then none
      else
        let offsetArm := specs.foldl (fillSpan minValue) (List.replicate range.toNat none)
        let covered := offsetArm.countP (·.isSome)
        if covered < switchMinCases then none
        -- fewer than three in four values covered
        else if 4 * (covered : Int) < 3 * range ∧ specs.length < switchLongCascadeSpans then none
        else some ⟨minValue, offsetArm, defaultArm⟩

end Analyze

section Build

/-- A switch; an arm of it is a copy of the body of the match's arm it names.  `none` as
the default is the call that cannot be reached. -/
structure Switch where
  minValue : Int
  /-- Per value from `minValue`, the index into `arms` it dispatches to. -/
  table : List (Option Nat)
  arms : List Nat
  default : Option Nat

/-- The table over the switch's own arms: each match arm reached is copied once, when
the first offset dispatches to it. -/
def placeArms : List (Option Nat) → List (Option Nat) → List Nat → List (Option Nat) × List Nat
  | [], _, switchArms => ([], switchArms)
  | none :: offsets, switchArmOf, switchArms =>
    let r := placeArms offsets switchArmOf switchArms
    (none :: r.1, r.2)
  | some arm :: offsets, switchArmOf, switchArms =>
    match switchArmOf[arm]? with
    | some (some position) =>
      let r := placeArms offsets switchArmOf switchArms
      (some position :: r.1, r.2)
    | _ =>
      let r := placeArms offsets (switchArmOf.set arm (some switchArms.length))
        (switchArms ++ [arm])
      (some switchArms.length :: r.1, r.2)

def buildSwitch {β : Type} (arms : List (ArmData β)) (analysis : SwitchAnalysis) : Switch :=
  let placed := placeArms analysis.offsetArm (List.replicate arms.length none) []
  ⟨analysis.minValue, placed.1, placed.2, analysis.defaultArm⟩

def matchToSwitch {β : Type} (t : ScrutineeType) (arms : List (ArmData β)) : Option Switch :=
  (analyzeSwitch t arms).map (buildSwitch arms)

end Build

section Lowered

/-- The index the lowered switch branches by.  A 64-bit offset is range-checked before
it narrows. -/
def Switch.index (s : Switch) (t : ScrutineeType) (value : Int) : BitVec 32 :=
  if t.isWide then
    let offset := offsetBits 64 value s.minValue
    if offset.ult (BitVec.ofNat 64 s.table.length) then offset.setWidth 32
    else BitVec.ofNat 32 s.table.length
  else if s.minValue ≠ 0 then offsetBits 32 value s.minValue
  else BitVec.ofInt 32 value

/-- Depth 0 leaves for the default, and depth `i + 1` for the `i`-th arm. -/
def Switch.targets (s : Switch) : List Nat := s.table.map fun arm => arm.elim 0 (· + 1)

/-- The match arm whose body the switch runs. -/
def Switch.selects (s : Switch) (t : ScrutineeType) (value : Int) : Option Nat :=
  match s.targets[(s.index t value).toNat]?.getD 0 with
  | 0 => s.default
  | position + 1 => s.arms[position]?

end Lowered

section Table

theorem getOrInsert_getElem? (table : List (Option Nat)) (offset arm k : Nat) :
    (getOrInsert table offset arm)[k]? =
      table[k]?.map fun slot => if offset = k then slot.or (some arm) else slot := by
  rw [getOrInsert, List.getElem?_modify]
  cases table[k]? with
  | none => rfl
  | some slot => split <;> simp_all

theorem fillSpan_getElem? {minValue : Int} {span : ArmSpan} (hlo : minValue ≤ span.lo)
    (table : List (Option Nat)) (k : Nat) :
    (fillSpan minValue table span)[k]? = table[k]?.map fun slot =>
        slot.or (if span.covers (minValue + k) then some span.arm else none) := by
  have hkeys : ∀ (keys : List Int) (table : List (Option Nat)), (∀ key ∈ keys, minValue ≤ key) →
      (keys.foldl (fun table key => getOrInsert table (key - minValue).toNat span.arm) table)[k]? =
        table[k]?.map fun slot =>
          slot.or (if minValue + k ∈ keys then some span.arm else none) := by
    intro keys
    induction keys with
    | nil =>
      intro table _
      simp only [foldl_nil, not_mem_nil, if_false, Option.or_none, Option.map_id']
    | cons key keys ih =>
      intro table hge
      rw [forall_mem_cons] at hge
      rw [foldl_cons, ih _ hge.2, getOrInsert_getElem?]
      cases table[k]? with
      | none => rfl
      | some slot =>
        have hoffset : (key - minValue).toNat = k ↔ minValue + k = key := by omega
        simp only [Option.map_some, mem_cons, hoffset]
        by_cases hkey : minValue + (k : Int) = key
        · simp only [hkey, if_true, true_or]
          cases slot <;> rfl
        · simp only [hkey, if_false, false_or]
  rw [fillSpan, hkeys _ _ fun key hkey => hlo.trans (mem_keysBetween.mp hkey).1]
  simp only [mem_keysBetween, ArmSpan.covers, Bool.and_eq_true, decide_eq_true_eq]

/-- The table holds, per offset, the arm of the first span that covers its key. -/
theorem foldl_fillSpan_getElem? {minValue : Int} {specs : List ArmSpan}
    (hlo : ∀ span ∈ specs, minValue ≤ span.lo) (table : List (Option Nat)) (k : Nat) :
    (specs.foldl (fillSpan minValue) table)[k]? =
      table[k]?.map fun slot => slot.or (firstSpan specs (minValue + k)) := by
  induction specs generalizing table with
  | nil =>
    rw [foldl_nil]
    cases table[k]? with
    | none => rfl
    | some slot => exact congrArg some (Option.or_none).symm
  | cons span specs ih =>
    rw [forall_mem_cons] at hlo
    rw [foldl_cons, ih hlo.2, fillSpan_getElem? hlo.1, firstSpan_cons]
    cases table[k]? with
    | none => rfl
    | some slot =>
      simp only [Option.map_some, Option.or_assoc]
      split <;> rfl

variable (minValue : Int)

theorem fillSpan_length (table : List (Option Nat)) (span : ArmSpan) :
    (fillSpan minValue table span).length = table.length := by
  rw [fillSpan]
  induction keysBetween span.lo span.hi generalizing table with
  | nil => rfl
  | cons key keys ih => rw [foldl_cons, ih, getOrInsert, length_modify]

theorem foldl_fillSpan_length (specs : List ArmSpan) (table : List (Option Nat)) :
    (specs.foldl (fillSpan minValue) table).length = table.length := by
  induction specs generalizing table with
  | nil => rfl
  | cons span specs ih => rw [foldl_cons, ih, fillSpan_length]

end Table

section Place

/-- Each match arm already placed is at the position noted for it. -/
def Placed (switchArmOf : List (Option Nat)) (switchArms : List Nat) : Prop :=
  ∀ arm position : Nat, switchArmOf[arm]? = some (some position) → switchArms[position]? = some arm

theorem placed_nil (n : Nat) : Placed (List.replicate n none) [] := by
  intro arm position h
  rw [List.getElem?_replicate] at h
  split at h <;> cases h

variable {switchArmOf : List (Option Nat)} {switchArms : List Nat}

theorem Placed.set (h : Placed switchArmOf switchArms) (arm : Nat) :
    Placed (switchArmOf.set arm (some switchArms.length)) (switchArms ++ [arm]) := by
  intro other position hposition
  rw [List.getElem?_set] at hposition
  split at hposition
  · rename_i heq
    subst heq
    split at hposition
    · obtain rfl := Option.some.inj (Option.some.inj hposition)
      rw [List.getElem?_append_right (Nat.le_refl _), Nat.sub_self, List.getElem?_cons_zero]
    · cases hposition
  · have hplaced := h other position hposition
    rw [List.getElem?_append_left (List.getElem?_eq_some_iff.mp hplaced).1]
    exact hplaced

/-- The arm an entry of a switch's table leads to. -/
def entryArm (switchArms : List Nat) (entry : Option Nat) : Option Nat :=
  entry.bind fun position => switchArms[position]?

theorem getElem?_of_prefix {l l' : List Nat} {i arm : Nat} (h : l <+: l')
    (hi : l[i]? = some arm) : l'[i]? = some arm := by
  obtain ⟨hlt, rfl⟩ := List.getElem?_eq_some_iff.mp hi
  exact prefix_iff_getElem?.mp h i hlt

/-- Placing the arms keeps those placed before, and leads each offset to its own arm. -/
theorem placeArms_spec (offsets : List (Option Nat)) (h : Placed switchArmOf switchArms) :
    switchArms <+: (placeArms offsets switchArmOf switchArms).2 ∧
      (placeArms offsets switchArmOf switchArms).1.map
        (entryArm (placeArms offsets switchArmOf switchArms).2) = offsets ∧
      ∀ position, some position ∈ (placeArms offsets switchArmOf switchArms).1 →
        ∃ arm, (placeArms offsets switchArmOf switchArms).2[position]? = some arm := by
  induction offsets generalizing switchArmOf switchArms with
  | nil => exact ⟨prefix_rfl, rfl, fun entry hentry => absurd hentry not_mem_nil⟩
  | cons slot offsets ih =>
    cases slot with
    | none =>
      obtain ⟨hPre, hmap, hsome⟩ := ih h
      refine ⟨hPre, congrArg (none :: ·) hmap, fun position hposition => ?_⟩
      exact hsome position ((mem_cons.mp hposition).resolve_left nofun)
    | some arm =>
      unfold placeArms
      split
      · rename_i noted hnoted
        obtain ⟨hPre, hmap, hsome⟩ := ih h
        have hentry := getElem?_of_prefix hPre (h arm noted hnoted)
        refine ⟨hPre, ?_, fun position hposition => ?_⟩
        · rw [map_cons, hmap, entryArm, bind_some, hentry]
        · rcases mem_cons.mp hposition with heq | hposition
          · obtain rfl := Option.some.inj heq
            exact ⟨arm, hentry⟩
          · exact hsome position hposition
      · obtain ⟨hPre, hmap, hsome⟩ := ih (h.set arm)
        have hlast : (switchArms ++ [arm])[switchArms.length]? = some arm := by
          rw [List.getElem?_append_right (Nat.le_refl _), Nat.sub_self, List.getElem?_cons_zero]
        have hentry := getElem?_of_prefix hPre hlast
        refine ⟨(prefix_append _ _).trans hPre, ?_, fun position hposition => ?_⟩
        · rw [map_cons, hmap, entryArm, bind_some, hentry]
        · rcases mem_cons.mp hposition with heq | hposition
          · obtain rfl := Option.some.inj heq
            exact ⟨arm, hentry⟩
          · exact hsome position hposition

end Place

section Selects

variable {β : Type} {t : ScrutineeType} {arms : List (ArmData β)} {value : Int}

variable (analysis : SwitchAnalysis)

theorem buildSwitch_table_length :
    (buildSwitch arms analysis).table.length = analysis.offsetArm.length := by
  have hmap := (placeArms_spec analysis.offsetArm (placed_nil arms.length)).2.1
  have hlength := congrArg List.length hmap
  rwa [length_map] at hlength

/-- The switch leads an offset to its arm, and every other index to the default. -/
theorem buildSwitch_selects :
    (buildSwitch arms analysis).selects t value =
      (analysis.offsetArm[((buildSwitch arms analysis).index t value).toNat]?.join).or
        analysis.defaultArm := by
  obtain ⟨-, hmap, hsome⟩ := placeArms_spec analysis.offsetArm (placed_nil arms.length)
  generalize hplaced : placeArms analysis.offsetArm (List.replicate arms.length none) [] = placed
    at hmap hsome
  have hbuilt : buildSwitch arms analysis =
      ⟨analysis.minValue, placed.1, placed.2, analysis.defaultArm⟩ := by
    rw [buildSwitch, hplaced]
  rw [hbuilt, Switch.selects, Switch.targets, ← hmap, List.getElem?_map, List.getElem?_map]
  dsimp only
  generalize (Switch.index _ t value).toNat = index
  cases hentry : placed.1[index]? with
  | none => rfl
  | some entry =>
    cases entry with
    | none => rfl
    | some position =>
      obtain ⟨arm, harm⟩ := hsome position (mem_of_getElem? hentry)
      simp only [map_some, getD_some, elim_some, entryArm,
        bind_some, harm, join_some, some_or]

/-- What an accepted analysis is. -/
theorem analyzeSwitch_eq {analysis : SwitchAnalysis}
    (h : analyzeSwitch t arms = some analysis) :
    ∃ specs, specs ≠ [] ∧ armSpans arms = some (specs, analysis.defaultArm) ∧
      analysis.minValue = leastKey specs ∧
      greatestKey specs - leastKey specs + 1 ≤ switchMaxRange ∧
      analysis.offsetArm = specs.foldl (fillSpan (leastKey specs))
        (List.replicate (greatestKey specs - leastKey specs + 1).toNat none) := by
  rw [analyzeSwitch] at h
  split at h
  · cases h
  · split at h
    · cases h
    · rename_i specs defaultArm hspans
      simp only at h
      split at h
      · cases h
      · rename_i hspecs
        split at h
        · cases h
        · rename_i hrange
          split at h
          · cases h
          · split at h
            · cases h
            · split at h
              · cases h
              · obtain rfl := Option.some.inj h
                exact ⟨specs, hspecs, hspans, rfl, not_lt.mp hrange, rfl⟩

/-- In the narrow case the least key zero is not taken away. -/
theorem Switch.index_narrow {s : Switch} (ht : t.isWide = false) :
    s.index t value = offsetBits 32 value s.minValue := by
  rw [Switch.index, ht, if_neg Bool.false_ne_true]
  split
  · rfl
  · rename_i hzero
    have hofZero : BitVec.ofInt 32 0 = 0#32 := rfl
    rw [not_not.mp hzero, offsetBits, hofZero, BitVec.sub_zero]

/-- The index is below the table's length just when the value is in the table's window,
and then is the value's place there. -/
theorem Switch.index_spec {s : Switch} {last : Int} (hshort : s.table.length ≤ 1024)
    (hleast : t.bounds.1 ≤ s.minValue) (hlast : s.minValue + s.table.length = last + 1)
    (hbound : last ≤ t.bounds.2) (hvalue : t.Holds value) :
    ((s.index t value).toNat < s.table.length ↔ s.minValue ≤ value ∧ value ≤ last) ∧
      (s.minValue ≤ value → value ≤ last →
        ((s.index t value).toNat : Int) = value - s.minValue) := by
  cases ht : t.isWide with
  | false =>
    have hspans := spans_narrow ht
    rw [Switch.index_narrow ht]
    refine ⟨(offsetBits_lt_iff hspans hleast (by omega) hvalue.1 hvalue.2).trans (by omega),
      fun hlo _ => offsetBits_eq hspans hleast hlo hvalue.2⟩
  | true =>
    have hspans := spans_wide ht
    have hwindow := @offsetBits_lt_iff 64 _ _ _ value s.table.length hspans hleast (by omega)
      hvalue.1 hvalue.2
    have hlength : (BitVec.ofNat 64 s.table.length).toNat = s.table.length :=
      Nat.mod_eq_of_lt (by omega)
    rw [Switch.index, ht, if_pos rfl]
    dsimp only
    rw [BitVec.ult_eq_decide, hlength]
    by_cases hin : (offsetBits 64 value s.minValue).toNat < s.table.length
    · have hplace := @offsetBits_eq 64 _ _ _ value hspans hleast (hwindow.mp hin).1 hvalue.2
      rw [if_pos (decide_eq_true hin), BitVec.toNat_setWidth, Nat.mod_eq_of_lt (by omega)]
      exact ⟨hwindow.trans (by omega), fun _ _ => hplace⟩
    · rw [if_neg (by rw [decide_eq_true_eq]; exact hin), BitVec.toNat_ofNat,
        Nat.mod_eq_of_lt (by omega)]
      rw [hwindow] at hin
      exact ⟨by omega, fun hlo hhi => absurd ⟨hlo, by omega⟩ hin⟩

/-- A match rewritten into a switch runs the arm the match selects. -/
theorem matchToSwitch_selects (run : Run) {s : Switch} (hfits : ∀ arm ∈ arms, arm.pattern.Fits t)
    (h : matchToSwitch t arms = some s) (hvalue : t.Holds value) :
    s.selects t value = firstArm run value arms := by
  obtain ⟨analysis, hanalysis, rfl⟩ := map_eq_some_iff.mp h
  obtain ⟨specs, hspecs, hspans, hleast, hrange, htable⟩ := analyzeSwitch_eq hanalysis
  have hspanFits : ∀ span ∈ specs, SpanFits t span.lo span.hi :=
    armSpansFrom_fits hspans hfits
  obtain ⟨hlow, hhigh, hwindow⟩ := window_fits hspanFits
  have hnonempty : leastKey specs ≤ greatestKey specs := by
    obtain ⟨span, hspan⟩ := exists_mem_of_ne_nil specs hspecs
    have := (hspanFits span hspan).2.1
    have := hwindow span hspan
    omega
  have hentry := foldl_fillSpan_getElem? (fun span hspan => (hwindow span hspan).1)
    (List.replicate (greatestKey specs - leastKey specs + 1).toNat none)
  have hminValue : (buildSwitch arms analysis).minValue = leastKey specs := hleast
  have hlength : (buildSwitch arms analysis).table.length =
      (greatestKey specs - leastKey specs + 1).toNat := by
    rw [buildSwitch_table_length, htable, foldl_fillSpan_length, length_replicate]
  have hindex := @Switch.index_spec t value (buildSwitch arms analysis) (greatestKey specs)
    (by rw [hlength]; simp only [switchMaxRange] at hrange; omega) (by rw [hminValue]; exact hlow)
    (by rw [hlength, hminValue]; omega) hhigh hvalue
  rw [hlength, hminValue] at hindex
  rw [buildSwitch_selects, firstArm_eq run value hspans, htable, hentry, List.getElem?_replicate]
  by_cases hin : leastKey specs ≤ value ∧ value ≤ greatestKey specs
  · have hplace : leastKey specs + (((buildSwitch arms analysis).index t value).toNat : Int) =
        value := by
      rw [hindex.2 hin.1 hin.2]
      omega
    rw [if_pos (hindex.1.mpr hin), hplace]
    rfl
  · rw [if_neg (mt hindex.1.mp hin), firstSpan_eq_none hwindow hin]
    rfl

end Selects

end Wado.KeyDispatch
