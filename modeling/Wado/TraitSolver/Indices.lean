/-
The three indices kept beside the impls of a program: whatever impls are pushed, replaced and
removed, each lists the ids that a scan of every impl would, in order.
-/
import Wado.TraitSolver.Impls
import Mathlib.Data.List.Pairwise

namespace Wado.TraitSolver

open List

namespace IndexMap

variable {K V : Type} [DecidableEq K]

/-- Filters the lists at `keys`. -/
def retainAtKeys (map : IndexMap K (List V)) (keys : List K) (keep : V → Bool) :
    IndexMap K (List V) :=
  map.map fun entry =>
    if entry.1 ∈ keys then (entry.1, entry.2.filter keep) else entry

theorem listAt_retainAtKeys (map : IndexMap K (List V)) (keys : List K) (keep : V → Bool)
    (key : K) :
    (map.retainAtKeys keys keep).listAt key =
      if key ∈ keys then (map.listAt key).filter keep else map.listAt key := by
  unfold retainAtKeys listAt
  induction map with
  | nil => simp
  | cons entry map ih =>
    rw [map_cons, lookup_cons, lookup_cons]
    by_cases hkey : key = entry.1
    · by_cases hmem : entry.1 ∈ keys
      · simp [hkey, hmem]
      · simp [hkey, hmem]
    · have hhead : (key == (if entry.1 ∈ keys then (entry.1, entry.2.filter keep) else entry).1) =
          false := by
        split
        · exact beq_false_of_ne hkey
        · exact beq_false_of_ne hkey
      rw [hhead, beq_false_of_ne hkey]
      exact ih

end IndexMap

open IndexMap

/-- The trait an impl is filed under. -/
def traitKey (impl : ImplDef) : Option TraitDeclId := impl.trait_

/-- The trait and the head that a trait impl is filed under. -/
def targetKey (impl : ImplDef) : Option (TraitDeclId × Option TypeDeclId) :=
  impl.trait_.map fun trait_ => (trait_, targetHead impl.target)

/-- The head that a trait impl is filed under. -/
def headKey (impl : ImplDef) : Option (Option TypeDeclId) :=
  impl.trait_.map fun _ => targetHead impl.target

/-- A program, and its trait impls by the declaration that the target names alone. -/
structure IndexedProgram where
  program : Program
  traitImplsByHead : IndexMap (Option TypeDeclId) (List ImplId)

namespace IndexedProgram

def pushImpl (indexed : IndexedProgram) (impl : ImplDef) : Run (IndexedProgram × ImplId) := do
  let (program, id) ← indexed.program.pushImpl impl
  let traitImplsByHead :=
    match headKey impl with
    | none => indexed.traitImplsByHead
    | some head => indexed.traitImplsByHead.pushAt head id
  return (⟨program, traitImplsByHead⟩, id)

def replaceImpl (indexed : IndexedProgram) (id : ImplId) (impl : ImplDef) : Run IndexedProgram := do
  return { indexed with program := ← indexed.program.replaceImpl id impl }

/-- Takes out the impls at `ids`, each of which is there. -/
def removeImpls (indexed : IndexedProgram) (ids : List ImplId) : Run IndexedProgram :=
  let program := indexed.program
  match ids.mapM fun id => program.impls.lookup id with
  | none => .error .panic
  | some impls =>
    let keys := impls.filterMap targetKey
    let kept := fun id => !decide (id ∈ ids)
    -- the lists to filter are there
    if keys.all fun key => (program.implsByTrait.lookup key.1).isSome &&
        (program.implsByTarget.lookup key).isSome &&
        (indexed.traitImplsByHead.lookup key.2).isSome then
      .ok {
        program := { program with
          impls := program.impls.filter fun entry => kept entry.1
          implsByTrait := program.implsByTrait.retainAtKeys (keys.map Prod.fst) kept
          implsByTarget := program.implsByTarget.retainAtKeys keys kept }
        traitImplsByHead := indexed.traitImplsByHead.retainAtKeys (keys.map Prod.snd) kept }
    else .error .panic

/-- The trait impls whose target could match `ty`, in the order they were added. -/
def traitImplsFor (indexed : IndexedProgram) (ty : SolverType) : List (ImplId × ImplDef) :=
  if ty = .anyRow then indexed.program.impls.filter fun entry => entry.2.trait_.isSome
  else
    let ids := fun head => indexed.traitImplsByHead.listAt head
    let named :=
      match targetHead ty with
      | none => []
      | some head => ids (some head)
    indexed.program.implsAt (Program.mergeIds (ids none) named)

/-- A change to the impls of a program. -/
inductive Op where
  | push (impl : ImplDef)
  | replace (id : ImplId) (impl : ImplDef)
  | remove (ids : List ImplId)

def step (indexed : IndexedProgram) : Op → Run IndexedProgram
  | .push impl => do return (← indexed.pushImpl impl).1
  | .replace id impl => indexed.replaceImpl id impl
  | .remove ids => indexed.removeImpls ids

def runOps : List Op → IndexedProgram → Run IndexedProgram
  | [], indexed => .ok indexed
  | op :: ops, indexed => do runOps ops (← indexed.step op)

/-- A program without impls, whatever its tables hold. -/
structure IsEmpty (indexed : IndexedProgram) : Prop where
  impls : indexed.program.impls = []
  byTrait : indexed.program.implsByTrait = []
  byTarget : indexed.program.implsByTarget = []
  byHead : indexed.traitImplsByHead = []

end IndexedProgram

variable {id : ImplId}

section Filing

variable {K : Type} [DecidableEq K] {impls : IndexMap ImplId ImplDef}
  {map : IndexMap K (List ImplId)} {keyOf : ImplDef → Option K}

/-- Ids in the order of their numbers. -/
def Ascending (impls : IndexMap ImplId ImplDef) : Prop :=
  impls.Pairwise fun entry entry' => entry.1.id < entry'.1.id

/-- An index lists, at each key, the ids of the impls with that key, in order. -/
def FiledBy (impls : IndexMap ImplId ImplDef) (keyOf : ImplDef → Option K)
    (map : IndexMap K (List ImplId)) : Prop :=
  ∀ key, map.listAt key = (impls.filter fun entry => keyOf entry.2 = some key).map Prod.fst

theorem FiledBy.push (h : FiledBy impls keyOf map) (id : ImplId) (impl : ImplDef) :
    FiledBy (impls ++ [(id, impl)]) keyOf
      (match keyOf impl with
        | none => map
        | some key => map.pushAt key id) := by
  intro key
  rw [filter_append, map_append, ← h key]
  cases hkey : keyOf impl with
  | none => simp [hkey]
  | some found =>
    dsimp only
    rw [listAt_pushAt]
    by_cases heq : key = found
    · simp [hkey, heq]
    · have hne : ¬found = key := fun hfound => heq hfound.symm
      simp [hkey, heq, hne]

theorem entry_unique (hascending : Ascending impls) {impl impl' : ImplDef}
    (h : (id, impl) ∈ impls) (h' : (id, impl') ∈ impls) : impl = impl' := by
  have hlookup := lookup_of_mem hascending h
  rw [lookup_of_mem hascending h'] at hlookup
  exact (Option.some.inj hlookup).symm

/-- A replacement that keeps its key leaves an index as it is. -/
theorem FiledBy.replace (h : FiledBy impls keyOf map) (hascending : Ascending impls)
    {old impl : ImplDef} (hlookup : impls.lookup id = some old) (hkey : keyOf impl = keyOf old) :
    FiledBy (impls.map fun entry => if entry.1 = id then (entry.1, impl) else entry) keyOf map := by
  intro key
  rw [h key, filter_map, map_map]
  have hkeys : ∀ entry ∈ impls,
      decide (keyOf (if entry.1 = id then (entry.1, impl) else entry).2 = some key) =
        decide (keyOf entry.2 = some key) := by
    intro entry hmem
    by_cases hid : entry.1 = id
    · have hold : entry.2 = old := by
        refine entry_unique hascending ?_ (mem_of_lookup hlookup)
        rw [← hid]
        exact hmem
      rw [if_pos hid, hkey, hold]
    · rw [if_neg hid]
  simp only [Function.comp_def]
  rw [filter_congr hkeys]
  refine map_congr_left fun entry _ => ?_
  split <;> rfl

/-- Filtering the lists at the keys of the removed impls takes out what the impls lose. -/
theorem FiledBy.remove (h : FiledBy impls keyOf map) {ids : List ImplId} {keys : List K}
    (hkeys : ∀ entry ∈ impls, entry.1 ∈ ids → ∀ key, keyOf entry.2 = some key → key ∈ keys) :
    FiledBy (impls.filter fun entry => !decide (entry.1 ∈ ids)) keyOf
      (map.retainAtKeys keys fun id => !decide (id ∈ ids)) := by
  intro key
  rw [listAt_retainAtKeys, h key, filter_filter]
  have hfilter : ((impls.filter fun entry => keyOf entry.2 = some key).map Prod.fst).filter
        (fun id => !decide (id ∈ ids)) =
      (impls.filter fun entry =>
        decide (keyOf entry.2 = some key) && !decide (entry.1 ∈ ids)).map Prod.fst := by
    rw [filter_map, filter_filter]
    simp only [Function.comp_def, Bool.and_comm]
  split
  next => exact hfilter
  next hmem =>
    -- no removed impl has the key
    refine congrArg (List.map Prod.fst) (filter_congr fun entry hentry => ?_)
    by_cases hkey : keyOf entry.2 = some key
    · have hkept : entry.1 ∉ ids := fun hid => hmem (hkeys entry hentry hid key hkey)
      simp [hkey, hkept]
    · simp [hkey]

end Filing

theorem mem_mapM_some {α β : Type} {f : α → Option β} {xs : List α} {ys : List β}
    (h : xs.mapM f = some ys) {x : α} (hmem : x ∈ xs) : ∃ y ∈ ys, f x = some y := by
  induction xs generalizing ys with
  | nil => cases hmem
  | cons head xs ih =>
    rw [mapM_cons] at h
    obtain ⟨y, hy, hrest⟩ := Option.bind_eq_some_iff.mp h
    obtain ⟨tail, htail, hys⟩ := Option.bind_eq_some_iff.mp hrest
    obtain rfl := Option.some.inj hys
    obtain rfl | hin := mem_cons.mp hmem
    · exact ⟨y, mem_cons_self, hy⟩
    · obtain ⟨y', hy', hfound⟩ := ih htail hin
      exact ⟨y', mem_cons_of_mem _ hy', hfound⟩

/-- What the changes keep: ids in order, and indices that list what a scan would. -/
structure Filed (indexed : IndexedProgram) : Prop where
  ascending : Ascending indexed.program.impls
  byTrait : FiledBy indexed.program.impls traitKey indexed.program.implsByTrait
  byTarget : FiledBy indexed.program.impls targetKey indexed.program.implsByTarget
  byHead : FiledBy indexed.program.impls headKey indexed.traitImplsByHead

variable {entry : ImplId × ImplDef}

namespace Filed

variable {indexed indexed' : IndexedProgram}

theorem empty (h : indexed.IsEmpty) : Filed indexed := by
  refine ⟨?_, fun key => ?_, fun key => ?_, fun key => ?_⟩
  · rw [Ascending, h.impls]
    exact List.Pairwise.nil
  · rw [h.byTrait, h.impls]
    rfl
  · rw [h.byTarget, h.impls]
    rfl
  · rw [h.byHead, h.impls]
    rfl

theorem lt_nextImplId (h : Filed indexed)
    (hmem : entry ∈ indexed.program.impls) : entry.1.id < indexed.program.nextImplId.id := by
  unfold Program.nextImplId
  cases hlast : indexed.program.impls.getLast? with
  | none =>
    rw [List.getLast?_eq_none_iff.mp hlast] at hmem
    cases hmem
  | some last =>
    obtain ⟨front, hfront⟩ := List.getLast?_eq_some_iff.mp hlast
    have hascending := h.ascending
    rw [Ascending, hfront] at hascending
    rw [hfront] at hmem
    obtain hin | hin := mem_append.mp hmem
    · have hlt := (pairwise_append.mp hascending).2.2 _ hin last mem_cons_self
      exact Nat.lt_succ_of_lt hlt
    · rw [← mem_singleton.mp hin]
      exact Nat.lt_succ_self _

theorem push (h : Filed indexed) {impl : ImplDef} {id : ImplId}
    (hpush : indexed.pushImpl impl = .ok (indexed', id)) : Filed indexed' := by
  unfold IndexedProgram.pushImpl Program.pushImpl at hpush
  split at hpush
  next => cases hpush
  next =>
    have hascending : Ascending
        (indexed.program.impls ++ [(indexed.program.nextImplId, impl)]) := by
      refine pairwise_append.mpr ⟨h.ascending, pairwise_singleton _ _, ?_⟩
      intro entry hmem entry' hmem'
      rw [mem_singleton.mp hmem']
      exact h.lt_nextImplId hmem
    have hbyTrait := h.byTrait.push indexed.program.nextImplId impl
    have hbyTarget := h.byTarget.push indexed.program.nextImplId impl
    have hbyHead := h.byHead.push indexed.program.nextImplId impl
    unfold traitKey at hbyTrait
    unfold targetKey at hbyTarget
    unfold headKey at hbyHead hpush
    cases htrait : impl.trait_ with
    | none =>
      rw [htrait] at hpush hbyTrait hbyTarget hbyHead
      cases hpush
      exact ⟨hascending, hbyTrait, hbyTarget, hbyHead⟩
    | some trait_ =>
      rw [htrait] at hpush hbyTrait hbyTarget hbyHead
      cases hpush
      exact ⟨hascending, hbyTrait, hbyTarget, hbyHead⟩

theorem replace (h : Filed indexed) {impl : ImplDef}
    (hreplace : indexed.replaceImpl id impl = .ok indexed') : Filed indexed' := by
  unfold IndexedProgram.replaceImpl Program.replaceImpl at hreplace
  split at hreplace
  next => cases hreplace
  next old hlookup =>
    split at hreplace
    next hsame =>
      cases hreplace
      refine ⟨?_, h.byTrait.replace h.ascending hlookup hsame.1.symm,
        h.byTarget.replace h.ascending hlookup ?_, h.byHead.replace h.ascending hlookup ?_⟩
      · refine pairwise_map.mpr (h.ascending.imp fun {entry entry'} hlt => ?_)
        split <;> split <;> exact hlt
      · rw [targetKey, targetKey, hsame.1, hsame.2]
      · rw [headKey, headKey, hsame.1, hsame.2]
    next => cases hreplace

theorem remove (h : Filed indexed) {ids : List ImplId}
    (hremove : indexed.removeImpls ids = .ok indexed') : Filed indexed' := by
  unfold IndexedProgram.removeImpls at hremove
  dsimp only at hremove
  split at hremove
  next => cases hremove
  next impls hlookups =>
    split at hremove
    next =>
      cases hremove
      -- the key of a removed impl is among those whose lists are filtered
      have hkeys : ∀ entry ∈ indexed.program.impls, entry.1 ∈ ids → ∀ key,
          targetKey entry.2 = some key → key ∈ impls.filterMap targetKey := by
        intro entry hmem hid key hkey
        obtain ⟨impl, himpl, hlookup⟩ := mem_mapM_some hlookups hid
        rw [lookup_of_mem h.ascending hmem] at hlookup
        exact mem_filterMap.mpr ⟨impl, himpl, Option.some.inj hlookup ▸ hkey⟩
      refine ⟨h.ascending.filter _, h.byTrait.remove ?_, h.byTarget.remove hkeys,
        h.byHead.remove ?_⟩
      · intro entry hmem hid key hkey
        exact mem_map.mpr ⟨(key, targetHead entry.2.target),
          hkeys entry hmem hid _ (congrArg (Option.map _) hkey), rfl⟩
      · intro entry hmem hid key hkey
        obtain ⟨trait_, htrait, rfl⟩ := Option.map_eq_some_iff.mp hkey
        exact mem_map.mpr ⟨(trait_, targetHead entry.2.target),
          hkeys entry hmem hid _ (congrArg (Option.map _) htrait), rfl⟩
    next => cases hremove

theorem step (h : Filed indexed) {op : IndexedProgram.Op}
    (hstep : indexed.step op = .ok indexed') : Filed indexed' := by
  cases op with
  | push impl =>
    rw [IndexedProgram.step] at hstep
    cases hpush : indexed.pushImpl impl with
    | error stop =>
      rw [hpush] at hstep
      cases hstep
    | ok pushed =>
      rw [hpush] at hstep
      cases hstep
      exact h.push hpush
  | replace id impl => exact h.replace hstep
  | remove ids => exact h.remove hstep

theorem runOps (h : Filed indexed) {ops : List IndexedProgram.Op}
    (hrun : IndexedProgram.runOps ops indexed = .ok indexed') : Filed indexed' := by
  induction ops generalizing indexed with
  | nil =>
    cases hrun
    exact h
  | cons op ops ih =>
    rw [IndexedProgram.runOps] at hrun
    cases hstep : indexed.step op with
    | error stop =>
      rw [hstep] at hrun
      cases hrun
    | ok next =>
      rw [hstep] at hrun
      exact ih (h.step hstep) hrun

end Filed

section Merging

variable {impls : IndexMap ImplId ImplDef}

/-- Two runs of ids, each in order and with none in common, merge in order. -/
theorem mergeWithin_ascending (fuel : Nat) (ids ids' : List ImplId)
    (hlength : ids.length + ids'.length ≤ fuel)
    (hids : ids.Pairwise fun id id' => id.id < id'.id)
    (hids' : ids'.Pairwise fun id id' => id.id < id'.id) (hdisjoint : ∀ id ∈ ids, id ∉ ids') :
    (Program.mergeWithin fuel ids ids').Pairwise fun id id' => id.id < id'.id := by
  induction fuel generalizing ids ids' with
  | zero => exact List.Pairwise.nil
  | succ fuel ih =>
    cases ids with
    | nil => exact hids'
    | cons first ids =>
      cases ids' with
      | nil => exact hids
      | cons first' ids' =>
        rw [length_cons, length_cons] at hlength
        rw [Program.mergeWithin]
        split
        next hlt =>
          have hrest : (first :: ids).length + ids'.length ≤ fuel := by
            rw [length_cons]
            omega
          refine List.Pairwise.cons (fun id hmem => ?_) (ih _ _ hrest hids hids'.of_cons
            fun id hmem hmem' => hdisjoint id hmem (mem_cons_of_mem _ hmem'))
          obtain hmem | hmem := (mem_mergeWithin fuel _ _ hrest).mp hmem
          · obtain rfl | hmem := mem_cons.mp hmem
            · exact hlt
            · exact Nat.lt_trans hlt (rel_of_pairwise_cons hids hmem)
          · exact rel_of_pairwise_cons hids' hmem
        next hle =>
          have hne : first.id ≠ first'.id := fun heq =>
            hdisjoint first mem_cons_self
              (mem_cons.mpr (.inl (congrArg ImplId.mk heq)))
          have hlt : first.id < first'.id := by omega
          have hrest : ids.length + (first' :: ids').length ≤ fuel := by
            rw [length_cons]
            omega
          refine List.Pairwise.cons (fun id hmem => ?_) (ih _ _ hrest hids.of_cons hids'
            fun id hmem hmem' => hdisjoint id (mem_cons_of_mem _ hmem) hmem')
          obtain hmem | hmem := (mem_mergeWithin fuel _ _ hrest).mp hmem
          · exact rel_of_pairwise_cons hids hmem
          · obtain rfl | hmem := mem_cons.mp hmem
            · exact hlt
            · exact Nat.lt_trans hlt (rel_of_pairwise_cons hids' hmem)

/-- Lists of ids in order are the same where their members are. -/
theorem ascending_ext {ids ids' : List ImplId} (hids : ids.Pairwise fun id id' => id.id < id'.id)
    (hids' : ids'.Pairwise fun id id' => id.id < id'.id) (h : ∀ id, id ∈ ids ↔ id ∈ ids') :
    ids = ids' := by
  have hnodup {l : List ImplId} (hl : l.Pairwise fun id id' => id.id < id'.id) : l.Nodup :=
    hl.imp fun {a b} hlt heq => absurd hlt (by rw [heq]; exact Nat.lt_irrefl _)
  refine List.Perm.eq_of_pairwise (fun a b _ _ hab hba => ?_) hids hids'
    ((perm_ext_iff_of_nodup (hnodup hids) (hnodup hids')).mpr h)
  exact absurd hab (Nat.lt_asymm hba)

theorem filter_ascending (h : Ascending impls) (keep : ImplId × ImplDef → Bool) :
    ((impls.filter keep).map Prod.fst).Pairwise fun id id' => id.id < id'.id :=
  pairwise_map.mpr (h.filter keep)

theorem mem_filter_fst (h : Ascending impls) {keep : ImplId × ImplDef → Bool}
    (hmem : entry ∈ impls) :
    entry.1 ∈ (impls.filter keep).map Prod.fst ↔ keep entry = true := by
  constructor
  · intro hin
    obtain ⟨found, hfound, hid⟩ := mem_map.mp hin
    obtain ⟨hfoundMem, hkeep⟩ := mem_filter.mp hfound
    have hin : (entry.1, found.2) ∈ impls := by
      rw [← hid]
      exact hfoundMem
    rw [← Prod.ext hid (entry_unique h hin hmem)]
    exact hkeep
  · intro hkeep
    exact mem_map_of_mem (mem_filter.mpr ⟨hmem, hkeep⟩)

/-- Merging the ids of two scans gives the ids of one scan. -/
theorem mergeIds_filter (h : Ascending impls) {first second : ImplId × ImplDef → Bool}
    (hdisjoint : ∀ entry ∈ impls, first entry = true → second entry = false) :
    Program.mergeIds ((impls.filter first).map Prod.fst) ((impls.filter second).map Prod.fst) =
      (impls.filter fun entry => first entry || second entry).map Prod.fst := by
  refine ascending_ext ?_ (filter_ascending h _) fun id => ?_
  · refine mergeWithin_ascending _ _ _ (Nat.le_refl _) (filter_ascending h _)
      (filter_ascending h _) fun id hfirst hsecond => ?_
    obtain ⟨entry, hentry, rfl⟩ := mem_map.mp hfirst
    obtain ⟨hmem, hkeep⟩ := mem_filter.mp hentry
    have htrue := (mem_filter_fst h hmem).mp hsecond
    rw [hdisjoint entry hmem hkeep] at htrue
    cases htrue
  · rw [mem_mergeIds]
    simp only [mem_map, mem_filter, Bool.or_eq_true]
    constructor
    · rintro (⟨entry, ⟨hmem, hkeep⟩, rfl⟩ | ⟨entry, ⟨hmem, hkeep⟩, rfl⟩)
      · exact ⟨entry, ⟨hmem, .inl hkeep⟩, rfl⟩
      · exact ⟨entry, ⟨hmem, .inr hkeep⟩, rfl⟩
    · rintro ⟨entry, ⟨hmem, hkeep | hkeep⟩, rfl⟩
      · exact .inl ⟨entry, ⟨hmem, hkeep⟩, rfl⟩
      · exact .inr ⟨entry, ⟨hmem, hkeep⟩, rfl⟩

/-- The impls at the ids of a scan are what the scan found. -/
theorem implsAt_filter {program : Program} (h : Ascending program.impls)
    (keep : ImplId × ImplDef → Bool) :
    program.implsAt ((program.impls.filter keep).map Prod.fst) = program.impls.filter keep := by
  unfold Program.implsAt
  rw [filterMap_map]
  have hlookup : ∀ entry ∈ program.impls.filter keep,
      ((fun id => (program.impls.lookup id).map fun impl => (id, impl)) ∘ Prod.fst) entry =
        some entry := by
    intro entry hentry
    rw [Function.comp, lookup_of_mem h (mem_filter.mp hentry).1]
    rfl
  rw [filterMap_congr hlookup, filterMap_some]

end Merging

/-- Whether an impl is filed where a question about `ty` looks: under no declaration or under the
type's, or anywhere for an open row. -/
def filedFor (ty : SolverType) (impl : ImplDef) : Bool :=
  decide (ty = .anyRow) || decide (targetHead impl.target = none) ||
    decide (targetHead impl.target = targetHead ty)

namespace Filed

variable {indexed : IndexedProgram}

/-- Two buckets of an index, under no declaration and under a type's, merge into one scan. -/
theorem buckets_eq {K : Type} [DecidableEq K] {impls : IndexMap ImplId ImplDef}
    {map : IndexMap K (List ImplId)} {keyOf : ImplDef → Option K} (hascending : Ascending impls)
    (h : FiledBy impls keyOf map) (keyAt : Option TypeDeclId → K)
    (hkeys : ∀ head head', keyAt head = keyAt head' → head = head') (ty : SolverType)
    {named : List ImplId} (hnone : targetHead ty = none → named = [])
    (hsome : ∀ head, targetHead ty = some head → named = map.listAt (keyAt (some head))) :
    Program.mergeIds (map.listAt (keyAt none)) named =
      (impls.filter fun entry => decide (keyOf entry.2 = some (keyAt none)) ||
        decide (keyOf entry.2 = some (keyAt (targetHead ty)))).map Prod.fst := by
  rw [h]
  cases hhead : targetHead ty with
  | none =>
    have hmerged := @mergeIds_filter impls hascending
      (fun entry => decide (keyOf entry.2 = some (keyAt none))) (fun _ => false) fun _ _ _ => rfl
    simp only [Bool.or_false, filter_false, map_nil] at hmerged
    simp only [Bool.or_self]
    rw [hnone hhead]
    exact hmerged
  | some head =>
    rw [hsome head hhead, h]
    refine mergeIds_filter hascending fun entry _ hfirst => decide_eq_false fun hsecond => ?_
    rw [of_decide_eq_true hfirst] at hsecond
    cases hkeys _ _ (Option.some.inj hsecond)

/-- What a question's scan yields is what a scan of every impl does. -/
theorem implsFor_eq (h : Filed indexed) (trait_ : TraitDeclId) (ty : SolverType) :
    indexed.program.implsFor trait_ ty = indexed.program.impls.filter fun entry =>
      decide (entry.2.trait_ = some trait_) && filedFor ty entry.2 := by
  unfold Program.implsFor
  split
  next hopen =>
    rw [Program.implsOf, h.byTrait, implsAt_filter h.ascending]
    refine filter_congr fun entry _ => ?_
    rw [filedFor, decide_eq_true hopen, Bool.true_or, Bool.true_or, Bool.and_true]
    exact decide_eq_decide.mpr Iff.rfl
  next hopen =>
    dsimp only
    rw [buckets_eq h.ascending h.byTarget (fun head => (trait_, head))
      (fun head head' heq => congrArg Prod.snd heq) ty (fun hhead => by rw [hhead])
      (fun head hhead => by rw [hhead]), implsAt_filter h.ascending]
    refine filter_congr fun entry _ => ?_
    have hkey (head : Option TypeDeclId) : targetKey entry.2 = some (trait_, head) ↔
        entry.2.trait_ = some trait_ ∧ targetHead entry.2.target = head := by
      rw [targetKey, Option.map_eq_some_iff]
      constructor
      · rintro ⟨found, htrait, heq⟩
        cases heq
        exact ⟨htrait, rfl⟩
      · rintro ⟨htrait, rfl⟩
        exact ⟨trait_, htrait, rfl⟩
    rw [filedFor, decide_eq_false hopen, Bool.false_or, Bool.and_or_distrib_left,
      ← Bool.decide_and, ← Bool.decide_and]
    exact congrArg₂ or (decide_eq_decide.mpr (hkey none)) (decide_eq_decide.mpr (hkey _))

theorem traitImplsFor_eq (h : Filed indexed) (ty : SolverType) :
    indexed.traitImplsFor ty = indexed.program.impls.filter fun entry =>
      entry.2.trait_.isSome && filedFor ty entry.2 := by
  unfold IndexedProgram.traitImplsFor
  split
  next hopen =>
    refine filter_congr fun entry _ => ?_
    rw [filedFor, decide_eq_true hopen, Bool.true_or, Bool.true_or, Bool.and_true]
  next hopen =>
    dsimp only
    rw [show indexed.traitImplsByHead.listAt none = indexed.traitImplsByHead.listAt (id none) from
      rfl, buckets_eq h.ascending h.byHead id (fun head head' heq => heq) ty
      (fun hhead => by rw [hhead]) (fun head hhead => by rw [hhead]; rfl),
      implsAt_filter h.ascending]
    refine filter_congr fun entry _ => ?_
    have hkey (head : Option TypeDeclId) : headKey entry.2 = some head ↔
        entry.2.trait_.isSome = true ∧ targetHead entry.2.target = head := by
      rw [headKey, Option.map_eq_some_iff, Option.isSome_iff_exists]
      exact exists_and_right
    rw [filedFor, decide_eq_false hopen, Bool.false_or, Bool.and_or_distrib_left]
    refine congrArg₂ or ?_ ?_
    · rw [decide_eq_decide.mpr (hkey (id none)), Bool.decide_and, Bool.decide_eq_true]
      rfl
    · rw [decide_eq_decide.mpr (hkey (id (targetHead ty))), Bool.decide_and, Bool.decide_eq_true]
      rfl

end Filed

end Wado.TraitSolver
