/-
Values up to the order of the entries of maps and of the fields of structs, and the
value whose maps are in the order of the canonical serializer.
-/
import Wado.Cbor.RoundTrip
import Mathlib.Data.List.Perm.Basic

namespace Wado.Cbor

open List

/-- The bytewise order of the keys. -/
def byKey {α : Type} (key : α → List UInt8) (a b : α) : Bool := ! (key b < key a)

namespace Value

mutual

/-- The value with the entries of every map in the order of their encoded keys. -/
def sorted : Value → Value
  | seq elems => seq (sortedElems elems)
  | map entries => map (((sortedEntries entries).mergeSort (byKey (·.1))).map (·.2))
  | struct fields => struct (sortedFields fields)
  | variant name (some payload) => variant name (some (sorted payload))
  | v => v

def sortedElems : List Value → List Value
  | [] => []
  | v :: elems => sorted v :: sortedElems elems

/-- The entries, each with its encoded key. -/
def sortedEntries : List (Value × Value) → List (List UInt8 × Value × Value)
  | [] => []
  | (k, v) :: entries => (canonical k, sorted k, sorted v) :: sortedEntries entries

def sortedFields : List (String × Value) → List (String × Value)
  | [] => []
  | (name, v) :: fields => (name, sorted v) :: sortedFields fields

end

attribute [grind =] sorted sortedElems sortedEntries sortedFields

mutual

/-- Equality up to the order of map entries and of struct fields, at every level. -/
def Equiv : Value → Value → Prop
  | int t n, int t' n' => t = t' ∧ n = n'
  | bool b, bool b' => b = b'
  | text s, text s' => s = s'
  | bytes b, bytes b' => b = b'
  | null, null => True
  | seq elems, seq elems' => equivElems elems elems'
  | map entries, map entries' => ∃ order, List.Perm order entries' ∧ equivEntries entries order
  | struct fields, struct fields' => ∃ order, List.Perm order fields' ∧ equivFields fields order
  | variant name none, variant name' none => name = name'
  | variant name (some payload), variant name' (some payload') =>
    name = name' ∧ Equiv payload payload'
  | _, _ => False
termination_by structural v => v

def equivElems : List Value → List Value → Prop
  | [], [] => True
  | v :: elems, v' :: elems' => Equiv v v' ∧ equivElems elems elems'
  | _, _ => False
termination_by structural v => v

def equivEntries : List (Value × Value) → List (Value × Value) → Prop
  | [], [] => True
  | (k, v) :: entries, (k', v') :: entries' =>
    (Equiv k k' ∧ Equiv v v') ∧ equivEntries entries entries'
  | _, _ => False
termination_by structural v => v

def equivFields : List (String × Value) → List (String × Value) → Prop
  | [], [] => True
  | (name, v) :: fields, (name', v') :: fields' =>
    (name = name' ∧ Equiv v v') ∧ equivFields fields fields'
  | _, _ => False
termination_by structural v => v

end

attribute [grind =] Equiv

/-- No map of the value has two keys that are equal up to order. -/
def Distinct (v : Value) : Prop :=
  v.Everywhere (fun entries => entries.Pairwise fun a b => ¬ a.1.Equiv b.1) fun _ => True

variable (entries : List (Value × Value)) (fields : List (String × Value))

section Lists

variable (elems : List Value)

theorem sortedElems_eq : sortedElems elems = elems.map sorted := by
  induction elems with
  | nil => rfl
  | cons v elems ih => rw [sortedElems, ih, map_cons]

theorem sortedEntries_eq : sortedEntries entries =
      entries.map fun entry => (canonical entry.1, sorted entry.1, sorted entry.2) := by
  induction entries with
  | nil => rfl
  | cons entry entries ih => rw [sortedEntries, ih, map_cons]

theorem sortedFields_eq :
    sortedFields fields = fields.map fun field => (field.1, sorted field.2) := by
  induction fields with
  | nil => rfl
  | cons field fields ih => rw [sortedFields, ih, map_cons]

theorem serializeElems_eq :
    serializeElems elems = (elems.map serialize).flatten := by
  induction elems with
  | nil => rfl
  | cons v elems ih => rw [serializeElems, ih, map_cons, flatten_cons]

theorem serializeEntries_eq : serializeEntries entries =
      (entries.map fun entry => serialize entry.1 ++ serialize entry.2).flatten := by
  induction entries with
  | nil => rfl
  | cons entry entries ih => rw [serializeEntries, ih, map_cons, flatten_cons]

theorem serializeFields_eq : serializeFields fields =
      (fields.map fun field => writeText field.1 ++ serialize field.2).flatten := by
  induction fields with
  | nil => rfl
  | cons field fields ih => rw [serializeFields, ih, map_cons, flatten_cons]

theorem canonicalElems_eq :
    canonicalElems elems = (elems.map canonical).flatten := by
  induction elems with
  | nil => rfl
  | cons v elems ih => rw [canonicalElems, ih, map_cons, flatten_cons]

theorem canonicalEntries_eq : canonicalEntries entries =
      entries.map fun entry => (canonical entry.1, canonical entry.2) := by
  induction entries with
  | nil => rfl
  | cons entry entries ih => rw [canonicalEntries, ih, map_cons]

theorem canonicalFields_eq : canonicalFields fields =
      fields.map fun field => (writeText field.1, canonical field.2) := by
  induction fields with
  | nil => rfl
  | cons field fields ih => rw [canonicalFields, ih, map_cons]

end Lists

/-- The entries of a map in the order that the canonical serializer writes them. -/
def entryOrder (entries : List (Value × Value)) : List (Value × Value) :=
  entries.mergeSort (byKey fun entry => canonical entry.1)

/-- The fields of a struct in the order that the canonical serializer writes them. -/
def fieldOrder (fields : List (String × Value)) : List (String × Value) :=
  fields.mergeSort (byKey fun field => writeText field.1)

theorem sorted_map : sorted (.map entries) =
      .map ((entryOrder entries).map fun entry => (sorted entry.1, sorted entry.2)) := by
  have hsort : (entryOrder entries).map
        (fun entry => (canonical entry.1, sorted entry.1, sorted entry.2)) =
      (sortedEntries entries).mergeSort (byKey (·.1)) := by
    rw [sortedEntries_eq]
    exact map_mergeSort fun _ _ _ _ => rfl
  rw [sorted, ← hsort, map_map]
  rfl

theorem emitSortedMap_map {α : Type} (key value : α → List UInt8) (entries : List α) :
    emitSortedMap (entries.map fun entry => (key entry, value entry)) =
      writeHead majorMap entries.length ++
        ((entries.mergeSort (byKey key)).map fun entry => key entry ++ value entry).flatten := by
  have hsort : (entries.mergeSort (byKey key)).map (fun entry => (key entry, value entry)) =
      (entries.map fun entry => (key entry, value entry)).mergeSort keyLe :=
    map_mergeSort fun _ _ _ _ => rfl
  rw [emitSortedMap, ← hsort, length_map, flatMap_map, flatMap_def]

theorem canonical_map :
    canonical (.map entries) = writeHead majorMap entries.length ++
      ((entryOrder entries).map fun entry => canonical entry.1 ++ canonical entry.2).flatten := by
  rw [canonical, canonicalEntries_eq]
  exact emitSortedMap_map _ _ _

theorem canonical_struct :
    canonical (.struct fields) = writeHead majorMap fields.length ++
      ((fieldOrder fields).map fun field => writeText field.1 ++ canonical field.2).flatten := by
  rw [canonical, canonicalFields_eq]
  exact emitSortedMap_map _ _ _

/-- `CborSerializer` keeps the order of a value. -/
theorem serializes_serialize : Serializes serialize id where
  int _ _ := ⟨by rw [serialize], rfl⟩
  bool _ := ⟨by rw [serialize], rfl⟩
  text _ := ⟨by rw [serialize], rfl⟩
  bytes _ := ⟨by rw [serialize], rfl⟩
  null := ⟨by rw [serialize], rfl⟩
  seq elems := ⟨by rw [serialize, serializeElems_eq], by rw [map_id]; rfl⟩
  map entries := ⟨entries, .refl _, by rw [serialize, serializeEntries_eq], by simp⟩
  struct fields := ⟨fields, .refl _, by rw [serialize, serializeFields_eq], by simp⟩
  unitCase _ := ⟨by rw [serialize], rfl⟩
  payloadCase _ _ := ⟨by rw [serialize], rfl⟩

/-- `CanonicalCborSerializer` writes maps and structs in the order of their keys. -/
theorem serializes_canonical : Serializes canonical sorted where
  int _ _ := ⟨by rw [canonical], by simp only [sorted]⟩
  bool _ := ⟨by rw [canonical], by simp only [sorted]⟩
  text _ := ⟨by rw [canonical], by simp only [sorted]⟩
  bytes _ := ⟨by rw [canonical], by simp only [sorted]⟩
  null := ⟨by rw [canonical], by simp only [sorted]⟩
  seq elems := ⟨by rw [canonical, canonicalElems_eq], by rw [sorted, sortedElems_eq]⟩
  map entries :=
    ⟨entryOrder entries, mergeSort_perm _ _, canonical_map entries, sorted_map entries⟩
  struct fields :=
    ⟨fieldOrder fields, mergeSort_perm _ _, canonical_struct fields,
      by rw [sorted, sortedFields_eq]⟩
  unitCase _ := ⟨by rw [canonical], by simp only [sorted]⟩
  payloadCase _ _ := ⟨by rw [canonical], by rw [sorted]⟩

mutual

/-- A value is its sorted one up to order. -/
theorem equiv_sorted : (v : Value) → v.Equiv v.sorted
  | int _ _ => by simp only [sorted, Equiv, and_self]
  | bool _ => by simp only [sorted, Equiv]
  | text _ => by simp only [sorted, Equiv]
  | bytes _ => by simp only [sorted, Equiv]
  | null => by simp only [sorted, Equiv]
  | seq elems => by
    rw [sorted, sortedElems_eq, Equiv]
    exact equivElems_sorted elems
  | map entries => by
    rw [sorted_map, Equiv]
    exact ⟨_, ((mergeSort_perm _ _).map _).symm, equivEntries_sorted entries⟩
  | struct fields => by
    rw [sorted, sortedFields_eq, Equiv]
    exact ⟨_, .refl _, equivFields_sorted fields⟩
  | variant _ none => by simp only [sorted, Equiv]
  | variant _ (some payload) => by
    rw [sorted, Equiv]
    exact ⟨rfl, equiv_sorted payload⟩

theorem equivElems_sorted : (elems : List Value) → equivElems elems (elems.map sorted)
  | [] => trivial
  | v :: elems => ⟨equiv_sorted v, equivElems_sorted elems⟩

theorem equivEntries_sorted : (entries : List (Value × Value)) →
    equivEntries entries (entries.map fun entry => (sorted entry.1, sorted entry.2))
  | [] => trivial
  | (k, v) :: entries => ⟨⟨equiv_sorted k, equiv_sorted v⟩, equivEntries_sorted entries⟩

theorem equivFields_sorted : (fields : List (String × Value)) →
    equivFields fields (fields.map fun field => (field.1, sorted field.2))
  | [] => trivial
  | (_, v) :: fields => ⟨⟨rfl, equiv_sorted v⟩, equivFields_sorted fields⟩

end

/-- A permutation of what a function maps to comes of a permutation of its arguments. -/
theorem exists_perm_of_map {α β : Type} {f : α → β} {xs : List β} {ys : List α}
    (h : xs.Perm (ys.map f)) : ∃ zs : List α, zs.Perm ys ∧ zs.map f = xs := by
  have hpairs : List.Forall₂ (fun b a => f a = b) (ys.map f) ys := by
    rw [forall₂_map_left_iff]
    exact forall₂_same.mpr fun _ _ => rfl
  obtain ⟨zs, hzs, hperm⟩ := perm_comp_forall₂ h hpairs
  refine ⟨zs, hperm, ?_⟩
  clear h hperm hpairs
  induction hzs with
  | nil => rfl
  | cons hhead _ ih => rw [map_cons, hhead, ih]

mutual

/-- Values with the same sorted one are equal up to order. -/
theorem equiv_of_sorted : (a b : Value) → a.sorted = b.sorted → a.Equiv b
  | int _ _, b, h => by
    cases b with
    | int _ _ =>
      simp only [sorted, int.injEq] at h
      exact h
    | variant _ payload => cases payload <;> simp [sorted] at h
    | _ => simp [sorted] at h
  | bool _, b, h => by
    cases b with
    | bool _ =>
      simp only [sorted, bool.injEq] at h
      exact h
    | variant _ payload => cases payload <;> simp [sorted] at h
    | _ => simp [sorted] at h
  | text _, b, h => by
    cases b with
    | text _ =>
      simp only [sorted, text.injEq] at h
      exact h
    | variant _ payload => cases payload <;> simp [sorted] at h
    | _ => simp [sorted] at h
  | bytes _, b, h => by
    cases b with
    | bytes _ =>
      simp only [sorted, bytes.injEq] at h
      exact h
    | variant _ payload => cases payload <;> simp [sorted] at h
    | _ => simp [sorted] at h
  | null, b, h => by
    cases b with
    | null => trivial
    | variant _ payload => cases payload <;> simp [sorted] at h
    | _ => simp [sorted] at h
  | seq elems, b, h => by
    cases b with
    | seq elems' =>
      rw [sorted, sorted, seq.injEq, sortedElems_eq, sortedElems_eq] at h
      exact equivElems_of_sorted elems elems' h
    | variant _ payload => cases payload <;> simp [sorted] at h
    | _ => simp [sorted] at h
  | map entries, b, h => by
    cases b with
    | map entries' =>
      rw [sorted_map, sorted_map, map.injEq] at h
      have hperm : (entries.map fun entry => (sorted entry.1, sorted entry.2)).Perm
          (entries'.map fun entry => (sorted entry.1, sorted entry.2)) := by
        have hleft := (mergeSort_perm entries (byKey fun entry => canonical entry.1)).map
          fun entry => (sorted entry.1, sorted entry.2)
        have hright := (mergeSort_perm entries' (byKey fun entry => canonical entry.1)).map
          fun entry => (sorted entry.1, sorted entry.2)
        exact hleft.symm.trans ((List.Perm.of_eq h).trans hright)
      obtain ⟨order, horder, heq⟩ := exists_perm_of_map hperm
      exact ⟨order, horder, equivEntries_of_sorted entries order heq.symm⟩
    | variant _ payload => cases payload <;> simp [sorted] at h
    | _ => simp [sorted] at h
  | struct fields, b, h => by
    cases b with
    | struct fields' =>
      rw [sorted, sorted, struct.injEq, sortedFields_eq, sortedFields_eq] at h
      exact ⟨fields', .refl _, equivFields_of_sorted fields fields' h⟩
    | variant _ payload => cases payload <;> simp [sorted] at h
    | _ => simp [sorted] at h
  | variant _ none, b, h => by
    cases b with
    | variant _ payload =>
      cases payload with
      | none =>
        simp only [sorted, variant.injEq, and_true] at h
        exact h
      | some _ => simp [sorted] at h
    | _ => simp [sorted] at h
  | variant _ (some v), b, h => by
    cases b with
    | variant _ payload =>
      cases payload with
      | none => simp [sorted] at h
      | some v' =>
        rw [sorted, sorted, variant.injEq, Option.some.injEq] at h
        exact ⟨h.1, equiv_of_sorted v v' h.2⟩
    | _ => simp [sorted] at h

theorem equivElems_of_sorted : (elems elems' : List Value) →
    elems.map sorted = elems'.map sorted → equivElems elems elems'
  | [], [], _ => trivial
  | v :: elems, v' :: elems', h => by
    obtain ⟨hhead, htail⟩ := List.cons.inj h
    exact ⟨equiv_of_sorted v v' hhead, equivElems_of_sorted elems elems' htail⟩

theorem equivEntries_of_sorted : (entries entries' : List (Value × Value)) →
    (entries.map fun entry => (sorted entry.1, sorted entry.2)) =
      (entries'.map fun entry => (sorted entry.1, sorted entry.2)) →
    equivEntries entries entries'
  | [], [], _ => trivial
  | (k, v) :: entries, (k', v') :: entries', h => by
    obtain ⟨hhead, htail⟩ := List.cons.inj h
    obtain ⟨hkey, hvalue⟩ := Prod.mk.inj hhead
    exact ⟨⟨equiv_of_sorted k k' hkey, equiv_of_sorted v v' hvalue⟩,
      equivEntries_of_sorted entries entries' htail⟩

theorem equivFields_of_sorted : (fields fields' : List (String × Value)) →
    (fields.map fun field => (field.1, sorted field.2)) =
      (fields'.map fun field => (field.1, sorted field.2)) →
    equivFields fields fields'
  | [], [], _ => trivial
  | (_, v) :: fields, (_, v') :: fields', h => by
    obtain ⟨hhead, htail⟩ := List.cons.inj h
    obtain ⟨hname, hvalue⟩ := Prod.mk.inj hhead
    exact ⟨⟨hname, equiv_of_sorted v v' hvalue⟩, equivFields_of_sorted fields fields' htail⟩

end

mutual

theorem eq_of_same : (a b : Value) → a.same b = true → a = b
  | int _ _, b, h => by
    cases b with
    | int _ _ =>
      simp only [same, Bool.decide_and, Bool.and_eq_true, decide_eq_true_eq] at h
      rw [h.1, h.2]
    | _ => simp [same] at h
  | bool _, b, h => by
    cases b with
    | bool _ =>
      rw [same] at h
      rw [of_decide_eq_true h]
    | _ => simp [same] at h
  | text _, b, h => by
    cases b with
    | text _ =>
      rw [same] at h
      rw [of_decide_eq_true h]
    | _ => simp [same] at h
  | bytes _, b, h => by
    cases b with
    | bytes _ =>
      rw [same] at h
      rw [of_decide_eq_true h]
    | _ => simp [same] at h
  | null, b, h => by
    cases b with
    | null => rfl
    | _ => simp [same] at h
  | seq elems, b, h => by
    cases b with
    | seq elems' =>
      rw [same] at h
      rw [eq_of_sameElems elems elems' h]
    | _ => simp [same] at h
  | map entries, b, h => by
    cases b with
    | map entries' =>
      rw [same] at h
      rw [eq_of_sameEntries entries entries' h]
    | _ => simp [same] at h
  | struct fields, b, h => by
    cases b with
    | struct fields' =>
      rw [same] at h
      rw [eq_of_sameFields fields fields' h]
    | _ => simp [same] at h
  | variant _ none, b, h => by
    cases b with
    | variant _ payload =>
      cases payload with
      | none =>
        rw [same] at h
        rw [of_decide_eq_true h]
      | some _ => simp [same] at h
    | _ => simp [same] at h
  | variant _ (some v), b, h => by
    cases b with
    | variant _ payload =>
      cases payload with
      | none => simp [same] at h
      | some v' =>
        rw [same, Bool.and_eq_true, decide_eq_true_eq] at h
        rw [h.1, eq_of_same v v' h.2]
    | _ => simp [same] at h

theorem eq_of_sameElems : (elems elems' : List Value) → sameElems elems elems' = true →
    elems = elems'
  | [], elems', h => by
    cases elems' with
    | nil => rfl
    | cons _ _ => simp [sameElems] at h
  | v :: elems, elems', h => by
    cases elems' with
    | nil => simp [sameElems] at h
    | cons v' elems' =>
      rw [sameElems, Bool.and_eq_true] at h
      rw [eq_of_same v v' h.1, eq_of_sameElems elems elems' h.2]

theorem eq_of_sameEntries : (entries entries' : List (Value × Value)) →
    sameEntries entries entries' = true → entries = entries'
  | [], entries', h => by
    cases entries' with
    | nil => rfl
    | cons _ _ => simp [sameEntries] at h
  | (k, v) :: entries, entries', h => by
    cases entries' with
    | nil => simp [sameEntries] at h
    | cons entry entries' =>
      obtain ⟨k', v'⟩ := entry
      rw [sameEntries, Bool.and_eq_true, Bool.and_eq_true] at h
      rw [eq_of_same k k' h.1.1, eq_of_same v v' h.1.2, eq_of_sameEntries entries entries' h.2]

theorem eq_of_sameFields : (fields fields' : List (String × Value)) →
    sameFields fields fields' = true → fields = fields'
  | [], fields', h => by
    cases fields' with
    | nil => rfl
    | cons _ _ => simp [sameFields] at h
  | (name, v) :: fields, fields', h => by
    cases fields' with
    | nil => simp [sameFields] at h
    | cons field fields' =>
      obtain ⟨name', v'⟩ := field
      rw [sameFields, Bool.and_eq_true, Bool.and_eq_true, decide_eq_true_eq] at h
      rw [h.1.1, eq_of_same v v' h.1.2, eq_of_sameFields fields fields' h.2]

end

/-- Keys that differ up to order differ as the deserializer compares them. -/
theorem keysDiffer_sorted {entries : List (Value × Value)}
    (h : entries.Pairwise fun a b => ¬ a.1.Equiv b.1) :
    KeysDiffer ((entryOrder entries).map fun entry => (sorted entry.1, sorted entry.2)) := by
  have hsorted : entries.Pairwise fun a b => a.1.sorted ≠ b.1.sorted :=
    h.imp fun hne heq => hne (equiv_of_sorted _ _ heq)
  have hperm := mergeSort_perm entries (byKey fun entry => canonical entry.1)
  have horder : (entryOrder entries).Pairwise fun a b => a.1.sorted ≠ b.1.sorted :=
    (hperm.pairwise_iff fun hne => Ne.symm hne).mpr hsorted
  apply pairwise_map.mpr
  apply horder.imp
  intro a b hne
  exact Bool.eq_false_iff.mpr fun hsame => hne (eq_of_same _ _ hsame)

mutual

/-- The keys of a sorted value stay distinct. -/
theorem Distinct.sorted : (v : Value) → v.Distinct → v.sorted.DistinctKeys
  | int _ _, _ => by
    simp only [Value.sorted]
    trivial
  | bool _, _ => by
    simp only [Value.sorted]
    trivial
  | text _, _ => by
    simp only [Value.sorted]
    trivial
  | bytes _, _ => by
    simp only [Value.sorted]
    trivial
  | null, _ => by
    simp only [Value.sorted]
    trivial
  | seq elems, h => by
    rw [Value.sorted, sortedElems_eq]
    exact everyElem_iff.mpr (distinctElems_sorted elems (everyElem_iff.mp h))
  | map entries, h => by
    rw [sorted_map]
    refine ⟨keysDiffer_sorted h.1, everyEntry_iff.mpr ?_⟩
    intro entry hentry
    obtain ⟨entry', hentry', rfl⟩ := mem_map.mp hentry
    have hmem : entry' ∈ entries := (mergeSort_perm _ _).mem_iff.mp hentry'
    exact distinctEntries_sorted entries (everyEntry_iff.mp h.2) entry' hmem
  | struct fields, h => by
    rw [Value.sorted, sortedFields_eq]
    exact ⟨trivial, everyField_iff.mpr (distinctFields_sorted fields (everyField_iff.mp h.2))⟩
  | variant _ none, _ => by
    simp only [Value.sorted]
    trivial
  | variant _ (some payload), h => by
    rw [Value.sorted]
    exact Distinct.sorted payload h

theorem distinctElems_sorted : (elems : List Value) → (∀ v ∈ elems, v.Distinct) →
    ∀ v ∈ elems.map Value.sorted, v.DistinctKeys
  | [], _ => by simp
  | v :: elems, h => by
    obtain ⟨hv, helems⟩ := forall_mem_cons.mp h
    exact forall_mem_cons.mpr ⟨Distinct.sorted v hv, distinctElems_sorted elems helems⟩

theorem distinctEntries_sorted : (entries : List (Value × Value)) →
    (∀ entry ∈ entries, entry.1.Distinct ∧ entry.2.Distinct) →
    ∀ entry ∈ entries, entry.1.sorted.DistinctKeys ∧ entry.2.sorted.DistinctKeys
  | [], _ => by simp
  | (k, v) :: entries, h => by
    obtain ⟨hentry, hentries⟩ := forall_mem_cons.mp h
    exact forall_mem_cons.mpr
      ⟨⟨Distinct.sorted k hentry.1, Distinct.sorted v hentry.2⟩,
        distinctEntries_sorted entries hentries⟩

theorem distinctFields_sorted : (fields : List (String × Value)) →
    (∀ field ∈ fields, field.2.Distinct) →
    ∀ field ∈ fields.map (fun field => (field.1, field.2.sorted)), field.2.DistinctKeys
  | [], _ => by simp
  | (_, v) :: fields, h => by
    obtain ⟨hv, hfields⟩ := forall_mem_cons.mp h
    exact forall_mem_cons.mpr ⟨Distinct.sorted v hv, distinctFields_sorted fields hfields⟩

end

end Value

end Wado.Cbor
