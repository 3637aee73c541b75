/-
The canonical serializer writes one encoding for all values that are equal up to
order, with ascending keys and the shortest heads.
-/
import Wado.Cbor.Codec

namespace Wado.Cbor

open ExceptSteps CborDeserializer List

/-- No definite head with the argument is shorter. -/
structure Shortest (major arg : Nat) (bytes : List UInt8) : Prop where
  definite : ∃ ai, HeadBytes ⟨major, ai, arg, false⟩ bytes
  shortest {head : Head} {bytes' : List UInt8} (h : HeadBytes head bytes')
    (hmajor : head.major = major) (harg : head.arg = arg) (hindef : head.indef = false) :
    bytes.length ≤ bytes'.length

theorem shortest_writeHead {major arg : Nat} (hmajor : major < 8) (harg : arg < 2 ^ 64) :
    Shortest major arg (writeHead major arg) where
  definite := ⟨_, headBytes_writeHead hmajor harg⟩
  shortest h hmajor' harg' hindef := by
    rw [← hmajor', ← harg']
    exact writeHead_shortest h hindef

/-- The deterministic encodings: every head is definite and the shortest, and the keys of
a map ascend in the bytewise order of their encodings. -/
inductive Det : List UInt8 → Prop where
  | head {major arg : Nat} {head : List UInt8} (hhead : Shortest major arg head)
      (hmajor : major = majorUint ∨ major = majorNint ∨ major = majorSimple) : Det head
  | string {major : Nat} {head body : List UInt8} (hhead : Shortest major body.length head)
      (hmajor : major = majorText ∨ major = majorBytes) : Det (head ++ body)
  | tag {arg : Nat} {head content : List UInt8} (hhead : Shortest majorTag arg head)
      (hcontent : Det content) : Det (head ++ content)
  | array {head : List UInt8} {items : List (List UInt8)}
      (hhead : Shortest majorArray items.length head) (hitems : ∀ item ∈ items, Det item) :
      Det (head ++ items.flatten)
  | map {head : List UInt8} {entries : List Encoded}
      (hhead : Shortest majorMap entries.length head)
      (hkey : ∀ entry ∈ entries, Det entry.1) (hvalue : ∀ entry ∈ entries, Det entry.2)
      (hascending : entries.Pairwise fun a b => a.1 < b.1) :
      Det (head ++ (entries.map fun entry => entry.1 ++ entry.2).flatten)

theorem det_writeText {s : String} (h : (utf8 s).length < 2 ^ 31) : Det (writeText s) :=
  .string (shortest_writeHead (by decide) (by omega)) (.inl rfl)

theorem det_writeBytes {bytes : List UInt8} (h : bytes.length < 2 ^ 31) : Det (writeBytes bytes) :=
  .string (shortest_writeHead (by decide) (by omega)) (.inr rfl)

theorem det_written {v : Int} {bytes : List UInt8} (h : Written v bytes) : Det bytes := by
  have hbignum {tag mag : Nat} (htag : tag < 2 ^ 64) : Det (writeBignum tag mag) := by
    have hlength := length_stripZeros_le 15 (pushBe (mag / 2 ^ 64) 8 ++ pushBe (mag % 2 ^ 64) 8)
    rw [length_append, length_pushBe, length_pushBe] at hlength
    unfold writeBignum
    rw [append_assoc]
    exact .tag (shortest_writeHead (by decide) htag)
      (.string (shortest_writeHead (by decide) (by omega)) (.inr rfl))
  cases h with
  | uint h => exact .head (shortest_writeHead (by decide) (by omega)) (.inl rfl)
  | nint h => exact .head (shortest_writeHead (by decide) (by omega)) (.inr (.inl rfl))
  | pos h => exact hbignum (by decide)
  | neg h => exact hbignum (by decide)

theorem det_simple {arg : Nat} (h : arg < 24) : Det (writeHead majorSimple arg) :=
  .head (shortest_writeHead (by decide) (by omega)) (.inr (.inr rfl))

theorem det_writeBool (b : Bool) : Det (writeBool b) := by
  cases b with
  | false => exact det_simple (show simpleFalse < 24 by decide)
  | true => exact det_simple (show simpleTrue < 24 by decide)

theorem det_null : Det [initNull] := det_simple (show simpleNull < 24 by decide)

section Order

variable {α : Type} {key : α → List UInt8}

theorem byKey_trans (a b c : α) (hab : byKey key a b = true) (hbc : byKey key b c = true) :
    byKey key a c = true := by
  simp only [byKey, Bool.not_eq_true', decide_eq_false_iff_not, not_lt] at *
  exact List.le_trans hab hbc

theorem byKey_total (a b : α) : (byKey key a b || byKey key b a) = true := by
  simp only [byKey, Bool.or_eq_true, Bool.not_eq_true', decide_eq_false_iff_not, not_lt]
  exact List.le_total _ _

/-- Entries with keys of their own are written with ascending keys. -/
theorem ascending_mergeSort {entries : List α} (h : entries.Pairwise fun a b => key a ≠ key b) :
    (entries.mergeSort (byKey key)).Pairwise fun a b => key a < key b := by
  have hsorted : (entries.mergeSort (byKey key)).Pairwise fun a b => byKey key a b = true :=
    pairwise_mergeSort byKey_trans byKey_total entries
  have hne := ((mergeSort_perm entries (byKey key)).pairwise_iff fun hne => Ne.symm hne).mpr h
  apply (hsorted.and hne).imp
  rintro a b ⟨hle, hne⟩
  simp only [byKey, Bool.not_eq_true', decide_eq_false_iff_not, not_lt] at hle
  by_contra hlt
  exact hne (Std.le_antisymm hle (List.not_lt.mp hlt))

/-- Entries in any order are written in the same one. -/
theorem mergeSort_eq_of_perm {entries entries' : List α} (hperm : entries.Perm entries')
    (h : entries.Pairwise fun a b => key a ≠ key b) :
    entries.mergeSort (byKey key) = entries'.mergeSort (byKey key) := by
  have h' := (hperm.pairwise_iff fun hne => Ne.symm hne).mp h
  have hsorted := ascending_mergeSort h
  have hsorted' := ascending_mergeSort h'
  have hboth := (mergeSort_perm entries (byKey key)).trans
    (hperm.trans (mergeSort_perm entries' (byKey key)).symm)
  apply hboth.eq_of_pairwise _ hsorted hsorted'
  intro a b _ _ hab hba
  exact absurd hab (List.lt_asymm hba)

end Order

namespace Value

theorem emitSortedMap_of_perm {entries entries' : List Encoded} (hperm : entries.Perm entries')
    (h : entries.Pairwise fun a b => a.1 ≠ b.1) : emitSortedMap entries =
      emitSortedMap entries' := by
  have hsort : entries.mergeSort keyLe = entries'.mergeSort keyLe := mergeSort_eq_of_perm hperm h
  rw [emitSortedMap, emitSortedMap, hsort, hperm.length_eq]

theorem det_emitSortedMap {entries : List Encoded} (hlength : entries.length < 2 ^ 31)
    (hkey : ∀ entry ∈ entries, Det entry.1) (hvalue : ∀ entry ∈ entries, Det entry.2)
    (h : entries.Pairwise fun a b => a.1 ≠ b.1) : Det (emitSortedMap entries) := by
  have hperm := mergeSort_perm entries keyLe
  have hascending : (entries.mergeSort keyLe).Pairwise fun a b => a.1 < b.1 := ascending_mergeSort h
  rw [emitSortedMap, flatMap_def, ← hperm.length_eq]
  apply Det.map (shortest_writeHead (by decide) (by rw [hperm.length_eq]; omega))
  · intro entry hentry
    exact hkey entry (hperm.mem_iff.mp hentry)
  · intro entry hentry
    exact hvalue entry (hperm.mem_iff.mp hentry)
  · exact hascending

/-- The encodings of the keys of a map differ, and the names of a struct. -/
def Ordered (v : Value) : Prop :=
  v.Everywhere (fun entries => entries.Pairwise fun a b => a.1.canonical ≠ b.1.canonical)
    fun fields => fields.Pairwise fun a b => writeText a.1 ≠ writeText b.1

theorem writeText_injective {s t : String} (hs : (utf8 s).length < 2 ^ 31)
    (ht : (utf8 t).length < 2 ^ 31) (h : writeText s = writeText t) : s = t := by
  have hrest (s : String) : (⟨writeText s, 0, 0, 0, true, []⟩ : CborDeserializer).rest =
      writeText s ++ [] := (append_nil _).symm
  obtain ⟨_, hread, _⟩ := readsAs_text hs _ _ (hrest s) (.inr ⟨Int.le_refl 0, Int.le_refl 0⟩)
  obtain ⟨_, hread', _⟩ := readsAs_text ht _ _ (hrest t) (.inr ⟨Int.le_refl 0, Int.le_refl 0⟩)
  rw [h, hread'] at hread
  exact (congrArg Prod.fst (Except.ok.inj hread)).symm

/-- At a type, the canonical encoding determines a value up to order. -/
theorem equiv_of_canonical {t : Ty} {a b : Value} (ha : t.Fits a) (hb : t.Fits b)
    (hkeys : a.Distinct) (hkeys' : b.Distinct) (h : a.canonical = b.canonical) : a.Equiv b := by
  have hrest (v : Value) : (⟨v.canonical, 0, 0, 2 ^ 31 - 1, true, []⟩ : CborDeserializer).rest =
      v.canonical ++ [] := (append_nil _).symm
  obtain ⟨_, hread, _⟩ := canonical_readsAs ha hkeys _ _ (hrest a) (.inl (Int.le_refl _))
  obtain ⟨_, hread', _⟩ := canonical_readsAs hb hkeys' _ _ (hrest b) (.inl (Int.le_refl _))
  rw [h, hread'] at hread
  exact equiv_of_sorted a b (congrArg Prod.fst (Except.ok.inj hread)).symm

mutual

/-- Values that are equal up to order have one canonical encoding. -/
theorem canonical_of_equiv : (a b : Value) → a.Equiv b → a.Ordered → a.canonical = b.canonical
  | int _ _, b, h, _ => by
    cases b with
    | int _ _ => rw [h.1, h.2]
    | _ => exact h.elim
  | bool _, b, h, _ => by
    cases b with
    | bool _ => rw [show _ = _ from h]
    | _ => exact h.elim
  | text _, b, h, _ => by
    cases b with
    | text _ => rw [show _ = _ from h]
    | _ => exact h.elim
  | bytes _, b, h, _ => by
    cases b with
    | bytes _ => rw [show _ = _ from h]
    | _ => exact h.elim
  | null, b, h, _ => by
    cases b with
    | null => rfl
    | _ => exact h.elim
  | seq elems, b, h, hordered => by
    cases b with
    | seq elems' =>
      have helems := canonicalElems_of_equiv elems elems' h (everyElem_iff.mp hordered)
      rw [canonical, canonical, canonicalElems_eq, canonicalElems_eq, helems]
      have hlength := congrArg List.length helems
      rw [length_map, length_map] at hlength
      rw [hlength]
    | _ => exact h.elim
  | map entries, b, h, hordered => by
    cases b with
    | map entries' =>
      obtain ⟨order, hperm, hequiv⟩ := h
      have hentries := canonicalEntries_of_equiv entries order hequiv
        (everyEntry_iff.mp hordered.2)
      have hperm' : (canonicalEntries entries).Perm (canonicalEntries entries') := by
        rw [hentries, canonicalEntries_eq, canonicalEntries_eq]
        exact hperm.map _
      rw [canonical, canonical]
      apply emitSortedMap_of_perm hperm'
      rw [canonicalEntries_eq]
      exact pairwise_map.mpr hordered.1
    | _ => exact h.elim
  | struct fields, b, h, hordered => by
    cases b with
    | struct fields' =>
      obtain ⟨order, hperm, hequiv⟩ := h
      have hfields := canonicalFields_of_equiv fields order hequiv (everyField_iff.mp hordered.2)
      have hperm' : (canonicalFields fields).Perm (canonicalFields fields') := by
        rw [hfields, canonicalFields_eq, canonicalFields_eq]
        exact hperm.map _
      rw [canonical, canonical]
      apply emitSortedMap_of_perm hperm'
      rw [canonicalFields_eq]
      exact pairwise_map.mpr hordered.1
    | _ => exact h.elim
  | variant _ none, b, h, _ => by
    cases b with
    | variant _ payload =>
      cases payload with
      | none => rw [show _ = _ from h]
      | some _ => exact h.elim
    | _ => exact h.elim
  | variant _ (some v), b, h, hordered => by
    cases b with
    | variant _ payload =>
      cases payload with
      | none => exact h.elim
      | some v' => rw [canonical, canonical, h.1, canonical_of_equiv v v' h.2 hordered]
    | _ => exact h.elim

theorem canonicalElems_of_equiv : (elems elems' : List Value) → equivElems elems elems' →
    (∀ v ∈ elems, v.Ordered) → elems.map canonical = elems'.map canonical
  | [], [], _, _ => rfl
  | v :: elems, v' :: elems', h, hordered => by
    obtain ⟨hv, helems⟩ := forall_mem_cons.mp hordered
    rw [map_cons, map_cons, canonical_of_equiv v v' h.1 hv,
      canonicalElems_of_equiv elems elems' h.2 helems]
  | [], _ :: _, h, _ => h.elim
  | _ :: _, [], h, _ => h.elim

theorem canonicalEntries_of_equiv : (entries entries' : List (Value × Value)) →
    equivEntries entries entries' → (∀ entry ∈ entries, entry.1.Ordered ∧ entry.2.Ordered) →
    canonicalEntries entries = canonicalEntries entries'
  | [], [], _, _ => rfl
  | (k, v) :: entries, (k', v') :: entries', h, hordered => by
    obtain ⟨hentry, hentries⟩ := forall_mem_cons.mp hordered
    rw [canonicalEntries, canonicalEntries, canonical_of_equiv k k' h.1.1 hentry.1,
      canonical_of_equiv v v' h.1.2 hentry.2, canonicalEntries_of_equiv entries entries' h.2
        hentries]
  | [], _ :: _, h, _ => h.elim
  | _ :: _, [], h, _ => h.elim

theorem canonicalFields_of_equiv : (fields fields' : List (String × Value)) →
    equivFields fields fields' → (∀ field ∈ fields, field.2.Ordered) →
    canonicalFields fields = canonicalFields fields'
  | [], [], _, _ => rfl
  | (_, v) :: fields, (_, v') :: fields', h, hordered => by
    obtain ⟨hfield, hfields⟩ := forall_mem_cons.mp hordered
    rw [canonicalFields, canonicalFields, h.1.1, canonical_of_equiv v v' h.1.2 hfield,
      canonicalFields_of_equiv fields fields' h.2 hfields]
  | [], _ :: _, h, _ => h.elim
  | _ :: _, [], h, _ => h.elim

end

theorem ordered_det_seq {elems : List Value} (hlength : elems.length < 2 ^ 31)
    (h : ∀ v ∈ elems, v.Ordered ∧ Det v.canonical) :
    (seq elems).Ordered ∧ Det (seq elems).canonical := by
  refine ⟨everyElem_iff.mpr fun v hv => (h v hv).1, ?_⟩
  have hhead : Shortest majorArray (elems.map canonical).length
    (writeHead majorArray elems.length) := by
    rw [length_map]
    exact shortest_writeHead (by decide) (by omega)
  rw [canonical, canonicalElems_eq]
  apply Det.array hhead
  intro item hitem
  obtain ⟨v, hv, rfl⟩ := mem_map.mp hitem
  exact (h v hv).2

mutual

/-- The values of a type whose keys are distinct up to order are written in a strict
order, and deterministically. -/
theorem ordered_det : (t : Ty) → (v : Value) → t.Fits v → v.Distinct → v.Ordered ∧ Det v.canonical
  | .int t, v, hfits, _ => by
    obtain ⟨n, rfl, hrange⟩ := Ty.fits_int hfits
    rw [canonical]
    exact ⟨trivial, det_written (t.written hrange)⟩
  | .bool, v, hfits, _ => by
    obtain ⟨b, rfl⟩ := Ty.fits_bool hfits
    rw [canonical]
    exact ⟨trivial, det_writeBool b⟩
  | .text, v, hfits, _ => by
    obtain ⟨s, rfl, hlength⟩ := Ty.fits_text hfits
    rw [canonical]
    exact ⟨trivial, det_writeText hlength⟩
  | .bytes, v, hfits, _ => by
    obtain ⟨content, rfl, hlength⟩ := Ty.fits_bytes hfits
    rw [canonical]
    exact ⟨trivial, det_writeBytes hlength⟩
  | .unit, v, hfits, _ => by
    rw [Ty.fits_unit hfits, canonical]
    exact ⟨trivial, det_null⟩
  | .option t, v, hfits, hkeys => by
    by_cases hv : v = .null
    · rw [hv, canonical]
      exact ⟨trivial, det_null⟩
    · exact ordered_det t v (hfits.resolve_left hv) hkeys
  | .list t, v, hfits, hkeys => by
    obtain ⟨elems, rfl, hlength, helems⟩ := Ty.fits_list hfits
    have hkeys' := everyElem_iff.mp hkeys
    exact ordered_det_seq hlength fun v hv => ordered_det t v (helems v hv) (hkeys' v hv)
  | .tuple ts, v, hfits, hkeys => by
    obtain ⟨elems, rfl, hlength, helems⟩ := Ty.fits_tuple hfits
    exact ordered_det_seq hlength (ordered_det_elems ts elems helems (everyElem_iff.mp hkeys))
  | .map key value, v, hfits, hkeys => by
    obtain ⟨entries, rfl, hlength, hentries⟩ := Ty.fits_map hfits
    have hkeys' := everyEntry_iff.mp hkeys.2
    have hdiffer : entries.Pairwise fun a b => a.1.canonical ≠ b.1.canonical := by
      apply hkeys.1.imp_of_mem
      intro a b ha hb hne heq
      exact hne (equiv_of_canonical (hentries a ha).1 (hentries b hb).1 (hkeys' a ha).1
        (hkeys' b hb).1 heq)
    have hkey (entry) (hentry : entry ∈ entries) :=
      ordered_det key entry.1 (hentries entry hentry).1 (hkeys' entry hentry).1
    have hvalue (entry) (hentry : entry ∈ entries) :=
      ordered_det value entry.2 (hentries entry hentry).2 (hkeys' entry hentry).2
    refine ⟨⟨hdiffer, everyEntry_iff.mpr fun entry hentry =>
      ⟨(hkey entry hentry).1, (hvalue entry hentry).1⟩⟩, ?_⟩
    rw [canonical, canonicalEntries_eq]
    apply det_emitSortedMap (by rwa [length_map])
    · intro encoded hencoded
      obtain ⟨entry, hentry, rfl⟩ := mem_map.mp hencoded
      exact (hkey entry hentry).2
    · intro encoded hencoded
      obtain ⟨entry, hentry, rfl⟩ := mem_map.mp hencoded
      exact (hvalue entry hentry).2
    · exact pairwise_map.mpr hdiffer
  | .struct fields, v, hfits, hkeys => by
    obtain ⟨values, rfl, hlength, hnames, hfields⟩ := Ty.fits_struct hfits
    have hvalue := ordered_det_fields fields values hfields (everyField_iff.mp hkeys.2)
    have hdiffer : values.Pairwise fun a b => writeText a.1 ≠ writeText b.1 := by
      apply (pairwise_map.mp hnames).imp_of_mem
      intro a b ha hb hne heq
      exact hne (writeText_injective (hvalue a ha).1 (hvalue b hb).1 heq)
    refine ⟨⟨hdiffer, everyField_iff.mpr fun field hfield => (hvalue field hfield).2.1⟩, ?_⟩
    rw [canonical, canonicalFields_eq]
    apply det_emitSortedMap (by rwa [length_map])
    · intro encoded hencoded
      obtain ⟨field, hfield, rfl⟩ := mem_map.mp hencoded
      exact det_writeText (hvalue field hfield).1
    · intro encoded hencoded
      obtain ⟨field, hfield, rfl⟩ := mem_map.mp hencoded
      exact (hvalue field hfield).2.2
    · exact pairwise_map.mpr hdiffer
  | .variant cases, v, hfits, hkeys => by
    obtain ⟨name, payload, rfl, hname, hcase⟩ := Ty.fits_variant hfits
    cases payload with
    | none =>
      rw [canonical]
      exact ⟨trivial, det_writeText hname⟩
    | some v =>
      obtain ⟨hordered, hdet⟩ := ordered_det_case cases name v hcase hkeys
      refine ⟨hordered, ?_⟩
      have hmap := @Det.map (writeHead majorMap 1) [(writeText name, canonical v)]
        (shortest_writeHead (by decide) (by rw [length_singleton]; decide))
        (by simpa using det_writeText hname)
        (by simpa using hdet) (pairwise_singleton _ _)
      rw [map_singleton, flatten_singleton, ← append_assoc] at hmap
      rw [canonical]
      exact hmap
  | .custom read, v, hfits, _ => absurd hfits Ty.not_fits_custom

theorem ordered_det_elems : (ts : List Ty) → (elems : List Value) → Ty.fitsElems ts elems →
    (∀ v ∈ elems, v.Distinct) → ∀ v ∈ elems, v.Ordered ∧ Det v.canonical
  | [], [], _, _ => by simp
  | t :: ts, v :: elems, hfits, hkeys => by
    obtain ⟨hv, hkeys'⟩ := forall_mem_cons.mp hkeys
    exact forall_mem_cons.mpr
      ⟨ordered_det t v hfits.1 hv, ordered_det_elems ts elems hfits.2 hkeys'⟩
  | [], _ :: _, hfits, _ => hfits.elim
  | _ :: _, [], hfits, _ => hfits.elim

theorem ordered_det_fields : (fields : List (String × Ty × Option Value)) →
    (values : List (String × Value)) → Ty.fitsFields fields values →
    (∀ field ∈ values, field.2.Distinct) →
    ∀ field ∈ values, (utf8 field.1).length < 2 ^ 31 ∧ field.2.Ordered ∧ Det field.2.canonical
  | [], [], _, _ => by simp
  | (_, t, _) :: fields, (_, v) :: values, hfits, hkeys => by
    obtain ⟨⟨rfl, hlength, hfitsV⟩, hfits'⟩ := hfits
    obtain ⟨hv, hkeys'⟩ := forall_mem_cons.mp hkeys
    exact forall_mem_cons.mpr
      ⟨⟨hlength, ordered_det t v hfitsV hv⟩, ordered_det_fields fields values hfits' hkeys'⟩
  | [], _ :: _, hfits, _ => hfits.elim
  | _ :: _, [], hfits, _ => hfits.elim

theorem ordered_det_case : (cases : List (String × Option Ty)) → (name : String) → (v : Value) →
    Ty.fitsCase cases name (some v) → v.Distinct → v.Ordered ∧ Det v.canonical
  | [], _, _, hfits, _ => hfits.elim
  | (name', none) :: cases, name, v, hfits, hkeys => by
    rw [Ty.fitsCase] at hfits
    by_cases hname : name' = name
    · rw [if_pos hname] at hfits
      cases hfits
    · rw [if_neg hname] at hfits
      exact ordered_det_case cases name v hfits hkeys
  | (name', some t) :: cases, name, v, hfits, hkeys => by
    rw [Ty.fitsCase] at hfits
    by_cases hname : name' = name
    · rw [if_pos hname] at hfits
      obtain ⟨v', heq, hfits⟩ := hfits
      cases heq
      exact ordered_det t v hfits hkeys
    · rw [if_neg hname] at hfits
      exact ordered_det_case cases name v hfits hkeys

end

end Value

/-- Values that are equal up to the order of map entries and of struct fields are written
as the same bytes.  In them the keys of every map ascend strictly and every head is definite
and the shortest, and they are read back, where the limit leaves room, as a value that is
equal up to order. -/
theorem canonical_deterministic (t : Ty) (a b : Value) (hfits : t.Fits a) (hkeys : a.Distinct)
    (h : a.Equiv b) :
    a.canonical = b.canonical ∧ Det b.canonical ∧ a.Equiv a.sorted ∧
      ReadsAs t.reader a.nesting b.canonical a.sorted ∧
      ∀ (strict : Bool) (maxDepth : Int), a.nesting ≤ maxDepth →
        ∃ s, fromBytes t.reader b.canonical strict maxDepth = .ok (a.sorted, s) := by
  obtain ⟨hordered, hdet⟩ := Value.ordered_det t a hfits hkeys
  have hsame := Value.canonical_of_equiv a b h hordered
  have hread := canonical_readsAs hfits hkeys
  rw [← hsame]
  refine ⟨rfl, hdet, a.equiv_sorted, hread, ?_⟩
  intro strict maxDepth hmax
  obtain ⟨s, hbytes, _⟩ := hread.fromBytes strict hmax
  exact ⟨s, hbytes⟩

/-- The entries of `sampleMap` in the other order. -/
def sampleMapReversed : Value :=
  .map [(.text "a", .seq []), (.text "b", .seq [.int .i128 (-2 ^ 100)])]

theorem canonical_deterministic_sampleMap : sampleMap.canonical = sampleMapReversed.canonical := by
  have hfits : (Ty.map .text (.list (.int .i128))).Fits sampleMap := by
    simp [sampleMap, Ty.Fits, IntTy.min, IntTy.max]
    decide
  have hkeys : sampleMap.Distinct := by
    simp [sampleMap, Value.Distinct, Value.Everywhere, Value.everyEntry, Value.everyElem,
      Value.Equiv]
  have hequiv : sampleMap.Equiv sampleMapReversed := by
    refine ⟨[(.text "b", .seq [.int .i128 (-2 ^ 100)]), (.text "a", .seq [])], .swap _ _ _, ?_⟩
    simp [Value.equivEntries, Value.Equiv, Value.equivElems]
  exact (canonical_deterministic _ sampleMap sampleMapReversed hfits hkeys hequiv).1

/-- Two maps of the same entries in other orders, as the keys of `mapKeys` are. -/
def keyMap (first second : Int) : Value := .map [(.int .u8 first, .null), (.int .u8 second, .null)]

/-- A value that is nested deeper than the limit is not read back, and keys that are equal
up to order leave the order of their entries to the map. -/
theorem canonical_deterministic_wrong :
    (fromBytes (nestedList 100).1.reader (nestedList 100).2.canonical true 100).toOption = none ∧
    (Value.map [(keyMap 1 2, .bool false), (keyMap 2 1, .bool true)]).Equiv
      (.map [(keyMap 2 1, .bool true), (keyMap 1 2, .bool false)]) ∧
    (keyMap 1 2).same (keyMap 2 1) = false ∧
    (Value.map [(keyMap 1 2, .bool false), (keyMap 2 1, .bool true)]).canonical ≠
      (Value.map [(keyMap 2 1, .bool true), (keyMap 1 2, .bool false)]).canonical := by
  refine ⟨?_, ?_, ?_, ?_⟩
  · decide +kernel
  · refine ⟨[(keyMap 1 2, .bool false), (keyMap 2 1, .bool true)], .swap _ _ _, ?_⟩
    refine ⟨⟨?_, rfl⟩, ⟨?_, rfl⟩, trivial⟩
    · exact ⟨_, .refl _, by simp [Value.equivEntries, Value.Equiv]⟩
    · exact ⟨_, .refl _, by simp [Value.equivEntries, Value.Equiv]⟩
  · simp [keyMap, Value.same, Value.sameEntries]
  · simp only [keyMap, Value.canonical, Value.canonicalEntries, Value.emitSortedMap, mergeSort_pair]
    decide

end Wado.Cbor
