/-
What a serializer writes of a value is read back as the value.
-/
import Wado.Cbor.Fits

namespace Wado.Cbor

open ExceptSteps CborDeserializer List

theorem joined_map {α β : Type} (f : α → List UInt8) (g : α → β) (xs : List α) :
    joined (xs.map fun x => (f x, g x)) = (xs.map f).flatten := by
  rw [joined, map_map]
  rfl

namespace Ty

theorem name_fieldReaders (fields : List (String × Ty × Option Value)) :
    (fieldReaders fields).map (·.name) = fields.map (·.1) := by
  induction fields with
  | nil => rfl
  | cons field fields ih =>
    rw [fieldReaders, map_cons, map_cons, ih]

theorem names_of_fitsFields {fields : List (String × Ty × Option Value)}
    {values : List (String × Value)} (h : fitsFields fields values) :
    values.map (·.1) = fields.map (·.1) := by
  induction fields generalizing values with
  | nil =>
    cases values with
    | nil => rfl
    | cons value values => exact h.elim
  | cons field fields ih =>
    cases values with
    | nil => exact h.elim
    | cons value values => rw [map_cons, map_cons, ih h.2, h.1.1]

theorem find?_caseReaders_none {cases : List (String × Option Ty)} {name : String}
    (h : fitsCase cases name none) :
    ((caseReaders cases).find? fun case => case.1 = name) = some (name, none) := by
  induction cases with
  | nil => exact h.elim
  | cons case cases ih =>
    obtain ⟨name', t⟩ := case
    cases t with
    | none =>
      rw [fitsCase] at h
      by_cases hname : name' = name
      · rw [caseReaders, List.find?_cons_of_pos (by simpa using hname), hname]
      · rw [if_neg hname] at h
        rw [caseReaders, List.find?_cons_of_neg (by simpa using hname), ih h]
    | some t =>
      rw [fitsCase] at h
      by_cases hname : name' = name
      · rw [if_pos hname] at h
        obtain ⟨v, hnone, _⟩ := h
        cases hnone
      · rw [if_neg hname] at h
        rw [caseReaders, List.find?_cons_of_neg (by simpa using hname), ih h]

end Ty

variable {write : Value → List UInt8} {norm : Value → Value}

mutual

/-- A value is read back from what is written of it, where the keys of its maps stay
distinct. -/
theorem Serializes.readsAs (hwrite : Serializes write norm) : (t : Ty) → (v : Value) → t.Fits v →
    (norm v).DistinctKeys → ReadsAs t.reader v.nesting (write v) (norm v)
  | .int t, v, hfits, _ => by
    obtain ⟨n, rfl, hrange⟩ := Ty.fits_int hfits
    rw [(hwrite.int t n).1, (hwrite.int t n).2]
    exact readsAs_int t (t.written hrange).intBytes hrange
  | .bool, v, hfits, _ => by
    obtain ⟨b, rfl⟩ := Ty.fits_bool hfits
    rw [(hwrite.bool b).1, (hwrite.bool b).2]
    exact readsAs_bool b
  | .text, v, hfits, _ => by
    obtain ⟨s, rfl, hlength⟩ := Ty.fits_text hfits
    rw [(hwrite.text s).1, (hwrite.text s).2]
    exact readsAs_scalar (readsAs_text hlength) .text
  | .bytes, v, hfits, _ => by
    obtain ⟨content, rfl, hlength⟩ := Ty.fits_bytes hfits
    rw [(hwrite.bytes content).1, (hwrite.bytes content).2]
    exact readsAs_scalar (readsAs_bytes hlength) .bytes
  | .unit, v, hfits, _ => by
    rw [Ty.fits_unit hfits, hwrite.null.1, hwrite.null.2]
    exact readsAs_unit
  | .option t, v, hfits, hkeys => by
    by_cases hv : v = .null
    · rw [hv, hwrite.null.1, hwrite.null.2]
      exact readsAs_absent _ _
    · have hfits' : t.Fits v := hfits.resolve_left hv
      exact readsAs_present (hwrite.present t hfits' hv) (hwrite.readsAs t v hfits' hkeys)
  | .list t, v, hfits, hkeys => by
    obtain ⟨elems, rfl, hlength, helems⟩ := Ty.fits_list hfits
    rw [(hwrite.seq elems).2] at hkeys ⊢
    have hkeys' := Value.everyElem_iff.mp hkeys
    have hparts : ∀ part ∈ elems.map fun v => (write v, norm v),
        ReadsAs t.reader (Value.nestingElems elems) part.1 part.2 := by
      intro part hpart
      obtain ⟨v, hv, rfl⟩ := mem_map.mp hpart
      exact (hwrite.readsAs t v (helems v hv) (hkeys' _ (mem_map_of_mem hv))).mono
        (Value.nesting_le_elems hv)
    have hread := readsAs_list hparts (by rwa [length_map])
    rw [length_map, joined_map, map_map] at hread
    rw [(hwrite.seq elems).1]
    exact hread
  | .tuple ts, v, hfits, hkeys => by
    obtain ⟨elems, rfl, hlength, helems⟩ := Ty.fits_tuple hfits
    rw [(hwrite.seq elems).2] at hkeys ⊢
    have hkeys' := Value.everyElem_iff.mp hkeys
    obtain ⟨parts, hreaders, hbytes, hparts⟩ := hwrite.readsAs_elems ts elems helems
      (fun v hv => hkeys' _ (mem_map_of_mem hv)) (fun v hv => Value.nesting_le_elems hv)
    have hcount : parts.length = elems.length := by
      have h := congrArg List.length hbytes
      rwa [length_map, length_map] at h
    have hread := readsAs_tuple hparts (hcount ▸ hlength)
    have hvalues : parts.map (·.2.2) = elems.map norm := by
      have h := congrArg (List.map (·.2)) hbytes
      rwa [map_map, map_map] at h
    rw [hreaders, hbytes, hvalues, joined_map, hcount] at hread
    rw [(hwrite.seq elems).1]
    exact hread
  | .map key value, v, hfits, hkeys => by
    obtain ⟨entries, rfl, hlength, hentries⟩ := Ty.fits_map hfits
    obtain ⟨order, hperm, hbytes, hnorm⟩ := hwrite.map entries
    rw [hnorm] at hkeys ⊢
    obtain ⟨hdiffer, hkeys'⟩ := hkeys
    have hkeys' := Value.everyEntry_iff.mp hkeys'
    let part (entry : Value × Value) : EntryPart :=
      ⟨write entry.1, write entry.2, norm entry.1, norm entry.2⟩
    have hparts : ∀ p ∈ order.map part,
        p.Reads key.reader value.reader (Value.nestingEntries entries) := by
      intro p hp
      obtain ⟨entry, hentry, rfl⟩ := mem_map.mp hp
      have hmem := hperm.mem_iff.mp hentry
      obtain ⟨hkeyKeys, hvalueKeys⟩ := hkeys' _ (mem_map_of_mem hentry)
      obtain ⟨hkeyLe, hvalueLe⟩ := Value.nesting_le_entries hmem
      exact ⟨(hwrite.readsAs key _ (hentries _ hmem).1 hkeyKeys).mono hkeyLe,
        (hwrite.readsAs value _ (hentries _ hmem).2 hvalueKeys).mono hvalueLe⟩
    have hvalues : (order.map part).map (·.entry) =
        order.map fun entry => (norm entry.1, norm entry.2) := by
      rw [map_map]
      rfl
    have hcount : (order.map part).length = entries.length := by
      rw [length_map, hperm.length_eq]
    have hread := readsAs_map hparts (hvalues ▸ hdiffer) (hcount ▸ hlength)
    rw [hvalues, hcount, map_map] at hread
    rw [hbytes, ← joined_map _ fun entry => (norm entry.1, norm entry.2)]
    exact hread
  | .struct fields, v, hfits, hkeys => by
    obtain ⟨values, rfl, hlength, hnames, hfields⟩ := Ty.fits_struct hfits
    obtain ⟨order, hperm, hbytes, hnorm⟩ := hwrite.struct values
    rw [hnorm] at hkeys ⊢
    have hkeys' := Value.everyField_iff.mp hkeys.2
    have hvalueNames := Ty.names_of_fitsFields hfields
    have hreads := hwrite.readsAs_fields fields values hfields
      (fun field hfield => hkeys' _ (mem_map_of_mem hfield))
      (fun field hfield => Value.nesting_le_fields hfield)
    let part (field : String × Value) : FieldPart := ⟨field.1, write field.2, norm field.2⟩
    have hparts : ∀ p ∈ order.map part,
        p.Reads (Ty.fieldReaders fields) (Value.nestingFields values) := by
      intro p hp
      obtain ⟨field, hfield, rfl⟩ := mem_map.mp hp
      exact hreads field (hperm.mem_iff.mp hfield)
    have hnames' : ((Ty.fieldReaders fields).map (·.name)).Nodup := by
      rw [Ty.name_fieldReaders, ← hvalueNames]
      exact hnames
    have hcount : (order.map part).length = values.length := by
      rw [length_map, hperm.length_eq]
    have hvalues : (values.map fun field => (field.1, norm field.2)).map (·.1) =
        (Ty.fieldReaders fields).map (·.name) := by
      rw [Ty.name_fieldReaders, ← hvalueNames, map_map]
      rfl
    have hparts' : ((order.map part).map fun p => (p.name, p.value)).Perm
        (values.map fun field => (field.1, norm field.2)) := by
      rw [map_map]
      exact hperm.map _
    have hread := readsAs_struct hnames' hparts hvalues hparts' (hcount ▸ hlength)
    rw [hcount, map_map] at hread
    rw [hbytes, ← joined_map _ fun field => (field.1, norm field.2)]
    exact hread
  | .variant cases, v, hfits, hkeys => by
    obtain ⟨name, payload, rfl, hname, hcase⟩ := Ty.fits_variant hfits
    cases payload with
    | none =>
      rw [(hwrite.unitCase name).1, (hwrite.unitCase name).2]
      exact readsAs_unitCase (Ty.find?_caseReaders_none hcase) hname _
    | some v =>
      rw [(hwrite.payloadCase name v).2] at hkeys ⊢
      rw [(hwrite.payloadCase name v).1]
      obtain ⟨read, hfind, hread⟩ := hwrite.readsAs_case cases name v hcase hkeys
      exact readsAs_payloadCase hfind hname hread
  | .custom read, v, hfits, _ => absurd hfits Ty.not_fits_custom

theorem Serializes.readsAs_elems (hwrite : Serializes write norm) {nesting : Nat} : (ts : List Ty) →
    (elems : List Value) → Ty.fitsElems ts elems → (∀ v ∈ elems, (norm v).DistinctKeys) →
    (∀ v ∈ elems, v.nesting ≤ nesting) →
    ∃ parts : List Element, parts.map (·.1) = Ty.readers ts ∧
      parts.map (·.2) = elems.map (fun v => (write v, norm v)) ∧
      ∀ part ∈ parts, ReadsAs part.1 nesting part.2.1 part.2.2
  | [], [], _, _, _ => ⟨[], rfl, rfl, by simp⟩
  | t :: ts, v :: elems, hfits, hkeys, hle => by
    obtain ⟨hkey, hkeys'⟩ := forall_mem_cons.mp hkeys
    obtain ⟨hv, hle'⟩ := forall_mem_cons.mp hle
    obtain ⟨parts, hreaders, hbytes, hparts⟩ := hwrite.readsAs_elems ts elems hfits.2 hkeys' hle'
    refine ⟨(t.reader, write v, norm v) :: parts, ?_, ?_, ?_⟩
    · rw [map_cons, hreaders, Ty.readers]
    · rw [map_cons, hbytes, map_cons]
    · exact forall_mem_cons.mpr ⟨(hwrite.readsAs t v hfits.1 hkey).mono hv, hparts⟩
  | [], _ :: _, hfits, _, _ => hfits.elim
  | _ :: _, [], hfits, _, _ => hfits.elim

theorem Serializes.readsAs_fields (hwrite : Serializes write norm) {nesting : Nat} :
    (fields : List (String × Ty × Option Value)) → (values : List (String × Value)) →
    Ty.fitsFields fields values → (∀ field ∈ values, (norm field.2).DistinctKeys) →
    (∀ field ∈ values, field.2.nesting ≤ nesting) →
    ∀ field ∈ values, (⟨field.1, write field.2, norm field.2⟩ : FieldPart).Reads
      (Ty.fieldReaders fields) nesting
  | [], [], _, _, _ => by simp
  | (name, t, fallback) :: fields, (name', v) :: values, hfits, hkeys, hle => by
    obtain ⟨⟨rfl, hlength, hfitsV⟩, hfits'⟩ := hfits
    obtain ⟨hkey, hkeys'⟩ := forall_mem_cons.mp hkeys
    obtain ⟨hv, hle'⟩ := forall_mem_cons.mp hle
    refine forall_mem_cons.mpr ⟨?_, ?_⟩
    · exact ⟨hlength, 0, _, rfl, rfl, (hwrite.readsAs t v hfitsV hkey).mono hv⟩
    · intro field hfield
      obtain ⟨hlength', i, reader, hreader, hrest⟩ :=
        hwrite.readsAs_fields fields values hfits' hkeys' hle' field hfield
      exact ⟨hlength', i + 1, reader, hreader, hrest⟩
  | [], _ :: _, hfits, _, _ => hfits.elim
  | _ :: _, [], hfits, _, _ => hfits.elim

theorem Serializes.readsAs_case (hwrite : Serializes write norm) :
    (cases : List (String × Option Ty)) → (name : String) → (v : Value) →
    Ty.fitsCase cases name (some v) → (norm v).DistinctKeys →
    ∃ read, ((Ty.caseReaders cases).find? fun case => case.1 = name) = some (name, some read) ∧
      ReadsAs read v.nesting (write v) (norm v)
  | [], _, _, hfits, _ => hfits.elim
  | (name', none) :: cases, name, v, hfits, hkeys => by
    rw [Ty.fitsCase] at hfits
    by_cases hname : name' = name
    · rw [if_pos hname] at hfits
      cases hfits
    · rw [if_neg hname] at hfits
      obtain ⟨read, hfind, hread⟩ := hwrite.readsAs_case cases name v hfits hkeys
      refine ⟨read, ?_, hread⟩
      rw [Ty.caseReaders, List.find?_cons_of_neg (by simpa using hname), hfind]
  | (name', some t) :: cases, name, v, hfits, hkeys => by
    rw [Ty.fitsCase] at hfits
    by_cases hname : name' = name
    · rw [if_pos hname] at hfits
      obtain ⟨v', heq, hfits⟩ := hfits
      cases heq
      refine ⟨t.reader, ?_, hwrite.readsAs t v hfits hkeys⟩
      rw [Ty.caseReaders, List.find?_cons_of_pos (by simpa using hname), hname]
    · rw [if_neg hname] at hfits
      obtain ⟨read, hfind, hread⟩ := hwrite.readsAs_case cases name v hfits hkeys
      refine ⟨read, ?_, hread⟩
      rw [Ty.caseReaders, List.find?_cons_of_neg (by simpa using hname), hfind]

end

end Wado.Cbor
