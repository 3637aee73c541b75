/-
The types of the serde data model and their readers, and the boundaries of every
container that they read.
-/
import Wado.Cbor.EntryReads
import Wado.Cbor.Tracks

namespace Wado

namespace Cbor

open ExceptSteps CborDeserializer

/-- A type of the data model.  A field may declare a default, a unit case has no
payload, and `custom` is a type whose own reader keeps to items. -/
inductive Ty where
  | int (t : IntTy)
  | bool
  | text
  | bytes
  | unit
  | option (t : Ty)
  | list (t : Ty)
  | tuple (ts : List Ty)
  | map (key value : Ty)
  | struct (fields : List (String × Ty × Option Value))
  | variant (cases : List (String × Option Ty))
  | custom (read : { read : Reader Value // Tracks read })

namespace Ty

mutual

/-- The reader of a type. -/
def reader : Ty → Reader Value
  | int t => readScalar (deserializeInt t) (.int t)
  | bool => readScalar deserializeBool .bool
  | text => readScalar deserializeString .text
  | bytes => readScalar deserializeBytes .bytes
  | unit => readUnit
  | option t => readOption t.reader
  | list t => readList t.reader
  | tuple ts => readTuple (readers ts)
  | map key value => readMap key.reader value.reader
  | struct fields => readStruct (fieldReaders fields)
  | variant cases => readVariant (caseReaders cases)
  | custom read => read.1

def readers : List Ty → List (Reader Value)
  | [] => []
  | t :: ts => t.reader :: readers ts

def fieldReaders : List (String × Ty × Option Value) → List FieldReader
  | [] => []
  | (name, t, fallback) :: fields => ⟨name, t.reader, fallback⟩ :: fieldReaders fields

def caseReaders : List (String × Option Ty) → List (String × Option (Reader Value))
  | [] => []
  | (name, none) :: cases => (name, none) :: caseReaders cases
  | (name, some t) :: cases => (name, some t.reader) :: caseReaders cases

end

mutual

theorem tracks_reader : (t : Ty) → Tracks t.reader
  | int t => tracks_readScalar (tracks_deserializeInt t) _
  | bool => tracks_readScalar tracks_deserializeBool _
  | text => tracks_readScalar tracks_deserializeString _
  | bytes => tracks_readScalar tracks_deserializeBytes _
  | unit => tracks_readUnit
  | option t => tracks_readOption t.tracks_reader
  | list t => tracks_readList t.tracks_reader
  | tuple ts => tracks_readTuple (tracks_readers ts)
  | map key value => tracks_readMap key.tracks_reader value.tracks_reader
  | struct fields => tracks_readStruct (tracks_fieldReaders fields)
  | variant cases => tracks_readVariant (tracks_caseReaders cases)
  | custom read => read.2

theorem tracks_readers : (ts : List Ty) → ∀ read ∈ readers ts, Tracks read
  | [] => by simp [readers]
  | t :: ts => List.forall_mem_cons.mpr ⟨t.tracks_reader, tracks_readers ts⟩

theorem tracks_fieldReaders : (fields : List (String × Ty × Option Value)) →
    ∀ field ∈ fieldReaders fields, Tracks field.read
  | [] => by simp [fieldReaders]
  | (_, t, _) :: fields =>
    List.forall_mem_cons.mpr ⟨t.tracks_reader, tracks_fieldReaders fields⟩

theorem tracks_caseReaders : (cases : List (String × Option Ty)) →
    ∀ case ∈ caseReaders cases, ∀ read ∈ case.2, Tracks read
  | [] => by simp [caseReaders]
  | (_, none) :: cases => List.forall_mem_cons.mpr ⟨by simp, tracks_caseReaders cases⟩
  | (_, some t) :: cases => by
    refine List.forall_mem_cons.mpr ⟨?_, tracks_caseReaders cases⟩
    intro read hread
    rw [← Option.some.inj hread]
    exact t.tracks_reader

end

end Ty

/-- In every reading that succeeds, all containers read on the way deliver what their
heads declare and stop where the skipper stops if and only if all of them fit their
heads: no definite count of 2^63 or more, and a variant given as a map where its case
has a payload and as a text where it has none.  So does every input that `from_bytes`
accepts. -/
theorem reader_agrees_iff_counted (t : Ty) :
    (∀ (self s : CborDeserializer) (v : Value), t.reader self = .ok (v, s) →
      ∃ noted, s.reads = self.reads ++ noted ∧ ((∀ read ∈ noted, read.Agrees self.maxDepth) ↔
          ∀ read ∈ noted, read.Counted self.maxDepth)) ∧
      ∀ (input : List UInt8) (strict : Bool) (maxDepth : Int) (v : Value) (s : CborDeserializer),
        fromBytes t.reader input strict maxDepth = .ok (v, s) →
          ((∀ read ∈ s.reads, read.Agrees maxDepth) ↔ ∀ read ∈ s.reads, read.Counted maxDepth) := by
  have hreader (self s : CborDeserializer) (v : Value) (h : t.reader self = .ok (v, s)) :
      ∃ noted, s.reads = self.reads ++ noted ∧ ((∀ read ∈ noted, read.Agrees self.maxDepth) ↔
          ∀ read ∈ noted, read.Counted self.maxDepth) := by
    obtain ⟨_, noted, _, _, _, hreads, hcounted, hagrees⟩ := t.tracks_reader self s v h
    refine ⟨noted, hreads, ?_⟩
    constructor
    · intro hall read hread
      exact hcounted read hread (hall read hread)
    · intro hall
      exact (hagrees hall).2
  refine ⟨hreader, ?_⟩
  intro input strict maxDepth v s h
  obtain ⟨⟨v', de⟩, hread, h⟩ := bind_eq_ok.mp h
  dsimp only at h
  split_ifs at h with htrailing
  cases h
  obtain ⟨noted, hreads, hiff⟩ := hreader _ _ _ hread
  rw [List.nil_append] at hreads
  rw [hreads]
  exact hiff

/-- An array of unknown length that holds an array of three. -/
theorem reader_agrees_iff_counted_nested :
    ∀ read ∈ [(⟨[0x83, 1, 2, 3, 0xff], 1, 1, .elements, 3, 5⟩ : ContainerRead),
        ⟨[0x9f, 0x83, 1, 2, 3, 0xff], 0, 0, .elements, 1, 6⟩],
      read.Agrees 100 := by
  have h := (reader_agrees_iff_counted (.list (.list (.int .u8)))).2
    [0x9f, 0x83, 1, 2, 3, 0xff] true 100 _ _ rfl
  exact h.mpr (by decide)

/-- An array of 2^63 elements, of which there are none. -/
def hugeArray : List UInt8 := [0x9b, 0x80, 0, 0, 0, 0, 0, 0, 0]

theorem fromBytes_hugeArray_wrong : fromBytes (Ty.list (.int .i32)).reader hugeArray true 100 =
        .ok (.seq [], ⟨[], 9, 0, 100, true, [⟨hugeArray, 0, 0, .elements, 0, 9⟩]⟩) ∧
      ¬ ContainerRead.Agrees 100 ⟨hugeArray, 0, 0, .elements, 0, 9⟩ := by
  constructor
  · rfl
  · decide

end Cbor

end Wado

/-
The values of a type, and how a serializer's bytes are read back at it.  The two
serializers differ in the order of a map's entries alone, and share the proof.
-/

namespace Wado

namespace Cbor

open ExceptSteps CborDeserializer

variable {v : Value}

namespace Value

mutual

/-- How many levels of containers a value has. -/
def nesting : Value → Nat
  | seq elems => nestingElems elems + 1
  | map entries => nestingEntries entries + 1
  | struct fields => nestingFields fields + 1
  | variant _ (some payload) => nesting payload + 1
  | _ => 0

def nestingElems : List Value → Nat
  | [] => 0
  | v :: elems => max (nesting v) (nestingElems elems)

def nestingEntries : List (Value × Value) → Nat
  | [] => 0
  | (k, v) :: entries => max (max (nesting k) (nesting v)) (nestingEntries entries)

def nestingFields : List (String × Value) → Nat
  | [] => 0
  | (_, v) :: fields => max (nesting v) (nestingFields fields)

end

section Everywhere

variable (onMap : List (Value × Value) → Prop) (onStruct : List (String × Value) → Prop)

mutual

/-- Of the entries of every map and the fields of every struct in a value. -/
def Everywhere : Value → Prop
  | seq elems => everyElem elems
  | map entries => onMap entries ∧ everyEntry entries
  | struct fields => onStruct fields ∧ everyField fields
  | variant _ (some payload) => Everywhere payload
  | _ => True

def everyElem : List Value → Prop
  | [] => True
  | v :: elems => Everywhere v ∧ everyElem elems

def everyEntry : List (Value × Value) → Prop
  | [] => True
  | (k, v) :: entries => (Everywhere k ∧ Everywhere v) ∧ everyEntry entries

def everyField : List (String × Value) → Prop
  | [] => True
  | (_, v) :: fields => Everywhere v ∧ everyField fields

end

end Everywhere

variable {entries : List (Value × Value)} {fields : List (String × Value)}

variable {elems : List Value}

section EveryPart

variable {onMap : List (Value × Value) → Prop} {onStruct : List (String × Value) → Prop}

theorem everyElem_iff :
    everyElem onMap onStruct elems ↔ ∀ v ∈ elems, v.Everywhere onMap onStruct := by
  induction elems with
  | nil => simp [everyElem]
  | cons v elems ih => rw [everyElem, ih, List.forall_mem_cons]

theorem everyEntry_iff : everyEntry onMap onStruct entries ↔
      ∀ entry ∈ entries, entry.1.Everywhere onMap onStruct ∧ entry.2.Everywhere onMap onStruct := by
  induction entries with
  | nil => simp [everyEntry]
  | cons entry entries ih => rw [everyEntry, ih, List.forall_mem_cons]

theorem everyField_iff :
    everyField onMap onStruct fields ↔ ∀ field ∈ fields, field.2.Everywhere onMap onStruct := by
  induction fields with
  | nil => simp [everyField]
  | cons field fields ih => rw [everyField, ih, List.forall_mem_cons]

end EveryPart

/-- No map of the value has a key twice. -/
def DistinctKeys (v : Value) : Prop := v.Everywhere KeysDiffer fun _ => True

theorem nesting_le_elems (h : v ∈ elems) :
    v.nesting ≤ nestingElems elems := by
  induction elems with
  | nil => exact absurd h List.not_mem_nil
  | cons first elems ih =>
    rw [nestingElems]
    rcases List.mem_cons.mp h with rfl | h
    · exact Nat.le_max_left _ _
    · exact (ih h).trans (Nat.le_max_right _ _)

theorem nesting_le_entries {entry : Value × Value} (h : entry ∈ entries) :
    entry.1.nesting ≤ nestingEntries entries ∧ entry.2.nesting ≤ nestingEntries entries := by
  induction entries with
  | nil => exact absurd h List.not_mem_nil
  | cons first entries ih =>
    rw [nestingEntries]
    rcases List.mem_cons.mp h with rfl | h
    · have hmax := Nat.le_max_left (max entry.1.nesting entry.2.nesting) (nestingEntries entries)
      exact ⟨(Nat.le_max_left _ _).trans hmax, (Nat.le_max_right _ _).trans hmax⟩
    · obtain ⟨hkey, hvalue⟩ := ih h
      exact ⟨hkey.trans (Nat.le_max_right _ _), hvalue.trans (Nat.le_max_right _ _)⟩

theorem nesting_le_fields {field : String × Value}
    (h : field ∈ fields) : field.2.nesting ≤ nestingFields fields := by
  induction fields with
  | nil => exact absurd h List.not_mem_nil
  | cons first fields ih =>
    rw [nestingFields]
    rcases List.mem_cons.mp h with rfl | h
    · exact Nat.le_max_left _ _
    · exact (ih h).trans (Nat.le_max_right _ _)

end Value

namespace Ty

mutual

/-- The values of a type.  The length of a list and of a string is an `i32`, the names
of a struct are its own, and its fields are given in their declared order. -/
def Fits : Ty → Value → Prop
  | int t, .int t' n => t' = t ∧ t.min ≤ n ∧ n ≤ t.max
  | bool, .bool _ => True
  | text, .text s => (utf8 s).length < 2 ^ 31
  | bytes, .bytes content => content.length < 2 ^ 31
  | unit, .null => True
  | option t, v => v = .null ∨ Fits t v
  | list t, .seq elems => elems.length < 2 ^ 31 ∧ ∀ v ∈ elems, Fits t v
  | tuple ts, .seq elems => elems.length < 2 ^ 31 ∧ fitsElems ts elems
  | map key value, .map entries =>
    entries.length < 2 ^ 31 ∧ ∀ entry ∈ entries, Fits key entry.1 ∧ Fits value entry.2
  | struct fields, .struct values =>
    values.length < 2 ^ 31 ∧ (values.map (·.1)).Nodup ∧ fitsFields fields values
  | variant cases, .variant name payload => (utf8 name).length < 2 ^ 31 ∧
      fitsCase cases name payload
  | _, _ => False

def fitsElems : List Ty → List Value → Prop
  | [], [] => True
  | t :: ts, v :: elems => Fits t v ∧ fitsElems ts elems
  | _, _ => False

def fitsFields : List (String × Ty × Option Value) → List (String × Value) → Prop
  | [], [] => True
  | (name, t, _) :: fields, (name', v) :: values =>
    (name' = name ∧ (utf8 name).length < 2 ^ 31 ∧ Fits t v) ∧ fitsFields fields values
  | _, _ => False

/-- The payload is one of the first case with the name. -/
def fitsCase : List (String × Option Ty) → String → Option Value → Prop
  | [], _, _ => False
  | (name', none) :: cases, name, payload =>
    if name' = name then payload = none else fitsCase cases name payload
  | (name', some t) :: cases, name, payload =>
    if name' = name then ∃ v, payload = some v ∧ Fits t v else fitsCase cases name payload

end

theorem fits_int {t : IntTy} (h : (int t).Fits v) :
    ∃ n, v = .int t n ∧ t.min ≤ n ∧ n ≤ t.max := by
  cases v with
  | int t' n =>
    obtain ⟨rfl, hrange⟩ := h
    exact ⟨n, rfl, hrange⟩
  | _ => exact h.elim

theorem fits_bool (h : bool.Fits v) : ∃ b, v = .bool b := by
  cases v with
  | bool b => exact ⟨b, rfl⟩
  | _ => exact h.elim

theorem fits_text (h : text.Fits v) : ∃ s, v = .text s ∧ (utf8 s).length < 2 ^ 31 := by
  cases v with
  | text s => exact ⟨s, rfl, h⟩
  | _ => exact h.elim

theorem fits_bytes (h : bytes.Fits v) :
    ∃ content, v = .bytes content ∧ content.length < 2 ^ 31 := by
  cases v with
  | bytes content => exact ⟨content, rfl, h⟩
  | _ => exact h.elim

theorem fits_unit (h : unit.Fits v) : v = .null := by
  cases v with
  | null => rfl
  | _ => exact h.elim

theorem fits_list {t : Ty} (h : (list t).Fits v) :
    ∃ elems, v = .seq elems ∧ elems.length < 2 ^ 31 ∧ ∀ v ∈ elems, t.Fits v := by
  cases v with
  | seq elems => exact ⟨elems, rfl, h⟩
  | _ => exact h.elim

theorem fits_tuple {ts : List Ty} (h : (tuple ts).Fits v) :
    ∃ elems, v = .seq elems ∧ elems.length < 2 ^ 31 ∧ fitsElems ts elems := by
  cases v with
  | seq elems => exact ⟨elems, rfl, h⟩
  | _ => exact h.elim

theorem fits_map {key value : Ty} (h : (map key value).Fits v) :
    ∃ entries, v = .map entries ∧ entries.length < 2 ^ 31 ∧
      ∀ entry ∈ entries, key.Fits entry.1 ∧ value.Fits entry.2 := by
  cases v with
  | map entries => exact ⟨entries, rfl, h⟩
  | _ => exact h.elim

theorem fits_struct {fields : List (String × Ty × Option Value)} (h : (struct fields).Fits v) :
    ∃ values, v = .struct values ∧ values.length < 2 ^ 31 ∧ (values.map (·.1)).Nodup ∧
      fitsFields fields values := by
  cases v with
  | struct values => exact ⟨values, rfl, h⟩
  | _ => exact h.elim

theorem fits_variant {cases : List (String × Option Ty)} (h : (variant cases).Fits v) :
    ∃ name payload, v = .variant name payload ∧ (utf8 name).length < 2 ^ 31 ∧
      fitsCase cases name payload := by
  cases v with
  | variant name payload => exact ⟨name, payload, rfl, h⟩
  | _ => exact h.elim

theorem not_fits_custom {read : { read : Reader Value // Tracks read }} :
    ¬ (custom read).Fits v := by
  intro h
  cases v <;> exact h.elim

end Ty

/-- A serializer: what it writes of a value, and the value that its bytes stand for.  It
chooses the order of the entries of a map and of the fields of a struct. -/
structure Serializes (write : Value → List UInt8) (norm : Value → Value) : Prop where
  int (t : IntTy) (n : Int) : write (.int t n) = t.write n ∧ norm (.int t n) = .int t n
  bool (b : Bool) : write (.bool b) = writeBool b ∧ norm (.bool b) = .bool b
  text (s : String) : write (.text s) = writeText s ∧ norm (.text s) = .text s
  bytes (b : List UInt8) : write (.bytes b) = writeBytes b ∧ norm (.bytes b) = .bytes b
  null : write .null = [initNull] ∧ norm .null = .null
  seq (elems : List Value) :
    write (.seq elems) = writeHead majorArray elems.length ++ (elems.map write).flatten ∧
      norm (.seq elems) = .seq (elems.map norm)
  map (entries : List (Value × Value)) : ∃ order : List (Value × Value), order.Perm entries ∧
    write (.map entries) = writeHead majorMap entries.length ++
        (order.map fun entry => write entry.1 ++ write entry.2).flatten ∧
      norm (.map entries) = .map (order.map fun entry => (norm entry.1, norm entry.2))
  struct (fields : List (String × Value)) : ∃ order : List (String × Value), order.Perm fields ∧
    write (.struct fields) = writeHead majorMap fields.length ++
        (order.map fun field => writeText field.1 ++ write field.2).flatten ∧
      norm (.struct fields) = .struct (fields.map fun field => (field.1, norm field.2))
  unitCase (name : String) :
    write (.variant name none) = writeText name ∧ norm (.variant name none) = .variant name none
  payloadCase (name : String) (v : Value) :
    write (.variant name (some v)) = writeHead majorMap 1 ++ writeText name ++ write v ∧
      norm (.variant name (some v)) = .variant name (some (norm v))

variable {bytes : List UInt8}

theorem ReadsAs.mono {α : Type} {read : Reader α} {nesting nesting' : Nat}
    {v : α} (h : ReadsAs read nesting bytes v) (hle : nesting ≤ nesting') :
    ReadsAs read nesting' bytes v := by
  intro self next hrest hroom
  exact h self next hrest (hroom.mono hle)

theorem present_written {v : Int} (h : Written v bytes) : Present bytes := by
  have hhead {major arg : Nat} (hmajor : major < 2) (harg : arg < 2 ^ 64) :
      Present (writeHead major arg) := by
    have hpresent := present_writeHead (show major < 7 by omega) harg
      (fun htag => absurd htag (by simp only [majorTag]; omega)) []
    rwa [List.append_nil] at hpresent
  have hbignum {tag mag : Nat} (htag : tag = tagBignumPos ∨ tag = tagBignumNeg) :
      Present (writeBignum tag mag) := by
    rw [writeBignum, List.append_assoc]
    apply present_writeHead (by decide)
    · rcases htag with rfl | rfl <;> decide
    · intro _
      rcases htag with rfl | rfl <;> rfl
  cases h with
  | uint h => exact hhead (by decide) (by omega)
  | nint h => exact hhead (by decide) (by omega)
  | pos h => exact hbignum (.inl rfl)
  | neg h => exact hbignum (.inr rfl)

section RoundTrip

variable {write : Value → List UInt8} {norm : Value → Value}

theorem present_untagged {major n : Nat} (hmajor : major < 6) (hn : n < 2 ^ 31)
    (body : List UInt8) : Present (writeHead major n ++ body) := by
  apply present_writeHead (by omega) (by omega)
  intro htag
  exact absurd hmajor (by rw [htag]; decide)

/-- Nothing but a null is written as one. -/
theorem Serializes.present (hwrite : Serializes write norm) : (t : Ty) → {v : Value} →
    t.Fits v → v ≠ .null → Present (write v)
  | .int t, v, hfits, hv => by
    obtain ⟨n, rfl, hrange⟩ := Ty.fits_int hfits
    rw [(hwrite.int t n).1]
    exact present_written (t.written hrange)
  | .bool, v, hfits, hv => by
    obtain ⟨b, rfl⟩ := Ty.fits_bool hfits
    rw [(hwrite.bool b).1]
    exact present_writeBool b
  | .text, v, hfits, hv => by
    obtain ⟨s, rfl, hlength⟩ := Ty.fits_text hfits
    rw [(hwrite.text s).1]
    exact present_untagged (by decide) hlength _
  | .bytes, v, hfits, hv => by
    obtain ⟨content, rfl, hlength⟩ := Ty.fits_bytes hfits
    rw [(hwrite.bytes content).1]
    exact present_untagged (by decide) hlength _
  | .unit, _, hfits, hv => absurd (Ty.fits_unit hfits) hv
  | .option t, _, hfits, hv => hwrite.present t (hfits.resolve_left hv) hv
  | .list t, v, hfits, hv => by
    obtain ⟨elems, rfl, hlength, _⟩ := Ty.fits_list hfits
    rw [(hwrite.seq elems).1]
    exact present_untagged (by decide) hlength _
  | .tuple ts, v, hfits, hv => by
    obtain ⟨elems, rfl, hlength, _⟩ := Ty.fits_tuple hfits
    rw [(hwrite.seq elems).1]
    exact present_untagged (by decide) hlength _
  | .map key value, v, hfits, hv => by
    obtain ⟨entries, rfl, hlength, _⟩ := Ty.fits_map hfits
    obtain ⟨order, _, hbytes, _⟩ := hwrite.map entries
    rw [hbytes]
    exact present_untagged (by decide) hlength _
  | .struct fields, v, hfits, hv => by
    obtain ⟨values, rfl, hlength, _⟩ := Ty.fits_struct hfits
    obtain ⟨order, _, hbytes, _⟩ := hwrite.struct values
    rw [hbytes]
    exact present_untagged (by decide) hlength _
  | .variant cases, v, hfits, hv => by
    obtain ⟨name, payload, rfl, hlength, _⟩ := Ty.fits_variant hfits
    cases payload with
    | none =>
      rw [(hwrite.unitCase name).1]
      exact present_untagged (by decide) hlength _
    | some v =>
      rw [(hwrite.payloadCase name v).1, List.append_assoc]
      exact present_untagged (by decide) (by decide) _
  | .custom _, _, hfits, _ => absurd hfits Ty.not_fits_custom

end RoundTrip

end Cbor

end Wado
