/-
What a reader makes of the bytes that a serializer wrote: maps, structs and variants.
-/
import Wado.Cbor.ReadsAs
import Mathlib.Data.List.Nodup

namespace Wado.Cbor

open ExceptSteps CborDeserializer List

variable {next : List UInt8}

theorem beginMap_readsAs {self : CborDeserializer} {n nesting : Nat}
    (hn : n < 2 ^ 31) (hrest : self.rest = writeHead majorMap n ++ next)
    (hroom : Room self.depth self.maxDepth (nesting + 1)) :
    ∃ map, self.beginMap = .ok map ∧ map.opened.Left n ∧
      Room map.opened.depth map.de.maxDepth nesting ∧
      Passed self map.de (writeHead majorMap n) next := by
  obtain ⟨hlevel, hroom'⟩ := hroom.deeper
  have hopen := beginContainer_writeHead (.inr rfl) hn hrest hlevel
  exact ⟨_, bind_of_eq_ok hopen, ⟨rfl, rfl⟩, hroom', passed_after hrest⟩

/-- What is left of a map after one entry more. -/
def CborMapAccess.taken (map : CborMapAccess) (de : CborDeserializer) : CborMapAccess :=
  ⟨de, { map.opened with remaining := map.opened.remaining - 1 }⟩

variable {map : CborMapAccess}

variable {n : Nat}

theorem Opened.Left.taken (h : map.opened.Left (n + 1))
    (de : CborDeserializer) : (map.taken de).opened.Left n := by
  refine ⟨h.1, ?_⟩
  show map.opened.remaining - 1 = n
  rw [h.2]
  omega

theorem nextEntry_readsAs (hleft : map.opened.Left (n + 1)) :
    map.nextEntry = .ok (false, map.taken map.de) := by
  have hstep : map.de.containerStep map.opened.remaining map.opened.indef =
    .ok (false, map.de) := by
    rw [containerStep, hleft.1, if_neg Bool.false_ne_true, hleft.2, decide_eq_false (by omega)]
  rw [CborMapAccess.nextEntry, bind_of_eq_ok hstep]
  dsimp only
  rw [if_neg Bool.false_ne_true, if_pos (by rw [hleft.1]; exact Bool.false_ne_true)]
  rfl

theorem nextEntry_end (hleft : map.opened.Left 0) :
    map.nextEntry = .ok (true, map) := by
  have hstep : map.de.containerStep map.opened.remaining map.opened.indef = .ok (true, map.de) := by
    rw [containerStep, hleft.1, if_neg Bool.false_ne_true, hleft.2, decide_eq_true (by omega)]
  rw [CborMapAccess.nextEntry, bind_of_eq_ok hstep]
  rfl

theorem nextValue_readsAs {value : Reader Value} {nesting : Nat} {map : CborMapAccess}
    {bytes next : List UInt8} {v : Value} (hvalue : ReadsAs value nesting bytes v)
    (hrest : map.de.rest = bytes ++ next) (hroom : Room map.opened.depth map.de.maxDepth nesting) :
    ∃ de, map.nextValue value = .ok (v, { map with de }) ∧ Passed map.de de bytes next := by
  obtain ⟨s, hread, hpassed⟩ := hvalue { map.de with depth := map.opened.depth } next hrest hroom
  exact ⟨s, bind_of_eq_ok hread, ⟨hpassed.rest, hpassed.pos, hpassed.maxDepth⟩⟩

section Maps

variable {key value : Reader Value} {nesting : Nat}

/-- The bytes of an entry's key and value, and what they are read as. -/
structure EntryPart where
  keyBytes : List UInt8
  valueBytes : List UInt8
  entry : Value × Value

def EntryPart.bytes (part : EntryPart) : List UInt8 × (Value × Value) :=
  (part.keyBytes ++ part.valueBytes, part.entry)

def EntryPart.Reads (key value : Reader Value) (nesting : Nat) (part : EntryPart) : Prop :=
  ReadsAs key nesting part.keyBytes part.entry.1 ∧
    ReadsAs value nesting part.valueBytes part.entry.2

theorem nextKey_readsAs {bytes next : List UInt8} {k : Value}
    (hleft : map.opened.Left (n + 1)) (hkey : ReadsAs key nesting bytes k)
    (hrest : map.de.rest = bytes ++ next) (hroom : Room map.opened.depth map.de.maxDepth nesting) :
    ∃ de, map.nextKey key = .ok (some k, map.taken de) ∧ Passed map.de de bytes next := by
  obtain ⟨s, hread, hpassed⟩ := hkey { map.de with depth := map.opened.depth } next hrest hroom
  refine ⟨s, ?_, ⟨hpassed.rest, hpassed.pos, hpassed.maxDepth⟩⟩
  rw [CborMapAccess.nextKey, bind_of_eq_ok (nextEntry_readsAs hleft)]
  dsimp only
  rw [if_neg Bool.false_ne_true]
  exact bind_of_eq_ok hread

/-- Entries with keys of their own. -/
def KeysDiffer (entries : List (Value × Value)) : Prop :=
  entries.Pairwise fun a b => a.1.same b.1 = false

theorem insertDecoded_fresh {entries rest : List (Value × Value)} {entry : Value × Value}
    (h : KeysDiffer (entries ++ entry :: rest)) :
    insertDecoded entries entry.1 entry.2 = .ok (entries ++ [entry]) := by
  have hfresh : (entries.any fun e => e.1.same entry.1) = false := by
    rw [any_eq_false]
    intro e he
    rw [(pairwise_append.mp h).2.2 e he entry mem_cons_self]
    exact Bool.false_ne_true
  rw [insertDecoded, hfresh, if_neg Bool.false_ne_true]

theorem drainMap_readsAs {parts : List EntryPart} (hparts : ∀ part ∈ parts,
    part.Reads key value nesting)
    {entries : List (Value × Value)} (hkeys : KeysDiffer (entries ++ parts.map (·.entry)))
    {fuel : Nat} (hfuel : parts.length < fuel) {map : CborMapAccess} {next : List UInt8}
    (hleft : map.opened.Left parts.length)
    (hrest : map.de.rest = joined (parts.map (·.bytes)) ++ next)
    (hroom : Room map.opened.depth map.de.maxDepth nesting) :
    ∃ map', drainMap key value fuel entries map = .ok (entries ++ parts.map (·.entry), map') ∧
      Passed map.de map'.de (joined (parts.map (·.bytes))) next := by
  induction parts generalizing fuel entries map with
  | nil =>
    cases fuel with
    | zero => exact absurd hfuel (Nat.not_lt_zero _)
    | succ fuel =>
      have hend : map.nextKey key = .ok (none, map) :=
        bind_of_eq_ok (nextEntry_end hleft)
      refine ⟨map, ?_, .refl hrest⟩
      rw [drainMap, bind_of_eq_ok hend, map_nil, append_nil]
      rfl
  | cons part parts ih =>
    cases fuel with
    | zero => exact absurd hfuel (Nat.not_lt_zero _)
    | succ fuel =>
      obtain ⟨hpart, hparts'⟩ := forall_mem_cons.mp hparts
      rw [map_cons, joined_cons, EntryPart.bytes, append_assoc,
        append_assoc] at hrest
      obtain ⟨de, hkey, hpassed⟩ := nextKey_readsAs hleft hpart.1 hrest hroom
      obtain ⟨de', hvalue, hpassed'⟩ :=
        @nextValue_readsAs value nesting (map.taken de) _ _ _ hpart.2 hpassed.rest
          (hpassed.maxDepth ▸ hroom)
      have hboth := hpassed.trans hpassed'
      rw [map_cons] at hkeys
      have hinsert := insertDecoded_fresh hkeys
      rw [append_cons entries part.entry] at hkeys
      obtain ⟨map', hdrain, hpassed''⟩ :=
        ih hparts' hkeys (Nat.lt_of_succ_lt_succ hfuel) (hleft.taken de') hboth.rest
          (hboth.maxDepth ▸ hroom)
      refine ⟨map', ?_, hboth.trans hpassed''⟩
      rw [drainMap, bind_of_eq_ok hkey]
      dsimp only
      rw [bind_of_eq_ok hvalue]
      dsimp only
      rw [bind_of_eq_ok hinsert, map_cons,
        append_cons entries part.entry (parts.map (·.entry))]
      exact hdrain

/-- The entries of a map, in any order. -/
theorem readsAs_map {parts : List EntryPart} (hparts : ∀ part ∈ parts, part.Reads key value nesting)
    (hkeys : KeysDiffer (parts.map (·.entry))) (hlength : parts.length < 2 ^ 31) :
    ReadsAs (readMap key value) (nesting + 1)
      (writeHead majorMap parts.length ++ joined (parts.map (·.bytes)))
      (.map (parts.map (·.entry))) := by
  intro self next hrest hroom
  rw [append_assoc] at hrest
  obtain ⟨map, hbegin, hleft, hroom', hhead⟩ := beginMap_readsAs hlength hrest hroom
  have hfuel : parts.length < loopFuel map.opened map.de := by
    rw [loopFuel, hleft.1, hleft.2]
    exact Nat.lt_succ_self _
  obtain ⟨map', hdrain, hpassed⟩ :=
    @drainMap_readsAs _ _ _ _ hparts [] hkeys _ hfuel _ _ hleft hhead.rest hroom'
  refine ⟨note self .elements (parts.map (·.entry)).length map'.de, ?_, ?_⟩
  · rw [readMap, bind_of_eq_ok hbegin, bind_of_eq_ok hdrain]
    rfl
  · have htrans := hhead.trans hpassed
    exact ⟨htrans.rest, htrans.pos, htrans.maxDepth⟩

end Maps

variable {name : String}

variable {nesting : Nat}

section Structs

/-- The bytes of a field's value, and what they are read as. -/
structure FieldPart where
  name : String
  valueBytes : List UInt8
  value : Value

def FieldPart.bytes (part : FieldPart) : List UInt8 × (String × Value) :=
  (writeText part.name ++ part.valueBytes, (part.name, part.value))

/-- Some field has the part's name, and reads its value. -/
def FieldPart.Reads (fields : List FieldReader) (nesting : Nat) (part : FieldPart) : Prop :=
  (utf8 part.name).length < 2 ^ 31 ∧
    ∃ (i : Nat) (field : FieldReader), fields[i]? = some field ∧ field.name = part.name ∧
      ReadsAs field.read nesting part.valueBytes part.value

variable {sd : CborMapAccess}

/-- A struct's key is read in place where a serializer wrote it. -/
theorem entryKey_writeText
    (hname : (utf8 name).length < 2 ^ 31) (hrest : sd.de.rest = writeText name ++ next) :
    sd.entryKey = .ok (utf8 name, { sd with de := sd.de.after (writeText name).length }) := by
  have hbytes : HeadBytes ⟨majorText, headAi (utf8 name).length, (utf8 name).length, false⟩
      (writeHead majorText (utf8 name).length) :=
    headBytes_writeHead (by decide) (by omega)
  have hai : headAi (utf8 name).length ≤ ai8Byte := by
    simp only [headAi, ai1Byte, ai2Byte, ai4Byte, ai8Byte]
    split_ifs <;> omega
  rw [writeText] at hrest ⊢
  rw [append_assoc] at hrest
  have hread := readHead_eq_ok.mpr ⟨_, _, hrest, hbytes, rfl⟩
  have hrest' := rest_after_append hrest
  rw [length_append]
  generalize writeHead majorText (utf8 name).length = head at hbytes hrest hrest' hread ⊢
  obtain ⟨b, tail, rfl⟩ := exists_cons_of_length_pos hbytes.length_pos
  obtain ⟨hmajor, hlow⟩ := hbytes.first
  dsimp only at hmajor hlow
  rw [readHead_of_definite hrest (by rw [hlow]; exact hai), bind_eq_ok] at hread
  obtain ⟨⟨arg, de⟩, harg, hhead⟩ := hread
  have harg' : arg = (utf8 name).length := congrArg (·.1.arg) (Except.ok.inj hhead)
  have hde : de = sd.de.after (b :: tail).length := congrArg (·.2) (Except.ok.inj hhead)
  subst harg' hde
  rw [CborMapAccess.entryKey, bind_of_eq_ok (peekByte_of_rest hrest),
    if_pos ⟨hmajor, by rw [hlow]; exact hai⟩, bind_of_eq_ok harg]
  dsimp only
  rw [hrest', if_neg (by simp), take_left, after_after]
  rfl

/-- The slots of a struct whose entries so far are `done`, the last first. -/
def slotsOf (fields : List FieldReader) (done : List (String × Value)) : List (Option Value) :=
  fields.map fun field => done.lookup field.name

theorem slotsOf_nil (fields : List FieldReader) :
    slotsOf fields [] = List.replicate fields.length none := by
  induction fields with
  | nil => rfl
  | cons field fields ih =>
    rw [slotsOf, map_cons, ← slotsOf, ih]
    rfl

variable {fields : List FieldReader}

variable {field : FieldReader}

theorem slotsOf_cons (hnames : (fields.map (·.name)).Nodup) {i : Nat}
    (hfield : fields[i]? = some field) (v : Value) (done : List (String × Value)) :
    slotsOf fields ((field.name, v) :: done) = (slotsOf fields done).set i (some v) := by
  obtain ⟨hi, hget⟩ := List.getElem?_eq_some_iff.mp hfield
  apply ext_getElem
  · simp [slotsOf]
  · intro j hj hj'
    have hj₁ : j < fields.length := by
      rw [slotsOf, length_map] at hj
      exact hj
    rw [getElem_set]
    simp only [slotsOf, getElem_map]
    by_cases hij : i = j
    · subst hij
      rw [if_pos rfl, hget, lookup_cons_self]
    · have hne : (fields[j].name == field.name) = false := by
        rw [beq_eq_false_iff_ne, ← hget]
        intro hsame
        have hi₁ : i < (fields.map (·.name)).length := by rwa [length_map]
        have hj₂ : j < (fields.map (·.name)).length := by rwa [length_map]
        have hnames_eq : (fields.map (·.name))[i] = (fields.map (·.name))[j] := by
          rw [getElem_map, getElem_map, hsame]
        exact hij (hnames.getElem_inj_iff.mp hnames_eq)
      rw [if_neg hij, lookup_cons, hne]

theorem findIdx?_name {names : List String} (hnames : names.Nodup) {i : Nat}
    (hname : names[i]? = some name) : (names.findIdx? fun n => utf8 n = utf8 name) = some i := by
  obtain ⟨hi, hget⟩ := List.getElem?_eq_some_iff.mp hname
  apply List.findIdx?_eq_some_iff_getElem.mpr
  refine ⟨hi, by simp [hget], ?_⟩
  intro j hj hsame
  have heq : names[j] = name := utf8_injective (of_decide_eq_true hsame)
  exact absurd (hnames.getElem_inj_iff.mp (heq.trans hget.symm)) (Nat.ne_of_lt hj)

theorem nextField_readsAs (hnames : (fields.map (·.name)).Nodup) {n i : Nat}
    (hleft : sd.opened.Left (n + 1)) (hfield : fields[i]? = some field)
    (hname : (utf8 field.name).length < 2 ^ 31)
    (hrest : sd.de.rest = writeText field.name ++ next) :
    ∃ de, sd.nextField (fields.map (·.name)) = .ok (some (some i), sd.taken de) ∧
      Passed sd.de de (writeText field.name) next := by
  have hkey : (sd.taken sd.de).entryKey = _ := entryKey_writeText hname hrest
  have hindex : (fields.map (·.name))[i]? = some field.name := by
    rw [List.getElem?_map, hfield]
    rfl
  refine ⟨sd.de.after (writeText field.name).length, ?_, passed_after hrest⟩
  rw [CborMapAccess.nextField, bind_of_eq_ok (nextEntry_readsAs hleft)]
  dsimp only
  rw [if_neg Bool.false_ne_true, bind_of_eq_ok hkey]
  dsimp only
  rw [findIdx?_name hnames hindex]
  rfl

theorem drainStruct_readsAs {fields : List FieldReader} (hnames : (fields.map (·.name)).Nodup)
    {nesting : Nat} {parts : List FieldPart} (hparts : ∀ part ∈ parts, part.Reads fields nesting)
    (hdiffer : (parts.map (·.name)).Nodup) {done : List (String × Value)}
    (hfresh : ∀ part ∈ parts, done.lookup part.name = none) {fuel delivered : Nat}
    (hfuel : parts.length < fuel) {sd : CborMapAccess} {next : List UInt8}
    (hleft : sd.opened.Left parts.length) (hrest : sd.de.rest =
      joined (parts.map (·.bytes)) ++ next)
    (hroom : Room sd.opened.depth sd.de.maxDepth nesting) :
    ∃ sd', drainStruct fields fuel delivered (slotsOf fields done) sd =
        .ok (delivered + parts.length,
          slotsOf fields ((parts.map fun part => (part.name, part.value)).reverse ++ done), sd') ∧
      Passed sd.de sd'.de (joined (parts.map (·.bytes))) next := by
  induction parts generalizing fuel delivered done sd with
  | nil =>
    cases fuel with
    | zero => exact absurd hfuel (Nat.not_lt_zero _)
    | succ fuel =>
      have hend : sd.nextField (fields.map (·.name)) = .ok (none, sd) :=
        bind_of_eq_ok (nextEntry_end hleft)
      refine ⟨sd, ?_, .refl hrest⟩
      rw [drainStruct, bind_of_eq_ok hend]
      rfl
  | cons part₀ parts ih =>
    cases fuel with
    | zero => exact absurd hfuel (Nat.not_lt_zero _)
    | succ fuel =>
      obtain ⟨⟨hlength, i, field, hfield, hname, hread⟩, hparts'⟩ := forall_mem_cons.mp hparts
      obtain ⟨hfresh₁, hfresh'⟩ := forall_mem_cons.mp hfresh
      obtain ⟨hnew, hdiffer'⟩ := nodup_cons.mp hdiffer
      rw [map_cons, joined_cons, FieldPart.bytes, append_assoc,
        append_assoc] at hrest
      rw [← hname] at hlength hrest hfresh₁
      obtain ⟨de, hkey, hpassed⟩ := nextField_readsAs hnames hleft hfield hlength hrest
      obtain ⟨de', hvalue, hpassed'⟩ :=
        @nextValue_readsAs _ nesting (sd.taken de) _ _ _ hread hpassed.rest
          (hpassed.maxDepth ▸ hroom)
      have hboth := hpassed.trans hpassed'
      have hempty : ((slotsOf fields done)[i]?.join).isSome = false := by
        rw [slotsOf, List.getElem?_map, hfield]
        show (done.lookup field.name).isSome = false
        rw [hfresh₁]
        rfl
      have hfresh'' : ∀ part ∈ parts, ((field.name, part₀.value) :: done).lookup part.name =
        none := by
        intro part hpart
        have hne : (part.name == field.name) = false := by
          rw [beq_eq_false_iff_ne, hname]
          intro hsame
          exact hnew (mem_map.mpr ⟨part, hpart, hsame⟩)
        rw [lookup_cons, hne]
        exact hfresh' part hpart
      obtain ⟨sd', hdrain, hpassed''⟩ :=
        @ih hparts' hdiffer' ((field.name, part₀.value) :: done) hfresh'' fuel (delivered + 1)
          (Nat.lt_of_succ_lt_succ hfuel) _ (hleft.taken de') hboth.rest
          (hboth.maxDepth ▸ hroom)
      refine ⟨sd', ?_, ?_⟩
      · rw [drainStruct, bind_of_eq_ok hkey]
        simp only [Option.bind_some, hfield, Option.map_some, hempty, Bool.false_eq_true, if_false]
        rw [bind_of_eq_ok hvalue]
        dsimp only
        rw [← slotsOf_cons hnames hfield]
        refine hdrain.trans ?_
        rw [map_cons, reverse_cons, append_assoc, ← hname, length_cons]
        simp only [singleton_append, Nat.add_assoc, Nat.add_comm 1]
      · have htrans := hboth.trans hpassed''
        rw [map_cons, joined_cons, FieldPart.bytes, ← hname]
        exact htrans

theorem lookup_of_mem {entries : List (String × Value)} (hnames : (entries.map (·.1)).Nodup)
    {entry : String × Value} (hmem : entry ∈ entries) : entries.lookup entry.1 = some entry.2 := by
  induction entries with
  | nil => exact absurd hmem not_mem_nil
  | cons first entries ih =>
    obtain ⟨hnew, hnames'⟩ := nodup_cons.mp hnames
    rcases mem_cons.mp hmem with rfl | hmem
    · exact lookup_cons_self
    · have hne : (entry.1 == first.1) = false := by
        rw [beq_eq_false_iff_ne]
        intro hsame
        exact hnew (mem_map.mpr ⟨entry, hmem, hsame⟩)
      rw [lookup_cons, hne]
      exact ih hnames' hmem

/-- Where every field has its entry, the struct is made of the entries. -/
theorem fromSlots_slotsOf {values done : List (String × Value)}
    (hnames : values.map (·.1) = fields.map (·.name))
    (hdone : ∀ entry ∈ values, done.lookup entry.1 = some entry.2) :
    fromSlots fields (slotsOf fields done) = .ok values := by
  induction fields generalizing values with
  | nil =>
    have hnil : values = [] := map_eq_nil_iff.mp hnames
    rw [hnil]
    rfl
  | cons field fields ih =>
    cases values with
    | nil => cases hnames
    | cons entry values =>
      obtain ⟨hname, hnames'⟩ := List.cons.inj hnames
      obtain ⟨hentry, hdone'⟩ := forall_mem_cons.mp hdone
      dsimp only at hname
      rw [hname] at hentry
      rw [slotsOf, map_cons, hentry, ← slotsOf, fromSlots]
      dsimp only [Option.some_or]
      rw [bind_of_eq_ok (ih hnames' hdone'), ← hname]
      rfl

/-- The fields of a struct, in any order. -/
theorem readsAs_struct (hnames : (fields.map (·.name)).Nodup)
    {parts : List FieldPart} (hparts : ∀ part ∈ parts, part.Reads fields nesting)
    {values : List (String × Value)} (hvalues : values.map (·.1) = fields.map (·.name))
    (hperm : (parts.map fun part => (part.name, part.value)).Perm values)
    (hlength : parts.length < 2 ^ 31) :
    ReadsAs (readStruct fields) (nesting + 1)
      (writeHead majorMap parts.length ++ joined (parts.map (·.bytes))) (.struct values) := by
  intro self next hrest hroom
  rw [append_assoc] at hrest
  obtain ⟨sd, hbegin, hleft, hroom', hhead⟩ := beginMap_readsAs hlength hrest hroom
  have hfuel : parts.length < loopFuel sd.opened sd.de := by
    rw [loopFuel, hleft.1, hleft.2]
    exact Nat.lt_succ_self _
  have hnames' : (values.map (·.1)).Nodup := hvalues ▸ hnames
  have hdiffer : (parts.map (·.name)).Nodup := by
    have h := (hperm.map (·.1)).nodup_iff.mpr hnames'
    rw [map_map] at h
    exact h
  obtain ⟨sd', hdrain, hpassed⟩ :=
    @drainStruct_readsAs fields hnames nesting parts hparts hdiffer [] (fun _ _ => rfl) _ 0 hfuel
      _ _ hleft hhead.rest hroom'
  rw [slotsOf_nil, append_nil] at hdrain
  have hslots : fromSlots fields
      (slotsOf fields (parts.map fun part => (part.name, part.value)).reverse) = .ok values := by
    have hreverse := (reverse_perm _).trans hperm
    apply fromSlots_slotsOf hvalues
    intro entry hentry
    exact lookup_of_mem ((hreverse.map (·.1)).nodup_iff.mpr hnames') (hreverse.mem_iff.mpr hentry)
  refine ⟨note self .elements (0 + parts.length) sd'.de, ?_, ?_⟩
  · rw [readStruct, bind_of_eq_ok hbegin]
    dsimp only
    rw [bind_of_eq_ok hdrain]
    dsimp only
    rw [bind_of_eq_ok hslots]
    rfl
  · have htrans := hhead.trans hpassed
    exact ⟨htrans.rest, htrans.pos, htrans.maxDepth⟩

end Structs

section Variants

variable {cases : List (String × Option (Reader Value))}

/-- A case without a payload is its name. -/
theorem readsAs_unitCase
    (hcase : (cases.find? fun case => case.1 = name) = some (name, none))
    (hname : (utf8 name).length < 2 ^ 31) (nesting : Nat) :
    ReadsAs (readVariant cases) nesting (writeText name) (.variant name none) := by
  intro self next hrest _
  have hbegin : self.beginVariant =
      .ok ⟨self.after (writeText name).length, self.depth, name, false, false⟩ := by
    have hsplit := hrest
    rw [writeText, append_assoc] at hsplit
    have hread : self.readUntagged (· = tagSelfDescribed) = _ :=
      readUntagged_eq_ok.mpr ⟨_, _, hsplit,
        untagged_writeHead (by decide) (by decide) (by omega), rfl⟩
    have htext : (self.after (writeHead majorText (utf8 name).length).length).readTextBody
        (utf8 name).length false = .ok (name, _) :=
      readTextBody_eq_ok.mpr ⟨[utf8 name], utf8 name, next, rest_after_append hsplit,
        .definite rfl, by simp [takeText, tryFromUtf8_utf8], rfl⟩
    rw [beginVariant, bind_of_eq_ok hread]
    dsimp only
    rw [if_pos rfl, bind_of_eq_ok htext, after_after, ← length_append]
    rfl
  refine ⟨note self (.variant false) 0 (self.after (writeText name).length), ?_, ?_⟩
  · rw [readVariant, bind_of_eq_ok hbegin]
    dsimp only
    rw [hcase]
    rfl
  · have hpassed := passed_after hrest
    exact ⟨hpassed.rest, hpassed.pos, hpassed.maxDepth⟩

/-- A case with a payload is a map of its name to the payload. -/
theorem readsAs_payloadCase
    {read : Reader Value} (hcase : (cases.find? fun case => case.1 = name) = some (name, some read))
    (hname : (utf8 name).length < 2 ^ 31) {bytes : List UInt8} {v : Value}
    (hread : ReadsAs read nesting bytes v) :
    ReadsAs (readVariant cases) (nesting + 1) (writeHead majorMap 1 ++ writeText name ++ bytes)
      (.variant name (some v)) := by
  intro self next hrest hroom
  obtain ⟨hlevel, hroom'⟩ := hroom.deeper
  rw [append_assoc, append_assoc] at hrest
  have hhead := passed_after hrest
  have hmap : self.readUntagged (· = tagSelfDescribed) = _ :=
    readUntagged_eq_ok.mpr ⟨_, _, hrest, untagged_writeHead (by decide) (by decide) (by decide),
      rfl⟩
  have hdepth : (self.after (writeHead majorMap 1).length).innerDepth = .ok (level self.depth) :=
    deeper_eq_ok.mpr ⟨rfl, hlevel⟩
  obtain ⟨de, hkey, hkeyPassed⟩ :=
    readsAs_text hname (self.after (writeHead majorMap 1).length) _ hhead.rest
      (hroom.mono (Nat.zero_le _))
  have hboth := hhead.trans hkeyPassed
  have hbegin : self.beginVariant = .ok ⟨de, level self.depth, name, true, false⟩ := by
    rw [beginVariant, bind_of_eq_ok hmap]
    dsimp only
    rw [if_neg (by decide), if_pos rfl, if_neg (by simp), bind_of_eq_ok hdepth, bind_of_eq_ok hkey]
    rfl
  rw [← hboth.maxDepth] at hroom'
  obtain ⟨s, hpayload, hpassed⟩ := hread { de with depth := level self.depth }
    next hboth.rest hroom'
  refine ⟨note self (.variant true) 1 s, ?_, ?_⟩
  · have hvalue : (⟨de, level self.depth, name, true, false⟩ : CborVariantAccess).payload read =
        .ok (v, ⟨s, level self.depth, name, true, false⟩) :=
      bind_of_eq_ok hpayload
    rw [readVariant, bind_of_eq_ok hbegin]
    dsimp only
    rw [hcase]
    dsimp only
    rw [bind_of_eq_ok hvalue]
    rfl
  · have htrans := hboth.trans ⟨hpassed.rest, hpassed.pos, hpassed.maxDepth⟩
    exact ⟨htrans.rest, htrans.pos, htrans.maxDepth⟩

end Variants

end Wado.Cbor
