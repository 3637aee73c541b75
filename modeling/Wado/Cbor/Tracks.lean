/-
The containers that a reader opens: a reading whose heads fit delivers what they
declare.
-/
import Wado.Cbor.Walk

namespace Wado.Cbor

open ExceptSteps CborDeserializer List

variable {element : Reader Value} {elements : List (Reader Value)} {de : CborDeserializer}
variable {key value : Reader Value} {fields : List FieldReader}

variable {read : Reader Value}

section Bodies

/-- The bytes of the entries of a container, `n` of them, and what follows. -/
def Body (maxDepth depth : Int) (major n : Nat) (tail bytes : List UInt8) : Prop :=
  ∃ parts : List (List UInt8), bytes = parts.flatten ++ tail ∧ parts.length = n ∧
    ∀ part ∈ parts, Entry maxDepth depth major part

theorem Body.nil {maxDepth depth : Int} {major : Nat} {tail : List UInt8} :
    Body maxDepth depth major 0 tail tail :=
  ⟨[], rfl, rfl, by simp⟩

theorem Body.cons {maxDepth depth : Int} {major n : Nat} {tail part bytes : List UInt8}
    (hpart : Entry maxDepth depth major part) (h : Body maxDepth depth major n tail bytes) :
    Body maxDepth depth major (n + 1) tail (part ++ bytes) := by
  obtain ⟨parts, rfl, rfl, hparts⟩ := h
  refine ⟨part :: parts, ?_, rfl, forall_mem_cons.mpr ⟨hpart, hparts⟩⟩
  rw [flatten_cons, append_assoc]

variable {seq seq' : CborSeqAccess}

variable {items : List Value}

/-- The loop over an array delivers what its head leaves to it. -/
theorem drainSeq_walked (helement : Tracks element) {fuel : Nat}
    (h : drainSeq element fuel seq = .ok (items, seq')) :
    seq'.done = true ∧ Walked (Body seq.de.maxDepth seq.opened.depth majorArray items.length
        (closing seq.opened.indef)) seq.de seq'.de ∧
      (seq.opened.indef = false → items.length = seq.opened.remaining.toNat) := by
  induction fuel generalizing items seq with
  | zero => cases h
  | succ fuel ih =>
    obtain ⟨⟨next, seq₁⟩, hnext, h⟩ := bind_eq_ok.mp h
    cases next with
    | none =>
      cases h
      obtain ⟨hdone, hwalk, hcount⟩ := nextElement_none hnext
      refine ⟨hdone, hwalk.imp ?_, ?_⟩
      · rintro _ rfl
        exact .nil
      · intro hindef
        have := hcount hindef
        rw [length_nil]
        omega
    | some v =>
      obtain ⟨⟨items', seq₂⟩, hdrain, h⟩ := bind_eq_ok.mp h
      cases h
      obtain ⟨hopened, _, hwalk, hpos⟩ := nextElement_some helement hnext
      obtain ⟨hdone, hwalk', hcount⟩ := ih hdrain
      rw [hopened, hwalk.maxDepth, Opened.depth_entered, Opened.indef_entered] at hwalk'
      refine ⟨hdone, (hwalk.trans hwalk').imp ?_, ?_⟩
      · rintro _ ⟨xs, ys, rfl, hxs, hys⟩
        exact hys.cons (entry_array.mpr hxs)
      · intro hindef
        rw [hopened, Opened.indef_entered, Opened.remaining_entered hindef] at hcount
        have hlength := hcount hindef
        have hpos' := hpos hindef
        rw [length_cons, hlength]
        omega

/-- The elements of a tuple are what the array has, or the first of it. -/
theorem readElements_walked (helements : ∀ element ∈ elements, Tracks element)
    (h : readElements elements seq = .ok (items, seq')) :
    seq'.done = seq.done ∧ seq'.opened.indef = seq.opened.indef ∧
      Walked (Body seq.de.maxDepth seq.opened.depth majorArray items.length []) seq.de seq'.de ∧
      (seq.opened.indef = false → seq'.opened.remaining = seq.opened.remaining - items.length ∧
        (items = [] ∨ 0 ≤ seq'.opened.remaining)) := by
  induction elements generalizing items seq with
  | nil =>
    cases h
    refine ⟨rfl, rfl, .refl .nil, ?_⟩
    intro _
    exact ⟨(Int.sub_zero _).symm, .inl rfl⟩
  | cons element elements ih =>
    obtain ⟨helement, helements'⟩ := forall_mem_cons.mp helements
    obtain ⟨⟨next, seq₁⟩, hnext, h⟩ := bind_eq_ok.mp h
    cases next with
    | none => cases h
    | some v =>
      obtain ⟨⟨items', seq₂⟩, hrest, h⟩ := bind_eq_ok.mp h
      cases h
      obtain ⟨hopened, hdone, hwalk, hpos⟩ := nextElement_some helement hnext
      obtain ⟨hdone', hindef', hwalk', hcount⟩ := ih helements' hrest
      rw [hopened, hwalk.maxDepth, Opened.depth_entered] at hwalk'
      rw [hopened, Opened.indef_entered] at hindef' hcount
      refine ⟨hdone'.trans hdone, hindef', (hwalk.trans hwalk').imp ?_, ?_⟩
      · rintro _ ⟨xs, ys, rfl, hxs, hys⟩
        exact hys.cons (entry_array.mpr hxs)
      · intro hindef
        obtain ⟨hremaining, hleft⟩ := hcount hindef
        rw [Opened.remaining_entered hindef] at hremaining
        have hpos' := hpos hindef
        rw [hremaining, length_cons]
        constructor
        · omega
        · right
          rcases hleft with rfl | hleft
          · rw [length_nil]
            omega
          · omega

/-- Closing an array that a tuple has read. -/
theorem close_walked {seq : CborSeqAccess} (hdone : seq.done = false) (h : seq.close = .ok de) :
    Walked (· = closing seq.opened.indef) seq.de de ∧
      (seq.opened.indef = false → seq.opened.remaining ≤ 0) := by
  rw [CborSeqAccess.close, if_neg (by rw [hdone]; exact Bool.false_ne_true)] at h
  cases hindef : seq.opened.indef with
  | true =>
    rw [if_pos hindef] at h
    obtain ⟨b, hpeek, h⟩ := bind_eq_ok.mp h
    obtain ⟨next, hrest⟩ := peekByte_eq_ok.mp hpeek
    split_ifs at h with hbreak
    cases h
    rw [not_not.mp hbreak] at hrest
    exact ⟨@Walked.after _ _ [breakByte] _ hrest rfl, by simp⟩
  | false =>
    rw [if_neg (by rw [hindef]; exact Bool.false_ne_true)] at h
    split_ifs at h with hleft
    cases h
    exact ⟨.refl rfl, fun _ => by omega⟩

/-- The loop over a map delivers what its head leaves to it. -/
theorem drainMap_walked (hkey : Tracks key) (hvalue : Tracks value)
    {fuel : Nat} {entries entries' : List (Value × Value)} {map map' : CborMapAccess}
    (h : drainMap key value fuel entries map = .ok (entries', map')) :
    ∃ n, entries'.length = entries.length + n ∧
      Walked (Body map.de.maxDepth map.opened.depth majorMap n (closing map.opened.indef))
        map.de map'.de ∧
      (map.opened.indef = false → n = map.opened.remaining.toNat) := by
  induction fuel generalizing entries map with
  | zero => cases h
  | succ fuel ih =>
    obtain ⟨⟨next, map₁⟩, hnext, h⟩ := bind_eq_ok.mp h
    obtain ⟨⟨ended, map₂⟩, hend, hnext⟩ := bind_eq_ok.mp hnext
    cases ended with
    | true =>
      cases hnext
      cases h
      obtain ⟨hwalk, hcount⟩ := nextEntry_true hend
      refine ⟨0, rfl, hwalk.imp ?_, ?_⟩
      · rintro _ rfl
        exact .nil
      · intro hindef
        have := hcount hindef
        omega
    | false =>
      obtain ⟨rfl, hpos⟩ := nextEntry_false hend
      obtain ⟨⟨k, de⟩, hreadKey, hnext⟩ := bind_eq_ok.mp hnext
      cases hnext
      obtain ⟨⟨v, map₃⟩, hnextValue, h⟩ := bind_eq_ok.mp h
      obtain ⟨⟨v', de'⟩, hreadValue, hpure⟩ := bind_eq_ok.mp hnextValue
      cases hpure
      obtain ⟨entries₁, hinsert, h⟩ := bind_eq_ok.mp h
      have hlength : entries₁.length = entries.length + 1 := by
        unfold insertDecoded at hinsert
        split_ifs at hinsert
        cases hinsert
        rw [length_append, length_singleton]
      have hwalkKey := hkey _ _ _ hreadKey
      have hwalkValue := hvalue _ _ _ hreadValue
      obtain ⟨n, hn, hwalk, hcount⟩ := ih h
      rw [Opened.depth_entered] at hwalkKey
      have hmax : de.maxDepth = map.de.maxDepth := hwalkKey.maxDepth
      have hmax' : de'.maxDepth = de.maxDepth := hwalkValue.maxDepth
      refine ⟨n + 1, ?_, (hwalkKey.trans (hwalkValue.trans hwalk)).imp ?_, ?_⟩
      · rw [hn, hlength]
        omega
      · rintro _ ⟨xs, _, rfl, hxs, ys, zs, rfl, hys, hzs⟩
        simp only [Opened.depth_entered, Opened.indef_entered, hmax', hmax] at hys hzs
        rw [← append_assoc]
        exact hzs.cons (entry_map.mpr ⟨xs, ys, rfl, hxs, hys⟩)
      · intro hindef
        have hn' := hcount (by rw [Opened.indef_entered, hindef])
        have hpos' := hpos hindef
        rw [Opened.remaining_entered hindef] at hn'
        omega

variable {sd sd' : CborMapAccess}

theorem walked_skip (h : sd.skip = .ok sd') :
    sd'.opened = sd.opened ∧ Walked (Item sd.de.maxDepth sd.opened.depth) sd.de sd'.de := by
  obtain ⟨de, hskip, h⟩ := bind_eq_ok.mp h
  cases h
  obtain ⟨bytes, next, hrest, hitem, rfl⟩ := skipItem_eq_ok.mp hskip
  exact ⟨rfl, .after hrest hitem⟩

theorem walked_nextValue (hread : Tracks read) {v : Value} (h : sd.nextValue read = .ok (v, sd')) :
    sd'.opened = sd.opened ∧ Walked (Item sd.de.maxDepth sd.opened.depth) sd.de sd'.de := by
  obtain ⟨⟨v', de⟩, hvalue, h⟩ := bind_eq_ok.mp h
  cases h
  exact ⟨rfl, hread _ _ _ hvalue⟩

/-- The loop of a struct takes an entry for each that the map's head leaves to it. -/
theorem drainStruct_walked
    (hfields : ∀ field ∈ fields, Tracks field.read) {fuel delivered delivered' : Nat}
    {slots slots' : List (Option Value)}
    (h : drainStruct fields fuel delivered slots sd = .ok (delivered', slots', sd')) :
    ∃ n, delivered' = delivered + n ∧
      Walked (Body sd.de.maxDepth sd.opened.depth majorMap n (closing sd.opened.indef))
        sd.de sd'.de ∧
      (sd.opened.indef = false → n = sd.opened.remaining.toNat) := by
  induction fuel generalizing delivered slots sd with
  | zero => cases h
  | succ fuel ih =>
    obtain ⟨⟨index, sd₁⟩, hfield, h⟩ := bind_eq_ok.mp h
    obtain ⟨⟨ended, sd₂⟩, hend, hfield⟩ := bind_eq_ok.mp hfield
    cases ended with
    | true =>
      cases hfield
      cases h
      obtain ⟨hwalk, hcount⟩ := nextEntry_true hend
      refine ⟨0, rfl, hwalk.imp ?_, ?_⟩
      · rintro _ rfl
        exact .nil
      · intro hindef
        have := hcount hindef
        omega
    | false =>
      obtain ⟨rfl, hpos⟩ := nextEntry_false hend
      obtain ⟨⟨key, sd₃⟩, hentry, hfield⟩ := bind_eq_ok.mp hfield
      cases hfield
      -- A field is read and any other entry skipped: both pass over one item.
      have hvalue : ∃ slots₁ sd₄, sd₄.opened = sd₁.opened ∧
          Walked (Item sd₁.de.maxDepth sd₁.opened.depth) sd₁.de sd₄.de ∧
          drainStruct fields fuel (delivered + 1) slots₁ sd₄ = .ok (delivered', slots', sd') := by
        dsimp only at h
        split at h
        · obtain ⟨sd₄, hskip, h⟩ := bind_eq_ok.mp h
          obtain ⟨hopened, hwalk⟩ := walked_skip hskip
          exact ⟨slots, sd₄, hopened, hwalk, h⟩
        · rename_i i field hindex
          split_ifs at h with hslot
          obtain ⟨⟨v, sd₄⟩, hread, h⟩ := bind_eq_ok.mp h
          obtain ⟨j, _, hmap⟩ := Option.bind_eq_some_iff.mp hindex
          obtain ⟨field', hget, hpair⟩ := Option.map_eq_some_iff.mp hmap
          cases hpair
          obtain ⟨hopened, hwalk⟩ :=
            walked_nextValue (hfields _ (mem_of_getElem? hget)) hread
          exact ⟨_, sd₄, hopened, hwalk, h⟩
      obtain ⟨slots₁, sd₄, hopened, hwalkValue, h⟩ := hvalue
      obtain ⟨hopened', hwalkKey⟩ := walked_entryKey hentry sd.opened.depth
      obtain ⟨n, hn, hwalk, hcount⟩ := ih h
      have hmax : sd₁.de.maxDepth = sd.de.maxDepth := hwalkKey.maxDepth
      rw [hopened, hopened', hwalkValue.maxDepth, hmax] at hwalk
      rw [hopened', hmax] at hwalkValue
      rw [hopened, hopened'] at hcount
      refine ⟨n + 1, ?_, (hwalkKey.trans (hwalkValue.trans hwalk)).imp ?_, ?_⟩
      · rw [hn]
        omega
      · rintro _ ⟨xs, _, rfl, hxs, ys, zs, rfl, hys, hzs⟩
        simp only [Opened.depth_entered, Opened.indef_entered] at hys hzs
        rw [← append_assoc]
        exact hzs.cons (entry_map.mpr ⟨xs, ys, rfl, hxs, hys⟩)
      · intro hindef
        have hn' := hcount (by rw [Opened.indef_entered, hindef])
        have hpos' := hpos hindef
        rw [Opened.remaining_entered hindef] at hn'
        omega

end Bodies

section Containers

variable {self de : CborDeserializer}

variable {opened : Opened}

theorem beginContainer_sound {wantMajor : Nat}
    (h : self.beginContainer wantMajor = .ok (opened, de)) :
    ∃ head tags next, self.rest = tags ++ next ∧ Untagged (· = tagSelfDescribed) head tags ∧
      head.major = wantMajor ∧ level self.depth ≤ self.maxDepth ∧
      opened = ⟨if head.indef then -1 else asI64 head.arg, head.indef, level self.depth⟩ ∧
      de = self.after tags.length := by
  obtain ⟨⟨head, s⟩, hread, h⟩ := bind_eq_ok.mp h
  obtain ⟨tags, next, hrest, htags, rfl⟩ := readUntagged_eq_ok.mp hread
  dsimp only at h
  by_cases hmajor : head.major = wantMajor
  · rw [if_neg (not_not.mpr hmajor)] at h
    obtain ⟨depth, hdepth, h⟩ := bind_eq_ok.mp h
    obtain ⟨rfl, hlevel⟩ := deeper_eq_ok.mp hdepth
    cases h
    exact ⟨head, tags, next, hrest, htags, hmajor, hlevel, rfl, rfl⟩
  · rw [if_pos hmajor] at h
    cases h

variable {head : Head}

theorem counted_iff {maxDepth : Int} {read : ContainerRead} {s : CborDeserializer}
    (h : (read.start maxDepth).readUntagged (fun _ => true) = .ok (head, s)) :
    read.Counted maxDepth ↔ ContainerRead.fits read.kind head = true := by
  rw [ContainerRead.Counted, h]
  constructor
  · intro hok
    exact Except.ok.inj hok
  · intro hfits
    exact congrArg Except.ok hfits

theorem declaredEntries_definite {depth : Int} {self s : CborDeserializer}
    (h : self.readUntagged (fun _ => true) = .ok (head, s))
    (hmajor : head.major = majorArray ∨ head.major = majorMap) (hdefinite : head.indef = false) :
    self.declaredEntries depth = .ok head.arg := by
  have hno : ¬ (head.major ≠ majorArray ∧ head.major ≠ majorMap) := by
    rintro ⟨harray, hmap⟩
    exact hmajor.elim harray hmap
  rw [declaredEntries, bind_of_eq_ok h]
  dsimp only
  rw [if_neg hno, if_neg (by rw [hdefinite]; exact Bool.false_ne_true)]
  rfl

/-- A container that is read to its end, `n` of its entries being delivered. -/
theorem walked_container {wantMajor n : Nat} {self de s : CborDeserializer}
    (hmajor : wantMajor = majorArray ∨ wantMajor = majorMap)
    (hbegin : self.beginContainer wantMajor = .ok (opened, de))
    (hbody : Walked (Body de.maxDepth opened.depth wantMajor n (closing opened.indef)) de s)
    (hcount : opened.indef = false → n = opened.remaining.toNat) :
    Walked (Item self.maxDepth self.depth) self (note self .elements n s) := by
  obtain ⟨head, tags, next, hrest, htags, rfl, hlevel, rfl, rfl⟩ := beginContainer_sound hbegin
  have hall := htags.all (by rcases hmajor with h | h <;> rw [h] <;> decide)
  let read : ContainerRead := ⟨self.rest, self.pos, self.depth, .elements, n, s.pos⟩
  let start := read.start self.maxDepth
  have hread : start.readUntagged (fun _ => true) = .ok (head, start.after tags.length) :=
    readUntagged_eq_ok.mpr ⟨tags, next, hrest, hall, rfl⟩
  have htag : Walked (· = tags) self (self.after tags.length) := .after hrest rfl
  apply (htag.trans hbody).note
  · rintro ⟨hdeclared, _⟩
    apply (counted_iff hread).mpr
    cases hindef : head.indef with
    | true => simp [ContainerRead.fits, read, hindef]
    | false =>
      rw [declaredEntries_definite hread hmajor hindef] at hdeclared
      have hn := hcount hindef
      have harg : head.arg = n := Except.ok.inj hdeclared
      have hlt : head.arg < 2 ^ 63 := by
        by_contra hbig
        rw [← harg] at hn
        simp only [hindef, Bool.false_eq_true, if_false, asI64, if_neg hbig] at hn
        have := hall.arg_lt
        omega
      simp only [ContainerRead.fits, read, hindef, Bool.false_or]
      exact decide_eq_true hlt
  · rintro _ hbytes ⟨_, _, rfl, rfl, parts, rfl, hparts, hentries⟩ hcounted
    have hfits := (counted_iff hread).mp hcounted
    have hlength : head.indef = false → parts.length = head.arg := by
      intro hindef
      have hn := hcount hindef
      simp only [ContainerRead.fits, read, hindef, Bool.false_or, decide_eq_true_eq] at hfits
      simp only [hindef, Bool.false_eq_true, if_false, asI64, if_pos hfits] at hn
      omega
    refine ⟨Item.container hall hmajor hlevel hlength hentries, ?_⟩
    rw [← hparts]
    exact declaredEntries_container hbytes hall hmajor hlength hentries

theorem tracks_readList (helement : Tracks element) :
    Tracks (readList element) := by
  intro self s v h
  obtain ⟨seq, hbegin, h⟩ := bind_eq_ok.mp h
  obtain ⟨⟨items, seq'⟩, hdrain, h⟩ := bind_eq_ok.mp h
  obtain ⟨de, hclose, h⟩ := bind_eq_ok.mp h
  cases h
  obtain ⟨⟨opened, de₀⟩, hopen, hpure⟩ := bind_eq_ok.mp hbegin
  cases hpure
  obtain ⟨hdone, hwalk, hcount⟩ := drainSeq_walked helement hdrain
  have hclosed : de = seq'.de := by
    rw [CborSeqAccess.close, if_pos hdone] at hclose
    exact (Except.ok.inj hclose).symm
  rw [hclosed]
  exact walked_container (.inl rfl) hopen hwalk hcount

theorem tracks_readTuple
    (helements : ∀ element ∈ elements, Tracks element) : Tracks (readTuple elements) := by
  intro self s v h
  obtain ⟨seq, hbegin, h⟩ := bind_eq_ok.mp h
  obtain ⟨⟨items, seq'⟩, hread, h⟩ := bind_eq_ok.mp h
  obtain ⟨de, hclose, h⟩ := bind_eq_ok.mp h
  cases h
  obtain ⟨⟨opened, de₀⟩, hopen, hpure⟩ := bind_eq_ok.mp hbegin
  cases hpure
  obtain ⟨hdone, hindef, hwalk, hcount⟩ := readElements_walked helements hread
  obtain ⟨hwalkClose, hend⟩ := close_walked hdone hclose
  rw [hindef] at hwalkClose hend
  apply walked_container (.inl rfl) hopen ((hwalk.trans hwalkClose).imp _)
  · intro hdefinite
    obtain ⟨hremaining, hleft⟩ := hcount hdefinite
    have hle := hend hdefinite
    dsimp only at hremaining ⊢
    rcases hleft with rfl | hleft
    · rw [length_nil] at hremaining ⊢
      omega
    · omega
  · rintro _ ⟨_, _, rfl, ⟨parts, rfl, hlength, hparts⟩, rfl⟩
    refine ⟨parts, ?_, hlength, hparts⟩
    rw [append_nil]

theorem tracks_readMap (hkey : Tracks key) (hvalue : Tracks value) :
    Tracks (readMap key value) := by
  intro self s v h
  obtain ⟨map, hbegin, h⟩ := bind_eq_ok.mp h
  obtain ⟨⟨entries, map'⟩, hdrain, h⟩ := bind_eq_ok.mp h
  cases h
  obtain ⟨⟨opened, de₀⟩, hopen, hpure⟩ := bind_eq_ok.mp hbegin
  cases hpure
  obtain ⟨n, hn, hwalk, hcount⟩ := drainMap_walked hkey hvalue hdrain
  rw [length_nil, Nat.zero_add] at hn
  rw [hn]
  exact walked_container (.inr rfl) hopen hwalk hcount

theorem tracks_readStruct
    (hfields : ∀ field ∈ fields, Tracks field.read) : Tracks (readStruct fields) := by
  intro self s v h
  obtain ⟨sd, hbegin, h⟩ := bind_eq_ok.mp h
  obtain ⟨⟨delivered, slots, sd'⟩, hdrain, h⟩ := bind_eq_ok.mp h
  obtain ⟨values, hslots, h⟩ := bind_eq_ok.mp h
  cases h
  obtain ⟨⟨opened, de₀⟩, hopen, hpure⟩ := bind_eq_ok.mp hbegin
  cases hpure
  obtain ⟨n, hn, hwalk, hcount⟩ := drainStruct_walked hfields hdrain
  rw [Nat.zero_add] at hn
  rw [hn]
  exact walked_container (.inr rfl) hopen hwalk hcount

/-- A variant that has been opened at `self`: by the text of its name, or by a map whose
key is its name. -/
inductive Begun (self : CborDeserializer) (va : CborVariantAccess) : Prop where
  | text {head : Head} {tags body next : List UInt8} {chunks : List (List UInt8)}
      (hrest : self.rest = tags ++ body ++ next) (htags : Untagged (fun _ => true) head tags)
      (hmajor : head.major = majorText)
      (hbody : StringBody majorText head.arg head.indef chunks body) (hmap : va.isMap = false)
      (hde : va.de = self.after (tags ++ body).length)
  | map {head : Head} {tags key next : List UInt8}
      (hrest : self.rest = tags ++ key ++ next) (htags : Untagged (fun _ => true) head tags)
      (hmajor : head.major = majorMap) (hpair : head.indef = false → head.arg = 1)
      (hlevel : level self.depth ≤ self.maxDepth)
      (hkey : Item self.maxDepth (level self.depth) key) (hmap : va.isMap = true)
      (hindef : va.indef = head.indef) (hdepth : va.depth = level self.depth)
      (hde : va.de = self.after (tags ++ key).length)

variable {va : CborVariantAccess} {self : CborDeserializer}

theorem beginVariant_sound (h : self.beginVariant = .ok va) : Begun self va := by
  obtain ⟨⟨head, s⟩, hread, h⟩ := bind_eq_ok.mp h
  obtain ⟨tags, next, hrest, htags, rfl⟩ := readUntagged_eq_ok.mp hread
  dsimp only at h
  by_cases htext : head.major = majorText
  · rw [if_pos htext] at h
    obtain ⟨⟨name, s⟩, hname, h⟩ := bind_eq_ok.mp h
    obtain ⟨chunks, body, next', hrest', hbody, _, rfl⟩ := readTextBody_eq_ok.mp hname
    rw [rest_after_append hrest] at hrest'
    rw [hrest', ← append_assoc] at hrest
    cases h
    refine .text hrest (htags.all (by rw [htext]; decide)) htext hbody rfl ?_
    rw [after_after, length_append]
  · rw [if_neg htext] at h
    by_cases hmap : head.major = majorMap
    · rw [if_pos hmap] at h
      by_cases hpair : ¬ head.indef ∧ head.arg ≠ 1
      · rw [if_pos hpair] at h
        cases h
      · rw [if_neg hpair] at h
        obtain ⟨depth, hdepth, h⟩ := bind_eq_ok.mp h
        obtain ⟨rfl, hlevel⟩ := deeper_eq_ok.mp hdepth
        obtain ⟨⟨key, s⟩, hkey, h⟩ := bind_eq_ok.mp h
        obtain ⟨keyHead, keyTags, chunks, body, next', hrest', hkeyTags, hmajor, hbody, _, rfl⟩ :=
          deserializeString_eq_ok.mp hkey
        rw [rest_after_append hrest] at hrest'
        rw [hrest', ← append_assoc] at hrest
        cases h
        refine .map hrest (htags.all (by rw [hmap]; decide)) hmap ?_ hlevel
          (item_of_string hkeyTags hmajor (.inr rfl) hbody) rfl rfl rfl ?_
        · intro hdefinite
          by_contra hne
          exact hpair ⟨by rw [hdefinite]; exact Bool.false_ne_true, hne⟩
        · rw [after_after, ← length_append]
    · rw [if_neg hmap] at h
      cases h

theorem closeVariant_walked
    (h : va.close = .ok de) : Walked (· = closing (va.isMap && va.indef)) va.de de := by
  unfold CborVariantAccess.close at h
  by_cases hindef : va.isMap ∧ va.indef
  · rw [if_pos hindef] at h
    obtain ⟨b, hpeek, h⟩ := bind_eq_ok.mp h
    obtain ⟨next, hrest⟩ := peekByte_eq_ok.mp hpeek
    split_ifs at h with hbreak
    cases h
    rw [not_not.mp hbreak] at hrest
    rw [hindef.1, hindef.2]
    exact @Walked.after _ _ [breakByte] _ hrest rfl
  · rw [if_neg hindef] at h
    cases h
    have hclosing : closing (va.isMap && va.indef) = [] := by
      rw [closing, if_neg]
      simpa using hindef
    rw [hclosing]
    exact .refl rfl

theorem declaredEntries_text {depth : Int} {head : Head} {self s : CborDeserializer}
    (h : self.readUntagged (fun _ => true) = .ok (head, s)) (hmajor : head.major = majorText) :
    self.declaredEntries depth = .ok 0 := by
  rw [declaredEntries, bind_of_eq_ok h]
  dsimp only
  rw [if_pos (by rw [hmajor]; decide)]
  rfl

/-- A map of no pairs has nothing before its break. -/
theorem declaredEntries_map_ne_zero {depth : Int} {tags key next : List UInt8}
    (hrest : self.rest = tags ++ key ++ next)
    (htags : Untagged (fun _ => true) head tags) (hmajor : head.major = majorMap)
    (hpair : head.indef = false → head.arg = 1) (hkey : StartsItem key) :
    self.declaredEntries depth ≠ .ok 0 := by
  rw [append_assoc] at hrest
  have hread := readUntagged_eq_ok.mpr ⟨tags, _, hrest, htags, rfl⟩
  intro hzero
  cases hindef : head.indef with
  | false =>
    rw [declaredEntries_definite hread (.inr hmajor) hindef, hpair hindef] at hzero
    cases hzero
  | true =>
    obtain ⟨b, tail, rfl, hb⟩ := hkey
    rw [declaredEntries, bind_of_eq_ok hread] at hzero
    dsimp only at hzero
    rw [if_neg (by rw [hmajor]; decide), if_pos hindef, countUntilBreak,
      bind_of_eq_ok (peekByte_of_rest (rest_after_append hrest)), if_neg hb] at hzero
    obtain ⟨_, _, hzero⟩ := bind_eq_ok.mp hzero
    obtain ⟨n, _, hzero⟩ := bind_eq_ok.mp hzero
    cases hzero

/-- Where the reading of a variant starts, and what it is noted as. -/
theorem read_of_rest {tags next : List UInt8}
    (hrest : self.rest = tags ++ next) (htags : Untagged (fun _ => true) head tags)
    (kind : ContainerKind) (delivered stop : Nat) :
    (ContainerRead.start ⟨self.rest, self.pos, self.depth, kind, delivered, stop⟩
        self.maxDepth).readUntagged (fun _ => true) =
      .ok (head, (ContainerRead.start ⟨self.rest, self.pos, self.depth, kind, delivered, stop⟩
        self.maxDepth).after tags.length) :=
  readUntagged_eq_ok.mpr ⟨tags, next, hrest, htags, rfl⟩

/-- A unit case: its name alone, unless the variant is given as a map. -/
theorem walked_unit (hbegun : Begun self va) (hclose : va.close = .ok de) :
    Walked (Item self.maxDepth self.depth) self (note self (.variant false) 0 de) := by
  have hwalkClose := closeVariant_walked hclose
  cases hbegun with
  | text hrest htags hmajor hbody hmap hde =>
    rename_i head tags body next chunks
    have hread := read_of_rest (hrest.trans (append_assoc _ _ _)) htags
      (.variant false) 0 de.pos
    have hname : Walked (· = tags ++ body) self va.de := by
      rw [hde]
      exact .after hrest rfl
    rw [hmap] at hwalkClose
    apply (hname.trans hwalkClose).note
    · intro _
      rw [counted_iff hread]
      simp [ContainerRead.fits, hmajor, majorText, majorMap]
    · rintro _ _ ⟨_, _, rfl, rfl, rfl⟩ _
      refine ⟨?_, declaredEntries_text hread hmajor⟩
      rw [closing, Bool.false_and, if_neg Bool.false_ne_true, append_nil]
      exact item_of_string htags hmajor (.inr rfl) hbody
  | map hrest htags hmajor hpair hlevel hkey hmap hindef hdepth hde =>
    rename_i head tags key next
    have hread := read_of_rest (hrest.trans (append_assoc _ _ _)) htags
      (.variant false) 0 de.pos
    have hkeyed : Walked (· = tags ++ key) self va.de := by
      rw [hde]
      exact .after hrest rfl
    apply (hkeyed.trans hwalkClose).note
    · rintro ⟨hdeclared, _⟩
      exact absurd hdeclared
        (declaredEntries_map_ne_zero hrest htags hmajor hpair hkey.startsItem)
    · intro _ _ _ hcounted
      rw [counted_iff hread] at hcounted
      simp [ContainerRead.fits, hmajor] at hcounted

/-- A case with a payload: the one pair of a map, unless the variant is given by its name
alone. -/
theorem walked_payload {va va' : CborVariantAccess}
    {v : Value} (htracks : Tracks read) (hbegun : Begun self va)
    (hpayload : va.payload read = .ok (v, va')) (hclose : va'.close = .ok de) :
    Walked (Item self.maxDepth self.depth) self (note self (.variant true) 1 de) := by
  have hwalkClose := closeVariant_walked hclose
  obtain ⟨⟨v', s⟩, hvalue, hpure⟩ := bind_eq_ok.mp hpayload
  cases hpure
  have hwalk := htracks _ _ _ hvalue
  cases hbegun with
  | text hrest htags hmajor hbody hmap hde =>
    rename_i head tags body next chunks
    have hread := read_of_rest (hrest.trans (append_assoc _ _ _)) htags
      (.variant true) 1 de.pos
    have hname : Walked (· = tags ++ body) self va.de := by
      rw [hde]
      exact .after hrest rfl
    apply (hname.trans (hwalk.trans hwalkClose)).note
    · rintro ⟨hdeclared, _⟩
      have hzero := @declaredEntries_text self.depth _ _ _ hread hmajor
      rw [hzero] at hdeclared
      cases hdeclared
    · intro _ _ _ hcounted
      rw [counted_iff hread] at hcounted
      simp [ContainerRead.fits, hmajor, majorText, majorMap] at hcounted
  | map hrest htags hmajor hpair hlevel hkey hmap hindef hdepth hde =>
    rename_i head tags key next
    have hread := read_of_rest (hrest.trans (append_assoc _ _ _)) htags
      (.variant true) 1 de.pos
    have hkeyed : Walked (· = tags ++ key) self va.de := by
      rw [hde]
      exact .after hrest rfl
    have hmax : va.de.maxDepth = self.maxDepth := hkeyed.maxDepth
    apply (hkeyed.trans (hwalk.trans hwalkClose)).note
    · intro _
      rw [counted_iff hread]
      simp [ContainerRead.fits, hmajor]
    · rintro _ hbytes ⟨_, _, rfl, rfl, value, _, rfl, hitem, rfl⟩ _
      rw [hdepth, hmax] at hitem
      rw [hmap, hindef, Bool.true_and] at hbytes ⊢
      have hparts : ∀ part ∈ [key ++ value],
          Entry self.maxDepth (level self.depth) head.major part := by
        intro part hpart
        rw [mem_singleton.mp hpart, hmajor]
        exact entry_map.mpr ⟨key, value, rfl, hkey, hitem⟩
      have hcount : head.indef = false → [key ++ value].length = head.arg :=
        fun hdefinite => (hpair hdefinite).symm
      have hsplit : tags ++ key ++ (value ++ closing head.indef) =
          tags ++ ([key ++ value].flatten ++ closing head.indef) := by
        simp
      rw [hsplit] at hbytes ⊢
      refine ⟨.container htags (.inr hmajor) hlevel hcount hparts, ?_⟩
      show _ = Except.ok [key ++ value].length
      exact declaredEntries_container hbytes htags (.inr hmajor) hcount hparts

theorem tracks_readVariant {cases : List (String × Option (Reader Value))}
    (hcases : ∀ case ∈ cases, ∀ read ∈ case.2, Tracks read) : Tracks (readVariant cases) := by
  intro self s v h
  obtain ⟨va, hbegin, h⟩ := bind_eq_ok.mp h
  have hbegun := beginVariant_sound hbegin
  cases hfind : cases.find? fun case => case.1 = va.variant with
  | none =>
    rw [hfind] at h
    cases h
  | some case =>
    obtain ⟨name, payload⟩ := case
    rw [hfind] at h
    cases payload with
    | none =>
      obtain ⟨de, hclose, h⟩ := bind_eq_ok.mp h
      cases h
      exact walked_unit hbegun hclose
    | some read =>
      have htracks : Tracks read := hcases _ (mem_of_find?_eq_some hfind) _ rfl
      obtain ⟨⟨v, va'⟩, hpayload, h⟩ := bind_eq_ok.mp h
      obtain ⟨de, hclose, h⟩ := bind_eq_ok.mp h
      cases h
      exact walked_payload htracks hbegun hpayload hclose

end Containers

end Wado.Cbor
