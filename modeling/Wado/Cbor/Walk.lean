/-
Readers that keep to items: a reading whose containers all fit their heads passes
over one item, and each of its containers agrees with the skipper.
-/
import Wado.Cbor.Boundary
import Wado.Cbor.ScalarRead

namespace Wado.Cbor

open ExceptSteps CborDeserializer List

/-- `s` comes of `self` by passing over bytes.  A container noted on the way fits its
head if it agrees with the skipper; and if all of them fit, then `P` holds of the
bytes and all of them agree. -/
def Walked (P : List UInt8 → Prop) (self s : CborDeserializer) : Prop :=
  ∃ bytes noted, self.rest = bytes ++ s.rest ∧ s.pos = self.pos + bytes.length ∧
    s.maxDepth = self.maxDepth ∧ s.reads = self.reads ++ noted ∧
    (∀ read ∈ noted, read.Agrees self.maxDepth → read.Counted self.maxDepth) ∧
    ((∀ read ∈ noted, read.Counted self.maxDepth) →
      P bytes ∧ ∀ read ∈ noted, read.Agrees self.maxDepth)

/-- A reader that passes over one item at its level. -/
def Tracks {α : Type} (read : Reader α) : Prop :=
  ∀ (self s : CborDeserializer) (v : α), read self = .ok (v, s) →
    Walked (Item self.maxDepth self.depth) self s

section Walked

variable {P Q : List UInt8 → Prop} {self s t : CborDeserializer}

theorem Walked.maxDepth (h : Walked P self s) : s.maxDepth = self.maxDepth := by
  obtain ⟨_, _, _, _, hmax, _⟩ := h
  exact hmax

theorem Walked.refl (h : P []) : Walked P self self := by
  refine ⟨[], [], rfl, rfl, rfl, (append_nil _).symm, by simp, ?_⟩
  intro _
  exact ⟨h, by simp⟩

/-- Passing over bytes without a container. -/
theorem Walked.after {bytes next : List UInt8} (hrest : self.rest = bytes ++ next) (h : P bytes) :
    Walked P self (self.after bytes.length) := by
  refine ⟨bytes, [], ?_, rfl, rfl, (append_nil _).symm, by simp, ?_⟩
  · rw [rest_after_append hrest, hrest]
  · intro _
    exact ⟨h, by simp⟩

theorem Walked.imp (h : Walked P self s) (himp : ∀ bytes, P bytes → Q bytes) : Walked Q self s := by
  obtain ⟨bytes, noted, hrest, hpos, hmax, hreads, hcounted, hitem⟩ := h
  refine ⟨bytes, noted, hrest, hpos, hmax, hreads, hcounted, ?_⟩
  intro hall
  obtain ⟨hP, hagrees⟩ := hitem hall
  exact ⟨himp bytes hP, hagrees⟩

theorem Walked.trans (h : Walked P self s) (h' : Walked Q s t) :
    Walked (fun bytes => ∃ xs ys, bytes = xs ++ ys ∧ P xs ∧ Q ys) self t := by
  obtain ⟨xs, noted, hrest, hpos, hmax, hreads, hcounted, hP⟩ := h
  obtain ⟨ys, noted', hrest', hpos', hmax', hreads', hcounted', hQ⟩ := h'
  rw [hmax] at hcounted' hQ
  refine ⟨xs ++ ys, noted ++ noted', ?_, ?_, hmax'.trans hmax, ?_, ?_, ?_⟩
  · rw [hrest, hrest', append_assoc]
  · rw [hpos', hpos, length_append, Nat.add_assoc]
  · rw [hreads', hreads, append_assoc]
  · exact forall_mem_append.mpr ⟨hcounted, hcounted'⟩
  · intro hall
    obtain ⟨hall, hall'⟩ := forall_mem_append.mp hall
    obtain ⟨hxs, hagrees⟩ := hP hall
    obtain ⟨hys, hagrees'⟩ := hQ hall'
    exact ⟨⟨xs, ys, rfl, hxs, hys⟩, forall_mem_append.mpr ⟨hagrees, hagrees'⟩⟩

/-- Noting a container at the end of a walk.  `P` holds of the walk if its containers
fit; then `Q` has to hold, and the noted container has to agree. -/
theorem Walked.note {kind : ContainerKind} {delivered : Nat} (h : Walked P self s)
    (hcounted : ContainerRead.Agrees self.maxDepth
        ⟨self.rest, self.pos, self.depth, kind, delivered, s.pos⟩ →
      ContainerRead.Counted self.maxDepth
        ⟨self.rest, self.pos, self.depth, kind, delivered, s.pos⟩)
    (hitem : ∀ bytes, self.rest = bytes ++ s.rest → P bytes → ContainerRead.Counted self.maxDepth
        ⟨self.rest, self.pos, self.depth, kind, delivered, s.pos⟩ →
      Item self.maxDepth self.depth bytes ∧
        (ContainerRead.start ⟨self.rest, self.pos, self.depth, kind, delivered, s.pos⟩
          self.maxDepth).declaredEntries self.depth = .ok delivered) :
    Walked (Item self.maxDepth self.depth) self (CborDeserializer.note self kind delivered s) := by
  obtain ⟨bytes, noted, hrest, hpos, hmax, hreads, hfits, hP⟩ := h
  refine ⟨bytes, noted ++ [⟨self.rest, self.pos, self.depth, kind, delivered, s.pos⟩], hrest, hpos,
    hmax, ?_, ?_, ?_⟩
  · rw [CborDeserializer.note, hreads, append_assoc]
  · exact forall_mem_append.mpr ⟨hfits, forall_mem_singleton.mpr hcounted⟩
  · intro hall
    obtain ⟨hall, hlast⟩ := forall_mem_append.mp hall
    obtain ⟨hwalk, hagrees⟩ := hP hall
    obtain ⟨hone, hdeclared⟩ := hitem bytes hrest hwalk (forall_mem_singleton.mp hlast)
    refine ⟨hone, forall_mem_append.mpr ⟨hagrees, forall_mem_singleton.mpr ?_⟩⟩
    constructor
    · exact hdeclared
    · let start := ContainerRead.start
        ⟨self.rest, self.pos, self.depth, kind, delivered, s.pos⟩ self.maxDepth
      have hskip : start.skipItem self.depth = .ok (start.after bytes.length) :=
        skipItem_eq_ok.mpr ⟨bytes, s.rest, hrest, hone, rfl⟩
      show (start.skipItem self.depth).map CborDeserializer.pos = .ok s.pos
      rw [hskip, hpos]
      rfl

end Walked

variable {self s : CborDeserializer}

section Scalars

theorem tracks_of_item {α : Type} {read : Reader α}
    (h : ∀ {self s : CborDeserializer} {v : α}, read self = .ok (v, s) →
      ∃ bytes next, self.rest = bytes ++ next ∧ Item self.maxDepth self.depth bytes ∧
        s = self.after bytes.length) : Tracks read := by
  intro self s v hread
  obtain ⟨bytes, next, hrest, hitem, rfl⟩ := h hread
  exact .after hrest hitem

theorem tracks_deserializeInt (t : IntTy) : Tracks (deserializeInt t) := by
  apply tracks_of_item
  intro self s v h
  obtain ⟨bytes, next, hrest, hbytes, rfl, _⟩ := deserializeInt_sound h
  exact ⟨bytes, next, hrest, hbytes.item _ _, rfl⟩

variable {passes : Nat → Bool} {maxDepth depth : Int}

/-- The bytes of a string under tags. -/
theorem item_of_string {head : Head} {tags body : List UInt8}
    {chunks : List (List UInt8)} {major : Nat}
    (htags : Untagged passes head tags) (hmajor : head.major = major)
    (hstring : major = majorBytes ∨ major = majorText)
    (hbody : StringBody major head.arg head.indef chunks body) :
    Item maxDepth depth (tags ++ body) := by
  subst hmajor
  apply Item.string (htags.all _) hstring hbody
  rcases hstring with h | h
  · rw [h]
    decide
  · rw [h]
    decide

theorem item_of_simple {head : Head} {tags : List UInt8}
    (htags : Untagged passes head tags) (hmajor : head.major = majorSimple)
    (hdefinite : head.indef = false) : Item maxDepth depth tags :=
  .simple (htags.all (by rw [hmajor]; decide)) hmajor hdefinite

theorem tracks_deserializeString : Tracks deserializeString := by
  apply tracks_of_item
  intro self s v h
  obtain ⟨head, tags, chunks, body, next, hrest, htags, hmajor, hbody, _, rfl⟩ :=
    deserializeString_eq_ok.mp h
  exact ⟨tags ++ body, next, hrest, item_of_string htags hmajor (.inr rfl) hbody, rfl⟩

theorem tracks_deserializeBytes : Tracks deserializeBytes := by
  apply tracks_of_item
  intro self s v h
  obtain ⟨head, tags, chunks, body, next, hrest, htags, hmajor, hbody, _, rfl⟩ :=
    deserializeBytes_eq_ok.mp h
  exact ⟨tags ++ body, next, hrest, item_of_string htags hmajor (.inl rfl) hbody, rfl⟩

theorem tracks_deserializeBool : Tracks deserializeBool := by
  apply tracks_of_item
  intro self s v h
  obtain ⟨head, tags, next, hrest, htags, hmajor, hdefinite, rfl⟩ := deserializeBool_sound h
  exact ⟨tags, next, hrest, item_of_simple htags hmajor hdefinite, rfl⟩

theorem tracks_readScalar {α : Type} {read : Reader α} (h : Tracks read) (value : α → Value) :
    Tracks (readScalar read value) := by
  intro self s v hread
  obtain ⟨⟨v', s'⟩, hread, hpure⟩ := bind_eq_ok.mp hread
  cases hpure
  exact h self s v' hread

/-- Passing over a null. -/
theorem walked_isNull (h : self.isNull = .ok (true, s)) :
    Walked (Item self.maxDepth self.depth) self s := by
  obtain ⟨head, tags, next, hrest, htags, hmajor, hdefinite, rfl⟩ := isNull_true h
  exact .after hrest (item_of_simple htags hmajor hdefinite)

theorem tracks_readUnit : Tracks readUnit := by
  intro self s v hread
  obtain ⟨⟨absent, s'⟩, hnull, h⟩ := bind_eq_ok.mp hread
  cases absent with
  | true =>
    cases h
    exact walked_isNull hnull
  | false => cases h

theorem tracks_readOption {read : Reader Value} (hread : Tracks read) :
    Tracks (readOption read) := by
  intro self s v h
  obtain ⟨⟨absent, s'⟩, hnull, h⟩ := bind_eq_ok.mp h
  cases absent with
  | true =>
    cases h
    exact walked_isNull hnull
  | false =>
    rw [isNull_false hnull] at h
    exact hread self s v h

end Scalars

section Steps

/-- What is left of an opened container after an entry. -/
def Opened.entered (opened : Opened) : Opened :=
  if opened.indef then opened else { opened with remaining := opened.remaining - 1 }

@[simp] theorem Opened.indef_entered (opened : Opened) : opened.entered.indef = opened.indef := by
  unfold entered
  split <;> rfl

@[simp] theorem Opened.depth_entered (opened : Opened) : opened.entered.depth = opened.depth := by
  unfold entered
  split <;> rfl

theorem Opened.remaining_entered {opened : Opened} (h : opened.indef = false) :
    opened.entered.remaining = opened.remaining - 1 := by
  rw [entered, if_neg (by rw [h]; exact Bool.false_ne_true)]

variable {remaining : Int} {indef : Bool}

/-- The end of a container: a break, or a count that has run out. -/
theorem containerStep_true (h : containerStep remaining indef self = .ok (true, s)) :
    Walked (· = closing indef) self s ∧ (indef = false → remaining ≤ 0) := by
  cases indef with
  | true =>
    obtain ⟨b, hpeek, h⟩ := bind_eq_ok.mp h
    obtain ⟨next, hrest⟩ := peekByte_eq_ok.mp hpeek
    split_ifs at h with hbreak
    · cases h
      rw [hbreak] at hrest
      exact ⟨@Walked.after _ _ [breakByte] _ hrest rfl, by simp⟩
    · cases h
  | false =>
    have h' : (decide (remaining ≤ 0), self) = (true, s) := Except.ok.inj h
    obtain ⟨hle, rfl⟩ := Prod.mk.inj h'
    exact ⟨.refl rfl, fun _ => of_decide_eq_true hle⟩

theorem containerStep_false (h : containerStep remaining indef self = .ok (false, s)) :
    s = self ∧ (indef = false → 0 < remaining) := by
  cases indef with
  | true =>
    obtain ⟨b, hpeek, h⟩ := bind_eq_ok.mp h
    split_ifs at h with hbreak
    · cases h
    · cases h
      exact ⟨rfl, by simp⟩
  | false =>
    have h' : (decide (remaining ≤ 0), self) = (false, s) := Except.ok.inj h
    obtain ⟨hle, rfl⟩ := Prod.mk.inj h'
    exact ⟨rfl, fun _ => Int.not_le.mp (of_decide_eq_false hle)⟩

variable {seq seq' : CborSeqAccess}

theorem atEnd_true (h : seq.atEnd = .ok (true, seq')) :
    seq'.done = true ∧ Walked (· = closing seq.opened.indef) seq.de seq'.de ∧
      (seq.opened.indef = false → seq.opened.remaining ≤ 0) := by
  obtain ⟨⟨ended, de⟩, hstep, h⟩ := bind_eq_ok.mp h
  dsimp only at h
  split_ifs at h with hended hindef
  · cases h
    rw [hended] at hstep
    exact ⟨rfl, containerStep_true hstep⟩
  · cases h
    exact absurd rfl hended
  · cases h
    exact absurd rfl hended

theorem atEnd_false (h : seq.atEnd = .ok (false, seq')) :
    seq' = { seq with opened := seq.opened.entered } ∧
      (seq.opened.indef = false → 0 < seq.opened.remaining) := by
  obtain ⟨⟨ended, de⟩, hstep, h⟩ := bind_eq_ok.mp h
  dsimp only at h
  split_ifs at h with hended hindef
  · cases h
    cases hended
  · cases h
    obtain ⟨rfl, hpos⟩ := containerStep_false hstep
    refine ⟨?_, hpos⟩
    rw [Opened.entered, if_pos hindef]
  · cases h
    obtain ⟨rfl, hpos⟩ := containerStep_false hstep
    refine ⟨?_, hpos⟩
    rw [Opened.entered, if_neg hindef]

variable {element : Reader Value}

theorem nextElement_none (h : seq.nextElement element = .ok (none, seq')) :
    seq'.done = true ∧ Walked (· = closing seq.opened.indef) seq.de seq'.de ∧
      (seq.opened.indef = false → seq.opened.remaining ≤ 0) := by
  obtain ⟨⟨ended, seq₁⟩, hend, h⟩ := bind_eq_ok.mp h
  cases ended with
  | true =>
    cases h
    exact atEnd_true hend
  | false =>
    obtain ⟨_, _, h⟩ := bind_eq_ok.mp h
    cases h

theorem nextElement_some (helement : Tracks element) {v : Value}
    (h : seq.nextElement element = .ok (some v, seq')) :
    seq'.opened = seq.opened.entered ∧ seq'.done = seq.done ∧
      Walked (Item seq.de.maxDepth seq.opened.depth) seq.de seq'.de ∧
      (seq.opened.indef = false → 0 < seq.opened.remaining) := by
  obtain ⟨⟨ended, seq₁⟩, hend, h⟩ := bind_eq_ok.mp h
  cases ended with
  | true => cases h
  | false =>
    obtain ⟨rfl, hpos⟩ := atEnd_false hend
    obtain ⟨⟨v', de⟩, hread, h⟩ := bind_eq_ok.mp h
    cases h
    have hwalk := helement _ _ _ hread
    rw [Opened.depth_entered] at hwalk
    exact ⟨rfl, rfl, hwalk, hpos⟩

variable {map map' : CborMapAccess}

theorem nextEntry_true (h : map.nextEntry = .ok (true, map')) :
    Walked (· = closing map.opened.indef) map.de map'.de ∧
      (map.opened.indef = false → map.opened.remaining ≤ 0) := by
  obtain ⟨⟨ended, de⟩, hstep, h⟩ := bind_eq_ok.mp h
  dsimp only at h
  split_ifs at h with hended hindef
  · cases h
    rw [hended] at hstep
    exact containerStep_true hstep
  · cases h
    exact absurd rfl hended
  · cases h
    exact absurd rfl hended

theorem nextEntry_false (h : map.nextEntry = .ok (false, map')) :
    map' = { map with opened := map.opened.entered } ∧
      (map.opened.indef = false → 0 < map.opened.remaining) := by
  obtain ⟨⟨ended, de⟩, hstep, h⟩ := bind_eq_ok.mp h
  dsimp only at h
  split_ifs at h with hended hindef
  · cases h
    cases hended
  · cases h
    obtain ⟨rfl, hpos⟩ := containerStep_false hstep
    refine ⟨?_, hpos⟩
    rw [Opened.entered, if_pos hindef]
  · cases h
    obtain ⟨rfl, hpos⟩ := containerStep_false hstep
    refine ⟨?_, hpos⟩
    rw [Opened.entered, if_neg hindef]

/-- A struct's key is a text string, in place or not. -/
theorem walked_entryKey {sd sd' : CborMapAccess} {key : List UInt8}
    (h : sd.entryKey = .ok (key, sd')) (depth : Int) :
    sd'.opened = sd.opened ∧ Walked (Item sd.de.maxDepth depth) sd.de sd'.de := by
  obtain ⟨b, hpeek, h⟩ := bind_eq_ok.mp h
  obtain ⟨next, hrest⟩ := peekByte_eq_ok.mp hpeek
  by_cases hfast : b.toNat >>> 5 = majorText ∧ b.toNat &&& 0x1f ≤ ai8Byte
  · rw [if_pos hfast] at h
    obtain ⟨⟨arg, de⟩, harg, h⟩ := bind_eq_ok.mp h
    dsimp only at h
    split_ifs at h with hlength
    cases h
    have hhead := readHead_of_definite hrest hfast.2
    rw [bind_of_eq_ok harg] at hhead
    obtain ⟨bytes, next', hrest', hbytes, rfl⟩ := readHead_eq_ok.mp hhead
    rw [rest_after_append hrest'] at hlength
    have htags : Untagged isPassthroughTag
        ⟨b.toNat >>> 5, b.toNat &&& 0x1f, arg, false⟩ bytes := by
      apply Untagged.head hbytes
      rintro ⟨htag, _⟩
      exact (by decide : ¬ majorText = majorTag) (hfast.1.symm.trans htag)
    have hlen' : (next'.take arg).length = arg := by
      rw [length_take]
      omega
    have hitem : Item sd.de.maxDepth depth (bytes ++ next'.take arg) :=
      item_of_string htags hfast.1 (.inr rfl) (.definite hlen')
    refine ⟨rfl, ?_⟩
    have hsplit : sd.de.rest = bytes ++ next'.take arg ++ next'.drop arg := by
      rw [hrest', append_assoc, take_append_drop]
    have hwalk := Walked.after hsplit hitem
    rw [length_append, hlen', ← after_after] at hwalk
    exact hwalk
  · rw [if_neg hfast] at h
    obtain ⟨⟨text, de⟩, hread, h⟩ := bind_eq_ok.mp h
    cases h
    refine ⟨rfl, ?_⟩
    obtain ⟨head, tags, chunks, body, next', hrest', htags, hmajor, hbody, _, rfl⟩ :=
      deserializeString_eq_ok.mp hread
    exact .after hrest' (item_of_string htags hmajor (.inr rfl) hbody)

end Steps

end Wado.Cbor
