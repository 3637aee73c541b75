/-
Well-formed items as RFC 8949 has them, and the items with a reserved simple
value that the skipper takes besides.
-/
import Wado.Cbor.ItemSkip

namespace Wado.Cbor

open ExceptSteps CborDeserializer List

/-- The well-formed data items that nest to `maxDepth` at most.  A simple value in
a byte of its own is 32 or more. -/
inductive WellFormed (maxDepth : Int) : Int → List UInt8 → Prop where
  | int {depth : Int} {head : Head} {bytes : List UInt8} (hbytes : HeadBytes head bytes)
      (hmajor : head.major = majorUint ∨ head.major = majorNint) : WellFormed maxDepth depth bytes
  | string {depth : Int} {head : Head} {bytes body : List UInt8} {chunks : List (List UInt8)}
      (hbytes : HeadBytes head bytes) (hmajor : head.major = majorBytes ∨ head.major = majorText)
      (hbody : StringBody head.major head.arg head.indef chunks body) :
      WellFormed maxDepth depth (bytes ++ body)
  | array {depth : Int} {head : Head} {bytes : List UInt8} {elems : List (List UInt8)}
      (hbytes : HeadBytes head bytes) (hmajor : head.major = majorArray)
      (hlevel : level depth ≤ maxDepth) (hcount : head.indef = false → elems.length = head.arg)
      (helems : ∀ elem ∈ elems, WellFormed maxDepth (level depth) elem) :
      WellFormed maxDepth depth (bytes ++ (elems.flatten ++ closing head.indef))
  | map {depth : Int} {head : Head} {bytes : List UInt8}
      {entries : List (List UInt8 × List UInt8)} (hbytes : HeadBytes head bytes)
      (hmajor : head.major = majorMap) (hlevel : level depth ≤ maxDepth)
      (hcount : head.indef = false → entries.length = head.arg)
      (hkeys : ∀ entry ∈ entries, WellFormed maxDepth (level depth) entry.1)
      (hvalues : ∀ entry ∈ entries, WellFormed maxDepth (level depth) entry.2) :
      WellFormed maxDepth depth
        (bytes ++ ((entries.flatMap fun entry => entry.1 ++ entry.2) ++ closing head.indef))
  | tag {depth : Int} {head : Head} {bytes item : List UInt8} (hbytes : HeadBytes head bytes)
      (hmajor : head.major = majorTag) (hitem : WellFormed maxDepth depth item) :
      WellFormed maxDepth depth (bytes ++ item)
  | simple {depth : Int} {head : Head} {bytes : List UInt8} (hbytes : HeadBytes head bytes)
      (hmajor : head.major = majorSimple) (hdefinite : head.indef = false)
      (hvalue : head.ai = ai1Byte → 32 ≤ head.arg) : WellFormed maxDepth depth bytes

/-- The items with a simple value below 32 in a byte of its own somewhere. -/
inductive Reserved (maxDepth : Int) : Int → List UInt8 → Prop where
  | simple {depth : Int} {head : Head} {bytes : List UInt8} (hbytes : HeadBytes head bytes)
      (hmajor : head.major = majorSimple) (hai : head.ai = ai1Byte) (hvalue : head.arg < 32) :
      Reserved maxDepth depth bytes
  | tag {depth : Int} {head : Head} {bytes item : List UInt8} (hbytes : HeadBytes head bytes)
      (hmajor : head.major = majorTag) (hitem : Reserved maxDepth depth item) :
      Reserved maxDepth depth (bytes ++ item)
  | array {depth : Int} {head : Head} {bytes elem : List UInt8} {elems : List (List UInt8)}
      (hbytes : HeadBytes head bytes) (hmajor : head.major = majorArray)
      (hlevel : level depth ≤ maxDepth) (hcount : head.indef = false → elems.length = head.arg)
      (helems : ∀ elem ∈ elems, Item maxDepth (level depth) elem) (hmem : elem ∈ elems)
      (helem : Reserved maxDepth (level depth) elem) :
      Reserved maxDepth depth (bytes ++ (elems.flatten ++ closing head.indef))
  | key {depth : Int} {head : Head} {bytes : List UInt8} {entry : List UInt8 × List UInt8}
      {entries : List (List UInt8 × List UInt8)} (hbytes : HeadBytes head bytes)
      (hmajor : head.major = majorMap) (hlevel : level depth ≤ maxDepth)
      (hcount : head.indef = false → entries.length = head.arg)
      (hkeys : ∀ entry ∈ entries, Item maxDepth (level depth) entry.1)
      (hvalues : ∀ entry ∈ entries, Item maxDepth (level depth) entry.2) (hmem : entry ∈ entries)
      (hkey : Reserved maxDepth (level depth) entry.1) :
      Reserved maxDepth depth
        (bytes ++ ((entries.flatMap fun entry => entry.1 ++ entry.2) ++ closing head.indef))
  | value {depth : Int} {head : Head} {bytes : List UInt8} {entry : List UInt8 × List UInt8}
      {entries : List (List UInt8 × List UInt8)} (hbytes : HeadBytes head bytes)
      (hmajor : head.major = majorMap) (hlevel : level depth ≤ maxDepth)
      (hcount : head.indef = false → entries.length = head.arg)
      (hkeys : ∀ entry ∈ entries, Item maxDepth (level depth) entry.1)
      (hvalues : ∀ entry ∈ entries, Item maxDepth (level depth) entry.2) (hmem : entry ∈ entries)
      (hvalue : Reserved maxDepth (level depth) entry.2) :
      Reserved maxDepth depth
        (bytes ++ ((entries.flatMap fun entry => entry.1 ++ entry.2) ++ closing head.indef))

/-! ## Items are well-formed or have a reserved simple value -/

variable {maxDepth depth : Int}

variable {head : Head} {bytes : List UInt8}

theorem HeadBytes.untagged (h : HeadBytes head bytes)
    (hmajor : head.major ≠ majorTag) : Untagged (fun _ => true) head bytes :=
  .head h fun htag => hmajor htag.1

/-- An item under a tag is an item. -/
theorem Item.tagged {bytes item : List UInt8} (hbytes : HeadBytes head bytes)
    (hmajor : head.major = majorTag) (hitem : Item maxDepth depth item) :
    Item maxDepth depth (bytes ++ item) := by
  cases hitem with
  | int htags hkind => exact .int (.tag hbytes hmajor rfl htags) hkind
  | simple htags hkind hdefinite => exact .simple (.tag hbytes hmajor rfl htags) hkind hdefinite
  | string htags hkind hbody =>
    rw [← append_assoc]
    exact .string (.tag hbytes hmajor rfl htags) hkind hbody
  | array htags hkind hlevel hcount helems =>
    rw [← append_assoc]
    exact .array (.tag hbytes hmajor rfl htags) hkind hlevel hcount helems
  | map htags hkind hlevel hcount hkeys hvalues =>
    rw [← append_assoc]
    exact .map (.tag hbytes hmajor rfl htags) hkind hlevel hcount hkeys hvalues

theorem WellFormed.item (h : WellFormed maxDepth depth bytes) :
    Item maxDepth depth bytes := by
  induction h with
  | int hbytes hmajor =>
    refine .int (hbytes.untagged ?_) hmajor
    rcases hmajor with hmajor | hmajor <;> rw [hmajor] <;> decide
  | string hbytes hmajor hbody =>
    refine .string (hbytes.untagged ?_) hmajor hbody
    rcases hmajor with hmajor | hmajor <;> rw [hmajor] <;> decide
  | array hbytes hmajor hlevel hcount helems ih =>
    exact .array (hbytes.untagged (by rw [hmajor]; decide)) hmajor hlevel hcount ih
  | map hbytes hmajor hlevel hcount hkeys hvalues ihKeys ihValues =>
    exact .map (hbytes.untagged (by rw [hmajor]; decide)) hmajor hlevel hcount ihKeys ihValues
  | tag hbytes hmajor hitem ih => exact ih.tagged hbytes hmajor
  | simple hbytes hmajor hdefinite hvalue =>
    exact .simple (hbytes.untagged (by rw [hmajor]; decide)) hmajor hdefinite

theorem HeadBytes.definite_of_ai (h : HeadBytes head bytes)
    (hai : head.ai = ai1Byte) : head.indef = false := by
  cases h with
  | inline => rfl
  | sized => rfl
  | indefinite => cases hai

theorem Reserved.item (h : Reserved maxDepth depth bytes) :
    Item maxDepth depth bytes := by
  induction h with
  | simple hbytes hmajor hai hvalue =>
    exact .simple (hbytes.untagged (by rw [hmajor]; decide)) hmajor (hbytes.definite_of_ai hai)
  | tag hbytes hmajor hitem ih => exact ih.tagged hbytes hmajor
  | array hbytes hmajor hlevel hcount helems hmem helem ih =>
    exact .array (hbytes.untagged (by rw [hmajor]; decide)) hmajor hlevel hcount helems
  | key hbytes hmajor hlevel hcount hkeys hvalues hmem hkey ih =>
    exact .map (hbytes.untagged (by rw [hmajor]; decide)) hmajor hlevel hcount hkeys hvalues
  | value hbytes hmajor hlevel hcount hkeys hvalues hmem hvalue ih =>
    exact .map (hbytes.untagged (by rw [hmajor]; decide)) hmajor hlevel hcount hkeys hvalues

/-- Tags before an item leave it of its kind. -/
theorem Untagged.wellFormed_or_reserved {tags body : List UInt8}
    (h : Untagged (fun _ => true) head tags)
    (hbody : ∀ bytes, HeadBytes head bytes →
      WellFormed maxDepth depth (bytes ++ body) ∨ Reserved maxDepth depth (bytes ++ body)) :
    WellFormed maxDepth depth (tags ++ body) ∨ Reserved maxDepth depth (tags ++ body) := by
  induction h with
  | head hbytes hstop => exact hbody _ hbytes
  | tag hbytes hmajor hpasses hrest ih =>
    rw [append_assoc]
    rcases ih hbody with hwell | hreserved
    · exact .inl (.tag hbytes hmajor hwell)
    · exact .inr (.tag hbytes hmajor hreserved)

theorem Item.wellFormed_or_reserved (h : Item maxDepth depth bytes) :
    WellFormed maxDepth depth bytes ∨ Reserved maxDepth depth bytes := by
  induction h with
  | int htags hmajor =>
    rename_i tags
    rw [← append_nil tags]
    refine htags.wellFormed_or_reserved fun bytes hbytes => ?_
    rw [append_nil]
    exact .inl (.int hbytes hmajor)
  | simple htags hmajor hdefinite =>
    rename_i head tags
    rw [← append_nil tags]
    refine htags.wellFormed_or_reserved fun bytes hbytes => ?_
    rw [append_nil]
    by_cases hvalue : head.ai = ai1Byte → 32 ≤ head.arg
    · exact .inl (.simple hbytes hmajor hdefinite hvalue)
    · obtain ⟨hai, hlt⟩ := Classical.not_imp.mp hvalue
      exact .inr (.simple hbytes hmajor hai (Nat.not_le.mp hlt))
  | string htags hmajor hbody =>
    exact htags.wellFormed_or_reserved fun bytes hbytes =>
      .inl (.string hbytes hmajor hbody)
  | array htags hmajor hlevel hcount helems ih =>
    rename_i depth head tags elems
    refine htags.wellFormed_or_reserved fun bytes hbytes => ?_
    by_cases hall : ∀ elem ∈ elems, WellFormed maxDepth (level depth) elem
    · exact .inl (.array hbytes hmajor hlevel hcount hall)
    · push Not at hall
      obtain ⟨elem, hmem, hnot⟩ := hall
      have helem := (ih elem hmem).resolve_left hnot
      exact .inr (.array hbytes hmajor hlevel hcount helems hmem helem)
  | map htags hmajor hlevel hcount hkeys hvalues ihKeys ihValues =>
    rename_i depth head tags entries
    refine htags.wellFormed_or_reserved fun bytes hbytes => ?_
    by_cases hallKeys : ∀ entry ∈ entries, WellFormed maxDepth (level depth) entry.1
    · by_cases hallValues : ∀ entry ∈ entries, WellFormed maxDepth (level depth) entry.2
      · exact .inl (.map hbytes hmajor hlevel hcount hallKeys hallValues)
      · push Not at hallValues
        obtain ⟨entry, hmem, hnot⟩ := hallValues
        have hvalue := (ihValues entry hmem).resolve_left hnot
        exact .inr (.value hbytes hmajor hlevel hcount hkeys hvalues hmem hvalue)
    · push Not at hallKeys
      obtain ⟨entry, hmem, hnot⟩ := hallKeys
      have hkey := (ihKeys entry hmem).resolve_left hnot
      exact .inr (.key hbytes hmajor hlevel hcount hkeys hvalues hmem hkey)

/-! ## Bytes are read in one way only -/

section Unique

variable {x y s t : List UInt8}

/-- A reader at the start of some bytes. -/
def readerOf (maxDepth : Int) (bytes : List UInt8) : CborDeserializer :=
  ⟨bytes, 0, 0, maxDepth, false, []⟩

theorem HeadBytes.unique {head head' : Head} (h : HeadBytes head x) (h' : HeadBytes head' y)
    (heq : x ++ s = y ++ t) : head = head' ∧ x = y ∧ s = t := by
  let reader := readerOf 0 (x ++ s)
  have hread : reader.readHead = .ok (head, reader.after x.length) :=
    readHead_eq_ok.mpr ⟨x, s, rfl, h, rfl⟩
  have hread' : reader.readHead = .ok (head', reader.after y.length) :=
    readHead_eq_ok.mpr ⟨y, t, heq, h', rfl⟩
  obtain ⟨hhead, hafter⟩ := Prod.mk.inj (Except.ok.inj (hread.symm.trans hread'))
  have hpos : 0 + x.length = 0 + y.length := congrArg CborDeserializer.pos hafter
  exact ⟨hhead, append_inj heq (by omega)⟩

theorem Item.unique (h : Item maxDepth depth x) (h' : Item maxDepth depth y)
    (heq : x ++ s = y ++ t) : x = y ∧ s = t := by
  let reader := readerOf maxDepth (x ++ s)
  have hskip : reader.skipItem depth = .ok (reader.after x.length) :=
    skipItem_eq_ok.mpr ⟨x, s, rfl, h, rfl⟩
  have hskip' : reader.skipItem depth = .ok (reader.after y.length) :=
    skipItem_eq_ok.mpr ⟨y, t, heq, h', rfl⟩
  have hafter := Except.ok.inj (hskip.symm.trans hskip')
  have hpos : 0 + x.length = 0 + y.length := congrArg CborDeserializer.pos hafter
  exact append_inj heq (by omega)

theorem breakByte_not_items {elem : List UInt8} (helem : Item maxDepth depth elem) :
    [breakByte] ≠ elem ++ s := by
  obtain ⟨b, tail, rfl, hb⟩ := helem.startsItem
  intro heq
  exact hb (List.cons.inj heq).1.symm

/-- A container's body splits into its entries in one way. -/
theorem elems_unique {indef : Bool} {elems elems' : List (List UInt8)}
    (h : ∀ elem ∈ elems, Item maxDepth depth elem)
    (h' : ∀ elem ∈ elems', Item maxDepth depth elem)
    (hlength : indef = false → elems.length = elems'.length)
    (heq : elems.flatten ++ closing indef = elems'.flatten ++ closing indef) : elems = elems' := by
  induction elems generalizing elems' with
  | nil =>
    cases elems' with
    | nil => rfl
    | cons elem' elems' =>
      cases indef with
      | false => exact absurd (hlength rfl) (by simp)
      | true =>
        rw [flatten_cons, append_assoc] at heq
        exact absurd heq (breakByte_not_items (h' elem' mem_cons_self))
  | cons elem elems ih =>
    obtain ⟨helem, helems⟩ := forall_mem_cons.mp h
    cases elems' with
    | nil =>
      cases indef with
      | false => exact absurd (hlength rfl) (by simp)
      | true =>
        rw [flatten_cons, append_assoc] at heq
        exact absurd heq.symm (breakByte_not_items helem)
    | cons elem' elems' =>
      obtain ⟨helem', helems'⟩ := forall_mem_cons.mp h'
      rw [flatten_cons, flatten_cons, append_assoc, append_assoc] at heq
      obtain ⟨rfl, hrest⟩ := helem.unique helem' heq
      rw [ih helems helems' (fun hindef => Nat.succ.inj (hlength hindef)) hrest]

/-- The keys and values of a map in turn. -/
def items (entries : List (List UInt8 × List UInt8)) : List (List UInt8) :=
  entries.flatMap fun entry => [entry.1, entry.2]

variable (entries : List (List UInt8 × List UInt8))

theorem flatten_items :
    (items entries).flatten = entries.flatMap fun entry => entry.1 ++ entry.2 := by
  induction entries with
  | nil => rfl
  | cons entry entries ih => simpa [items] using ih

theorem length_items :
    (items entries).length = 2 * entries.length := by
  induction entries with
  | nil => rfl
  | cons entry entries ih =>
    have hcons : items (entry :: entries) = entry.1 :: entry.2 :: items entries := rfl
    rw [hcons, length_cons, length_cons, ih, length_cons]
    omega

theorem mem_items {good : List UInt8 → Prop} {entries : List (List UInt8 × List UInt8)} :
    (∀ item ∈ items entries, good item) ↔
      (∀ entry ∈ entries, good entry.1) ∧ ∀ entry ∈ entries, good entry.2 := by
  simp only [items, mem_flatMap, mem_cons, not_mem_nil, or_false]
  constructor
  · intro h
    exact ⟨fun entry hmem => h _ ⟨entry, hmem, .inl rfl⟩,
      fun entry hmem => h _ ⟨entry, hmem, .inr rfl⟩⟩
  · rintro ⟨hkeys, hvalues⟩ item ⟨entry, hmem, rfl | rfl⟩
    · exact hkeys entry hmem
    · exact hvalues entry hmem

theorem items_unique {indef : Bool} {entries entries' : List (List UInt8 × List UInt8)}
    (hkeys : ∀ entry ∈ entries, Item maxDepth depth entry.1)
    (hvalues : ∀ entry ∈ entries, Item maxDepth depth entry.2)
    (hkeys' : ∀ entry ∈ entries', Item maxDepth depth entry.1)
    (hvalues' : ∀ entry ∈ entries', Item maxDepth depth entry.2)
    (hlength : indef = false → entries.length = entries'.length)
    (heq : (entries.flatMap fun entry => entry.1 ++ entry.2) ++ closing indef =
      (entries'.flatMap fun entry => entry.1 ++ entry.2) ++ closing indef) :
    items entries = items entries' := by
  apply elems_unique (mem_items.mpr ⟨hkeys, hvalues⟩) (mem_items.mpr ⟨hkeys', hvalues'⟩)
  · intro hindef
    rw [length_items, length_items, hlength hindef]
  · rw [flatten_items, flatten_items]
    exact heq

/-- What stands after the head of a well-formed item. -/
structure AfterHead (maxDepth depth : Int) (head : Head) (rest : List UInt8) : Prop where
  tag : head.major = majorTag → WellFormed maxDepth depth rest
  simple : head.major = majorSimple → head.ai = ai1Byte → 32 ≤ head.arg
  array : head.major = majorArray → ∃ elems : List (List UInt8),
    rest = elems.flatten ++ closing head.indef ∧ (head.indef = false → elems.length = head.arg) ∧
      ∀ elem ∈ elems, WellFormed maxDepth (level depth) elem
  map : head.major = majorMap → ∃ entries : List (List UInt8 × List UInt8),
    rest = (entries.flatMap fun entry => entry.1 ++ entry.2) ++ closing head.indef ∧
      (head.indef = false → entries.length = head.arg) ∧
      (∀ entry ∈ entries, WellFormed maxDepth (level depth) entry.1) ∧
      ∀ entry ∈ entries, WellFormed maxDepth (level depth) entry.2

theorem AfterHead.of_other (h : head.major ∉ [majorTag, majorSimple, majorArray, majorMap]) :
    AfterHead maxDepth depth head s := by
  simp only [mem_cons, not_mem_nil, or_false, not_or] at h
  obtain ⟨htag, hsimple, harray, hmap⟩ := h
  exact ⟨fun hmajor => absurd hmajor htag, fun hmajor => absurd hmajor hsimple,
    fun hmajor => absurd hmajor harray, fun hmajor => absurd hmajor hmap⟩

theorem WellFormed.afterHead (h : WellFormed maxDepth depth (x ++ s))
    (hbytes : HeadBytes head x) : AfterHead maxDepth depth head s := by
  generalize hz : x ++ s = z at h
  cases h with
  | int hbytes' hmajor =>
    obtain ⟨rfl, -, -⟩ := hbytes.unique hbytes' (hz.trans (append_nil _).symm)
    apply AfterHead.of_other
    rcases hmajor with hmajor | hmajor <;> rw [hmajor] <;> decide
  | string hbytes' hmajor hbody =>
    obtain ⟨rfl, -, -⟩ := hbytes.unique hbytes' hz
    apply AfterHead.of_other
    rcases hmajor with hmajor | hmajor <;> rw [hmajor] <;> decide
  | simple hbytes' hmajor hdefinite hvalue =>
    obtain ⟨rfl, -, -⟩ := hbytes.unique hbytes' (hz.trans (append_nil _).symm)
    refine ⟨?_, fun _ => hvalue, ?_, ?_⟩
    all_goals
      intro hother
      rw [hmajor] at hother
      exact absurd hother (by decide)
  | array hbytes' hmajor hlevel hcount helems =>
    obtain ⟨rfl, -, hrest⟩ := hbytes.unique hbytes' hz
    refine ⟨?_, ?_, fun _ => ⟨_, hrest, hcount, helems⟩, ?_⟩
    all_goals
      intro hother
      rw [hmajor] at hother
      exact absurd hother (by decide)
  | map hbytes' hmajor hlevel hcount hkeys hvalues =>
    obtain ⟨rfl, -, hrest⟩ := hbytes.unique hbytes' hz
    refine ⟨?_, ?_, ?_, fun _ => ⟨_, hrest, hcount, hkeys, hvalues⟩⟩
    all_goals
      intro hother
      rw [hmajor] at hother
      exact absurd hother (by decide)
  | tag hbytes' hmajor hitem =>
    obtain ⟨rfl, -, rfl⟩ := hbytes.unique hbytes' hz
    refine ⟨fun _ => hitem, ?_, ?_, ?_⟩
    all_goals
      intro hother
      rw [hmajor] at hother
      exact absurd hother (by decide)

/-- A well-formed item has no reserved simple value in it. -/
theorem Reserved.not_wellFormed (h : Reserved maxDepth depth bytes) :
    ¬ WellFormed maxDepth depth bytes := by
  induction h with
  | simple hbytes hmajor hai hvalue =>
    intro hwell
    rename_i head bytes
    rw [← append_nil bytes] at hwell
    exact absurd ((hwell.afterHead hbytes).simple hmajor hai) (Nat.not_le.mpr hvalue)
  | tag hbytes hmajor hitem ih => exact fun hwell => ih ((hwell.afterHead hbytes).tag hmajor)
  | array hbytes hmajor hlevel hcount helems hmem helem ih =>
    intro hwell
    obtain ⟨elems', hrest, hcount', hwell⟩ := (hwell.afterHead hbytes).array hmajor
    obtain rfl := elems_unique helems (fun elem hmem => (hwell elem hmem).item)
      (fun hindef => (hcount hindef).trans (hcount' hindef).symm) hrest
    exact ih (hwell _ hmem)
  | key hbytes hmajor hlevel hcount hkeys hvalues hmem hkey ih =>
    intro hwell
    obtain ⟨entries', hrest, hcount', hwell⟩ := (hwell.afterHead hbytes).map hmajor
    have hsame := items_unique hkeys hvalues (fun entry hmem => (hwell.1 entry hmem).item)
      (fun entry hmem => (hwell.2 entry hmem).item)
      (fun hindef => (hcount hindef).trans (hcount' hindef).symm) hrest
    have hall := mem_items.mpr hwell
    rw [← hsame] at hall
    exact ih ((mem_items.mp hall).1 _ hmem)
  | value hbytes hmajor hlevel hcount hkeys hvalues hmem hvalue ih =>
    intro hwell
    obtain ⟨entries', hrest, hcount', hwell⟩ := (hwell.afterHead hbytes).map hmajor
    have hsame := items_unique hkeys hvalues (fun entry hmem => (hwell.1 entry hmem).item)
      (fun entry hmem => (hwell.2 entry hmem).item)
      (fun hindef => (hcount hindef).trans (hcount' hindef).symm) hrest
    have hall := mem_items.mpr hwell
    rw [← hsame] at hall
    exact ih ((mem_items.mp hall).2 _ hmem)

end Unique

/-! ## The skipper ends -/

namespace CborDeserializer

section Ends

variable {self s : CborDeserializer} {fuel fuel' : Nat}
  {step step' : CborDeserializer → Except DeserializeError CborDeserializer}

theorem readHead_shortens (h : self.readHead = .ok (head, s)) :
    s.rest.length < self.rest.length := by
  obtain ⟨bytes, next, hrest, hbytes, rfl⟩ := readHead_eq_ok.mp h
  have hpos := hbytes.length_pos
  rw [rest_after_append hrest, hrest, length_append]
  omega

variable {passes : Nat → Bool}

theorem readUntagged_shortens
    (h : self.readUntagged passes = .ok (head, s)) : s.rest.length < self.rest.length := by
  obtain ⟨bytes, next, hrest, htags, rfl⟩ := readUntagged_eq_ok.mp h
  have hpos := htags.length_pos
  rw [rest_after_append hrest, hrest, length_append]
  omega

theorem skipItemWithin_shortens {depth : Int} (h : skipItemWithin fuel depth self = .ok s) :
    s.rest.length < self.rest.length := by
  obtain ⟨bytes, next, hrest, hitem, rfl⟩ :=
    (passesOver_skipItemWithin self.maxDepth fuel depth).sound h rfl
  obtain ⟨b, tail, rfl, -⟩ := hitem.startsItem
  rw [rest_after_append hrest, hrest, length_append, length_cons]
  omega

/-- Above the bytes left, the bound on the tags does not matter. -/
theorem untagged_fuel (h : self.rest.length < fuel)
    (h' : self.rest.length < fuel') : untagged passes fuel self = untagged passes fuel' self := by
  induction fuel generalizing self fuel' with
  | zero => exact absurd h (Nat.not_lt_zero _)
  | succ fuel ih =>
    cases fuel' with
    | zero => exact absurd h' (Nat.not_lt_zero _)
    | succ fuel' =>
      rw [untagged, untagged]
      cases hread : self.readHead with
      | error e => rfl
      | ok read =>
        have hshort := readHead_shortens hread
        rw [bind_of_eq_ok rfl, bind_of_eq_ok rfl]
        dsimp only
        split_ifs
        · exact ih (by omega) (by omega)
        · rfl

/-- Above the bytes left, the bound on the chunks does not matter. -/
theorem readChunks_fuel {α : Type} {major : Nat} {out : α}
    {chunk : α → Nat → CborDeserializer → Except DeserializeError (α × CborDeserializer)}
    (hchunk : ∀ {out out' : α} {len : Nat} {self s : CborDeserializer},
      chunk out len self = .ok (out', s) → s.rest.length ≤ self.rest.length)
    (h : self.rest.length < fuel) (h' : self.rest.length < fuel') :
    readChunks major chunk fuel out self = readChunks major chunk fuel' out self := by
  induction fuel generalizing self fuel' out with
  | zero => exact absurd h (Nat.not_lt_zero _)
  | succ fuel ih =>
    cases fuel' with
    | zero => exact absurd h' (Nat.not_lt_zero _)
    | succ fuel' =>
      rw [readChunks, readChunks]
      refine bind_congr fun b => ?_
      split_ifs
      · rfl
      · cases hread : self.readHead with
        | error e => rfl
        | ok read =>
          have hshort := readHead_shortens hread
          rw [bind_of_eq_ok rfl, bind_of_eq_ok rfl]
          dsimp only
          split_ifs
          · rfl
          · cases htake : chunk out read.1.arg read.2 with
            | error e => rfl
            | ok taken =>
              have hle := hchunk htake
              rw [bind_of_eq_ok rfl, bind_of_eq_ok rfl]
              exact ih (by omega) (by omega)

/-- Steps that do alike while at most `n` bytes are left. -/
def AgreeWithin (n : Nat)
    (step step' : CborDeserializer → Except DeserializeError CborDeserializer) : Prop :=
  ∀ self : CborDeserializer, self.rest.length ≤ n → step self = step' self

section Shortens

variable (hstep : ∀ {self s : CborDeserializer}, step self = .ok s →
  s.rest.length < self.rest.length)
include hstep

/-- Above the bytes left, the bound on the entries does not matter. -/
theorem skipUntilBreak_fuel (h : self.rest.length < fuel) (h' : self.rest.length < fuel') :
    skipUntilBreak step fuel self = skipUntilBreak step fuel' self := by
  induction fuel generalizing self fuel' with
  | zero => exact absurd h (Nat.not_lt_zero _)
  | succ fuel ih =>
    cases fuel' with
    | zero => exact absurd h' (Nat.not_lt_zero _)
    | succ fuel' =>
      rw [skipUntilBreak, skipUntilBreak]
      refine bind_congr fun b => ?_
      split_ifs
      · rfl
      · cases hfirst : step self with
        | error e => rfl
        | ok s =>
          have hshort := hstep hfirst
          rw [bind_of_eq_ok rfl, bind_of_eq_ok rfl]
          exact ih (by omega) (by omega)

theorem AgreeWithin.skipCount {n : Nat} (h : AgreeWithin n step step')
    (count : Nat) : AgreeWithin n (skipCount step count) (skipCount step' count) := by
  induction count with
  | zero => exact fun self _ => rfl
  | succ count ih =>
    intro self hle
    rw [CborDeserializer.skipCount, CborDeserializer.skipCount, ← h self hle]
    cases hfirst : step self with
    | error e => rfl
    | ok s =>
      have hshort := hstep hfirst
      exact ih s (by omega)

theorem AgreeWithin.skipUntilBreak {n : Nat} (h : AgreeWithin n step step')
    (left : Nat) : AgreeWithin n (skipUntilBreak step left) (skipUntilBreak step' left) := by
  induction left with
  | zero => exact fun self _ => rfl
  | succ left ih =>
    intro self hle
    rw [CborDeserializer.skipUntilBreak, CborDeserializer.skipUntilBreak, ← h self hle]
    refine bind_congr fun b => ?_
    split_ifs
    · rfl
    · cases hfirst : step self with
      | error e => rfl
      | ok s =>
        have hshort := hstep hfirst
        exact ih s (by omega)

theorem AgreeWithin.skipEntries {n : Nat} (h : AgreeWithin n step step')
    (head : Head) : AgreeWithin n (skipEntries step head) (skipEntries step' head) := by
  intro self hle
  unfold CborDeserializer.skipEntries
  split_ifs
  · exact h.skipUntilBreak hstep _ self hle
  · exact h.skipCount hstep _ self hle

theorem AgreeWithin.twice {n : Nat} (h : AgreeWithin n step step') :
    AgreeWithin n (fun self => step self >>= step) fun self => step' self >>= step' := by
  intro self hle
  dsimp only
  rw [← h self hle]
  cases hfirst : step self with
  | error e => rfl
  | ok s =>
    have hshort := hstep hfirst
    exact h s (by omega)

theorem twice_shortens (h : (step self >>= step) = .ok s) : s.rest.length < self.rest.length := by
  obtain ⟨s', hfirst, hsecond⟩ := bind_eq_ok.mp h
  exact Nat.lt_trans (hstep hsecond) (hstep hfirst)

end Shortens

/-- Above the bytes left, the bound on the levels does not matter. -/
theorem skipItemWithin_fuel {depth : Int} (h : self.rest.length < fuel)
    (h' : self.rest.length < fuel') :
    skipItemWithin fuel depth self = skipItemWithin fuel' depth self := by
  induction fuel generalizing self fuel' depth with
  | zero => exact absurd h (Nat.not_lt_zero _)
  | succ fuel ih =>
    cases fuel' with
    | zero => exact absurd h' (Nat.not_lt_zero _)
    | succ fuel' =>
      rw [skipItemWithin, skipItemWithin]
      cases hread : self.readUntagged fun _ => true with
      | error e => rfl
      | ok read =>
        have hshort := readUntagged_shortens hread
        have hagree (inner : Int) : AgreeWithin read.2.rest.length
            (skipItemWithin fuel inner) (skipItemWithin fuel' inner) :=
          fun s hle => ih (by omega) (by omega)
        rw [bind_of_eq_ok rfl, bind_of_eq_ok rfl]
        dsimp only
        split_ifs
        · rfl
        · rfl
        · rfl
        · rfl
        · refine bind_congr fun inner => ?_
          exact (hagree inner).skipEntries skipItemWithin_shortens _ _ le_rfl
        · refine bind_congr fun inner => ?_
          exact ((hagree inner).twice skipItemWithin_shortens).skipEntries
            (twice_shortens skipItemWithin_shortens) _ _ le_rfl

end Ends

/-- The step of `skipStringRaw` over a chunk. -/
def skipChunk (_ : Unit) (len : Nat) (self : CborDeserializer) :
    Except DeserializeError (Unit × CborDeserializer) := do
  return ((), ← self.advance len)

theorem skipChunk_shortens {out out' : Unit} {len : Nat} {self s : CborDeserializer}
    (h : skipChunk out len self = .ok (out', s)) : s.rest.length ≤ self.rest.length := by
  obtain ⟨s', hadvance, h⟩ := bind_eq_ok.mp h
  obtain ⟨body, next, hrest, hlength, rfl⟩ := advance_eq_ok.mp hadvance
  cases h
  rw [← hlength, rest_after_append hrest, hrest, length_append]
  omega

/-- No loop of the skipper reaches its bound: whatever it is allowed above the bytes
left, the outcome is the same. -/
structure Ends (depth : Int) (self : CborDeserializer) : Prop where
  levels : ∀ fuel, self.rest.length < fuel → skipItemWithin fuel depth self = self.skipItem depth
  tags : ∀ fuel, self.rest.length < fuel →
    untagged (fun _ => true) fuel self = self.readUntagged fun _ => true
  chunks : ∀ fuel major, self.rest.length < fuel →
    (readChunks major skipChunk fuel () self >>= fun read => .ok read.2) =
      self.skipStringRaw 0 true major
  elements : ∀ fuel left, self.rest.length < left →
    skipUntilBreak (skipItemWithin fuel depth) left self =
      skipEntries (skipItemWithin fuel depth) ⟨majorArray, aiIndefinite, 0, true⟩ self
  pairs : ∀ fuel left, self.rest.length < left →
    skipUntilBreak (fun self => skipItemWithin fuel depth self >>= skipItemWithin fuel depth) left
        self =
      skipEntries (fun self => skipItemWithin fuel depth self >>= skipItemWithin fuel depth)
        ⟨majorMap, aiIndefinite, 0, true⟩ self

theorem skipItem_ends (depth : Int) (self : CborDeserializer) : Ends depth self where
  levels _ hfuel := skipItemWithin_fuel hfuel (Nat.lt_succ_self _)
  tags _ hfuel := untagged_fuel hfuel (Nat.lt_succ_self _)
  chunks fuel major hfuel := by
    rw [readChunks_fuel skipChunk_shortens hfuel (Nat.lt_succ_self _)]
    rfl
  elements _ _ hleft := skipUntilBreak_fuel skipItemWithin_shortens hleft (Nat.lt_succ_self _)
  pairs _ _ hleft :=
    skipUntilBreak_fuel (twice_shortens skipItemWithin_shortens) hleft (Nat.lt_succ_self _)

end CborDeserializer

/-- The skipper always ends, and it passes over exactly the well-formed items, unless an
item with a reserved simple value stands at the start. -/
theorem skipItem_wellFormed_iff (depth : Int) (self : CborDeserializer) :
    (Ends depth self ∧ ∀ s, self.skipItem depth = .ok s ↔
      ∃ bytes next, self.rest = bytes ++ next ∧ WellFormed self.maxDepth depth bytes ∧
        s = self.after bytes.length) ↔
    ¬ ∃ bytes next, self.rest = bytes ++ next ∧ Reserved self.maxDepth depth bytes := by
  constructor
  · rintro ⟨-, h⟩ ⟨bytes, next, hrest, hreserved⟩
    have hskip := skipItem_eq_ok.mpr ⟨bytes, next, hrest, hreserved.item, rfl⟩
    obtain ⟨bytes', next', hrest', hwell, -⟩ := (h _).mp hskip
    obtain ⟨rfl, -⟩ := hreserved.item.unique hwell.item (hrest.symm.trans hrest')
    exact hreserved.not_wellFormed hwell
  · intro hnone
    refine ⟨skipItem_ends depth self, fun s => ?_⟩
    rw [skipItem_eq_ok]
    constructor
    · rintro ⟨bytes, next, hrest, hitem, hs⟩
      have hwell := hitem.wellFormed_or_reserved.resolve_right
        fun hreserved => hnone ⟨bytes, next, hrest, hreserved⟩
      exact ⟨bytes, next, hrest, hwell, hs⟩
    · rintro ⟨bytes, next, hrest, hwell, hs⟩
      exact ⟨bytes, next, hrest, hwell.item, hs⟩

/-- The skipper takes the simple value 0 in a byte of its own, which is not well-formed. -/
theorem skipItem_takes_reserved :
    (⟨[0xf8, 0x00], 0, 0, 100, false, []⟩ : CborDeserializer).skipItem 0 =
        .ok ⟨[], 2, 0, 100, false, []⟩ ∧
      ¬ ∃ bytes next, [0xf8, 0x00] = bytes ++ next ∧ WellFormed 100 0 bytes := by
  have hbytes : HeadBytes ⟨majorSimple, ai1Byte, 0, false⟩ [0xf8, 0x00] :=
    .sized 7 24 [0] (by decide) (by decide) (by decide) rfl
  have hreserved : Reserved 100 0 [0xf8, 0x00] := .simple hbytes rfl rfl (by decide)
  refine ⟨by decide, ?_⟩
  rintro ⟨bytes, next, hrest, hwell⟩
  obtain ⟨rfl, -⟩ := hreserved.item.unique hwell.item ((List.append_nil _).trans hrest)
  exact hreserved.not_wellFormed hwell

end Wado.Cbor
