/-
The skipper accepts exactly the well-formed items, and passes over one.
-/
import Wado.Cbor.Item
import Wado.Cbor.Access

namespace Wado.Cbor

open ExceptSteps List

namespace CborDeserializer

variable {self s : CborDeserializer}

theorem advance_eq_ok {n : Nat} : self.advance n = .ok s ↔
      ∃ body next, self.rest = body ++ next ∧ body.length = n ∧ s = self.after n := by
  unfold advance
  by_cases hn : n > self.rest.length
  · rw [if_pos hn]
    constructor
    · intro h
      cases h
    · rintro ⟨body, next, hrest, hlength, _⟩
      rw [hrest, length_append] at hn
      omega
  · rw [if_neg hn]
    constructor
    · intro h
      cases h
      refine ⟨_, _, (take_append_drop n self.rest).symm, ?_, rfl⟩
      rw [length_take]
      omega
    · rintro ⟨body, next, hrest, rfl, rfl⟩
      rfl

theorem takesChunks_advance : TakesChunks (fun (_ : Unit) _ => some ()) fun _ len self => do
      return ((), ← advance len self) := by
  constructor
  intro out out' len self s
  constructor
  · intro h
    obtain ⟨s', hadvance, h⟩ := bind_eq_ok.mp h
    obtain ⟨body, next, hrest, hlength, rfl⟩ := advance_eq_ok.mp hadvance
    cases h
    exact ⟨body, next, hrest, hlength, rfl, rfl⟩
  · rintro ⟨body, next, hrest, hlength, _, rfl⟩
    exact bind_of_eq_ok (advance_eq_ok.mpr ⟨body, next, hrest, hlength, rfl⟩)

theorem skipStringRaw_eq_ok {arg major : Nat} {indef : Bool} :
    self.skipStringRaw arg indef major = .ok s ↔
      ∃ chunks body next, self.rest = body ++ next ∧ StringBody major arg indef chunks body ∧
        s = self.after body.length := by
  cases indef with
  | true =>
    show (readChunks major _ (self.rest.length + 1) () self >>= _) = _ ↔ _
    rw [bind_eq_ok]
    constructor
    · rintro ⟨⟨_, s'⟩, hread, h⟩
      obtain ⟨chunks, body, next, hrest, hbody, _, rfl⟩ :=
        (readChunks_eq_ok takesChunks_advance).mp hread
      cases h
      exact ⟨chunks, body, next, hrest, stringBody_indefinite hbody, rfl⟩
    · rintro ⟨chunks, body, next, hrest, hbody, rfl⟩
      have hfold : chunks.foldlM (fun (_ : Unit) (_ : List UInt8) => some ()) () = some () := by
        clear hrest hbody
        induction chunks with
        | nil => rfl
        | cons chunk chunks ih => exact ih
      exact ⟨((), self.after body.length), (readChunks_eq_ok takesChunks_advance).mpr
          ⟨chunks, body, next, hrest, stringBody_indefinite hbody, hfold, rfl⟩, rfl⟩
  | false =>
    show self.advance arg = _ ↔ _
    rw [advance_eq_ok]
    constructor
    · rintro ⟨body, next, hrest, hlength, rfl⟩
      exact ⟨[body], body, next, hrest, .definite hlength, by rw [hlength]⟩
    · rintro ⟨chunks, body, next, hrest, hbody, rfl⟩
      cases hbody with
      | definite hlength => exact ⟨body, next, hrest, hlength, by rw [hlength]⟩

theorem deeper_eq_ok {depth maxDepth inner : Int} {offset : Nat} :
    deeper depth maxDepth offset = .ok inner ↔ inner = level depth ∧ level depth ≤ maxDepth := by
  show (if level depth > maxDepth then _ else Except.ok (level depth)) = _ ↔ _
  by_cases h : level depth > maxDepth
  · rw [if_pos h]
    constructor
    · intro heq
      cases heq
    · rintro ⟨_, hle⟩
      omega
  · rw [if_neg h]
    constructor
    · intro heq
      cases heq
      exact ⟨rfl, by omega⟩
    · rintro ⟨rfl, _⟩
      rfl

section Steps

variable {maxDepth : Int} {fuel : Nat} {P Q : List UInt8 → Prop}
  {step step' : CborDeserializer → Except DeserializeError CborDeserializer}

/-- A step that passes over the bytes of which `P` holds, where fewer than `fuel`
bytes are left. -/
structure PassesOver (maxDepth : Int) (fuel : Nat) (P : List UInt8 → Prop)
    (step : CborDeserializer → Except DeserializeError CborDeserializer) : Prop where
  sound {self s : CborDeserializer} (h : step self = .ok s) (hmax : self.maxDepth = maxDepth) :
    ∃ bytes next, self.rest = bytes ++ next ∧ P bytes ∧ s = self.after bytes.length
  complete {self : CborDeserializer} {bytes next : List UInt8}
    (hrest : self.rest = bytes ++ next) (hmax : self.maxDepth = maxDepth)
    (hfuel : self.rest.length < fuel) (h : P bytes) :
    step self = .ok (self.after bytes.length)

section

variable (hstep : PassesOver maxDepth fuel P step)
include hstep

theorem PassesOver.bind (hstep' : PassesOver maxDepth fuel Q step') :
    PassesOver maxDepth fuel (fun bytes => ∃ xs ys, bytes = xs ++ ys ∧ P xs ∧ Q ys)
      (fun self => do step' (← step self)) := by
  constructor
  · intro self s h hmax
    obtain ⟨s', hfirst, h⟩ := bind_eq_ok.mp h
    obtain ⟨xs, next, hrest, hP, rfl⟩ := hstep.sound hfirst hmax
    obtain ⟨ys, next', hrest', hQ, rfl⟩ := hstep'.sound h hmax
    rw [rest_after_append hrest] at hrest'
    refine ⟨xs ++ ys, next', ?_, ⟨xs, ys, rfl, hP, hQ⟩, ?_⟩
    · rw [hrest, hrest', append_assoc]
    · rw [after_after, length_append]
  · rintro self _ next hrest hmax hfuel ⟨xs, ys, rfl, hP, hQ⟩
    rw [append_assoc] at hrest
    have hrest' := rest_after_append hrest
    have hfuel' : (self.after xs.length).rest.length < fuel := by
      rw [hrest']
      rw [hrest, length_append] at hfuel
      omega
    rw [bind_of_eq_ok (hstep.complete hrest hmax hfuel hP),
      hstep'.complete hrest' hmax hfuel' hQ, after_after, length_append]

theorem passesOver_skipCount (n : Nat) :
    PassesOver maxDepth fuel
      (fun bytes => ∃ parts : List (List UInt8), parts.length = n ∧ bytes = parts.flatten ∧
        ∀ part ∈ parts, P part)
      (skipCount step n) := by
  induction n with
  | zero =>
    constructor
    · intro self s h _
      cases h
      exact ⟨[], self.rest, rfl, ⟨[], rfl, rfl, by simp⟩, (after_zero self).symm⟩
    · rintro self _ next _ _ _ ⟨parts, hlength, rfl, _⟩
      rw [length_eq_zero_iff.mp hlength]
      exact congrArg Except.ok (after_zero self).symm
  | succ n ih =>
    have hboth := hstep.bind ih
    constructor
    · intro self s h hmax
      obtain ⟨bytes, next, hrest, ⟨xs, _, rfl, hP, parts, hlength, rfl, hparts⟩, rfl⟩ :=
        hboth.sound h hmax
      refine ⟨_, next, hrest, ⟨xs :: parts, ?_, flatten_cons.symm, ?_⟩, rfl⟩
      · rw [length_cons, hlength]
      · exact forall_mem_cons.mpr ⟨hP, hparts⟩
    · rintro self _ next hrest hmax hfuel ⟨parts, hlength, rfl, hparts⟩
      obtain ⟨xs, parts, rfl⟩ := exists_cons_of_length_eq_add_one hlength
      obtain ⟨hP, hparts⟩ := forall_mem_cons.mp hparts
      apply hboth.complete hrest hmax hfuel
      exact ⟨xs, parts.flatten, flatten_cons, hP, parts, Nat.succ.inj hlength, rfl, hparts⟩

theorem passesOver_skipUntilBreak (hstarts : ∀ bytes, P bytes → StartsItem bytes) :
    PassesOver maxDepth fuel
      (fun bytes => ∃ parts : List (List UInt8), bytes = parts.flatten ++ [breakByte] ∧
        ∀ part ∈ parts, P part)
      fun self => skipUntilBreak step (self.rest.length + 1) self := by
  constructor
  · intro self s h hmax
    generalize self.rest.length + 1 = left at h
    induction left generalizing self s with
    | zero => cases h
    | succ left ih =>
      obtain ⟨b, hpeek, h⟩ := bind_eq_ok.mp h
      split_ifs at h with hbreak
      · cases h
        obtain ⟨next, hrest⟩ := peekByte_eq_ok.mp hpeek
        rw [hbreak] at hrest
        exact ⟨[breakByte], next, hrest, ⟨[], rfl, by simp⟩, rfl⟩
      · obtain ⟨s', hfirst, h⟩ := bind_eq_ok.mp h
        obtain ⟨xs, next, hrest, hP, rfl⟩ := hstep.sound hfirst hmax
        obtain ⟨_, next', hrest', ⟨parts, rfl, hparts⟩, rfl⟩ := @ih (self.after xs.length) s hmax h
        rw [rest_after_append hrest] at hrest'
        refine ⟨_, next', ?_, ⟨xs :: parts, rfl, forall_mem_cons.mpr ⟨hP, hparts⟩⟩, ?_⟩
        · rw [hrest, hrest', flatten_cons]
          simp only [append_assoc]
        · rw [after_after, flatten_cons, append_assoc, ← length_append]
  · rintro self _ next hrest hmax hfuel ⟨parts, rfl, hparts⟩
    have hleft : (parts.flatten ++ [breakByte]).length < self.rest.length + 1 := by
      have hlength := congrArg List.length hrest
      rw [length_append] at hlength
      omega
    generalize self.rest.length + 1 = left at hleft
    induction parts generalizing self left with
    | nil =>
      cases left with
      | zero => exact absurd hleft (Nat.not_lt_zero _)
      | succ left =>
        rw [skipUntilBreak, bind_of_eq_ok (peekByte_of_rest hrest), if_pos rfl]
        rfl
    | cons xs parts ih =>
      obtain ⟨hP, hparts'⟩ := forall_mem_cons.mp hparts
      obtain ⟨b, tail, rfl, hfirst⟩ := hstarts _ hP
      cases left with
      | zero => exact absurd hleft (Nat.not_lt_zero _)
      | succ left =>
        rw [flatten_cons, append_assoc] at hleft hrest
        rw [append_assoc] at hrest
        have hrest' := rest_after_append hrest
        have hfuel' : (self.after (b :: tail).length).rest.length < fuel := by
          rw [hrest']
          rw [hrest, length_append] at hfuel
          omega
        rw [← append_assoc] at hrest'
        have hnext := @ih (self.after (b :: tail).length) hmax hfuel' hparts' hrest' left
          (by rw [length_append, length_cons] at hleft; omega)
        rw [skipUntilBreak, bind_of_eq_ok (peekByte_of_rest hrest), if_neg hfirst,
          bind_of_eq_ok (hstep.complete hrest hmax hfuel hP), hnext, after_after,
          flatten_cons, append_assoc, ← length_append]

end

end Steps

section Entries

variable {maxDepth : Int} {fuel : Nat} {P : List UInt8 → Prop}
  {step : CborDeserializer → Except DeserializeError CborDeserializer}

/-- What the loop over a container's entries passes over, its head read. -/
def Entries (P : List UInt8 → Prop) (head : Head) (bytes : List UInt8) : Prop :=
  ∃ parts : List (List UInt8), bytes = parts.flatten ++ closing head.indef ∧
    (head.indef = false → parts.length = head.arg) ∧ ∀ part ∈ parts, P part

theorem passesOver_skipEntries (hstep : PassesOver maxDepth fuel P step)
    (hstarts : ∀ bytes, P bytes → StartsItem bytes) (head : Head) :
    PassesOver maxDepth fuel (Entries P head) (skipEntries step head) := by
  unfold Entries
  cases hindef : head.indef with
  | true =>
    have hloop := passesOver_skipUntilBreak hstep hstarts
    have heq : skipEntries step head =
        fun self => skipUntilBreak step (self.rest.length + 1) self := by
      funext self
      rw [skipEntries, if_pos hindef]
    rw [heq]
    simpa [closing] using hloop
  | false =>
    have hloop := passesOver_skipCount hstep head.arg
    have heq : skipEntries step head = skipCount step head.arg := by
      funext self
      rw [skipEntries, if_neg (by rw [hindef]; exact Bool.false_ne_true)]
    rw [heq]
    simpa [closing, and_left_comm] using hloop

end Entries

/-- The branch of `skipItemWithin` after the head. -/
theorem skipItemWithin_of_head {fuel : Nat} {depth : Int}
    {head : Head} (h : self.readUntagged (fun _ => true) = .ok (head, s)) :
    skipItemWithin (fuel + 1) depth self =
      if head.major = majorUint ∨ head.major = majorNint then .ok s
      else if head.major = majorSimple then
        if head.indef then .error ⟨.malformedInput, (s.pos : Int) - 1⟩ else .ok s
      else if head.major = majorBytes ∨ head.major = majorText then
        s.skipStringRaw head.arg head.indef head.major
      else deeper depth s.maxDepth s.pos >>= fun inner =>
        if head.major = majorArray then skipEntries (skipItemWithin fuel inner) head s
        else
          skipEntries (fun self => skipItemWithin fuel inner self >>= skipItemWithin fuel inner)
            head s := by
  rw [skipItemWithin, bind_of_eq_ok h]
  rfl

/-- The pairs of a map as parts of its body. -/
theorem map_entries_parts {P : List UInt8 → Prop} {parts : List (List UInt8)}
    (hparts : ∀ part ∈ parts, ∃ xs ys, part = xs ++ ys ∧ P xs ∧ P ys) :
    ∃ entries : List (List UInt8 × List UInt8),
      parts = entries.map (fun entry => entry.1 ++ entry.2) ∧ (∀ entry ∈ entries, P entry.1) ∧
        ∀ entry ∈ entries, P entry.2 := by
  induction parts with
  | nil => exact ⟨[], rfl, by simp, by simp⟩
  | cons part parts ih =>
    obtain ⟨⟨xs, ys, rfl, hxs, hys⟩, hparts'⟩ := forall_mem_cons.mp hparts
    obtain ⟨entries, rfl, hkeys, hvalues⟩ := ih hparts'
    exact ⟨(xs, ys) :: entries, rfl, forall_mem_cons.mpr ⟨hxs, hkeys⟩,
      forall_mem_cons.mpr ⟨hys, hvalues⟩⟩

/-- The skipper, given enough fuel, passes over exactly the items. -/
theorem passesOver_skipItemWithin (maxDepth : Int) (fuel : Nat) (depth : Int) :
    PassesOver maxDepth fuel (Item maxDepth depth) (skipItemWithin fuel depth) := by
  induction fuel generalizing depth with
  | zero =>
    constructor
    · intro self s h _
      cases h
    · intro self bytes next _ _ hfuel _
      exact absurd hfuel (Nat.not_lt_zero _)
  | succ fuel ih =>
    have helems (head : Head) := passesOver_skipEntries (ih (level depth))
      (fun _ => Item.startsItem) head
    have hpairs (head : Head) := passesOver_skipEntries ((ih (level depth)).bind (ih (level depth)))
      (by
        rintro _ ⟨xs, ys, rfl, hxs, _⟩
        obtain ⟨b, tail, rfl, hb⟩ := hxs.startsItem
        exact ⟨b, tail ++ ys, rfl, hb⟩) head
    constructor
    · intro self s h hmax
      obtain ⟨⟨head, s₁⟩, hread, _⟩ := bind_eq_ok.mp h
      rw [skipItemWithin_of_head hread] at h
      obtain ⟨tags, next, hrest, htags, rfl⟩ := readUntagged_eq_ok.mp hread
      have hjoin {body next' : List UInt8} {s : CborDeserializer}
          (hrest' : (self.after tags.length).rest = body ++ next')
          (hs : s = (self.after tags.length).after body.length)
          (hitem : Item maxDepth depth (tags ++ body)) :
          ∃ bytes next, self.rest = bytes ++ next ∧ Item maxDepth depth bytes ∧
            s = self.after bytes.length := by
        rw [rest_after_append hrest] at hrest'
        refine ⟨tags ++ body, next', ?_, hitem, ?_⟩
        · rw [hrest, hrest', append_assoc]
        · rw [hs, after_after, length_append]
      split_ifs at h with hint hsimple hindef hstring harray
      · cases h
        exact ⟨tags, next, hrest, .int htags hint, rfl⟩
      · cases h
        exact ⟨tags, next, hrest, .simple htags hsimple (Bool.eq_false_of_not_eq_true hindef), rfl⟩
      · obtain ⟨chunks, body, next', hrest', hbody, hs⟩ := skipStringRaw_eq_ok.mp h
        exact hjoin hrest' hs (.string htags hstring hbody)
      · obtain ⟨inner, hdeeper, h⟩ := bind_eq_ok.mp h
        obtain ⟨rfl, hlevel⟩ := deeper_eq_ok.mp hdeeper
        rw [maxDepth_after, hmax] at hlevel
        obtain ⟨_, next', hrest', ⟨elems, rfl, hcount, hmem⟩, hs⟩ := (helems head).sound h hmax
        exact hjoin hrest' hs (.array htags harray hlevel hcount hmem)
      · obtain ⟨inner, hdeeper, h⟩ := bind_eq_ok.mp h
        obtain ⟨rfl, hlevel⟩ := deeper_eq_ok.mp hdeeper
        rw [maxDepth_after, hmax] at hlevel
        obtain ⟨_, next', hrest', ⟨parts, rfl, hcount, hmem⟩, hs⟩ := (hpairs head).sound h hmax
        obtain ⟨entries, rfl, hkeys, hvalues⟩ := map_entries_parts hmem
        have hmap : head.major = majorMap := by
          have hlt := htags.major_lt
          have hne := htags.major_ne_tag
          simp only [majorUint, majorNint, majorSimple, majorBytes, majorText, majorArray,
            majorTag, majorMap] at *
          omega
        rw [length_map] at hcount
        rw [← flatMap_def] at hrest' hs
        exact hjoin hrest' hs (.map htags hmap hlevel hcount hkeys hvalues)
    · intro self bytes next hrest hmax hfuel h
      have hread {head : Head} {tags body : List UInt8} (htags : Untagged (fun _ => true) head tags)
          (hbytes : bytes = tags ++ body) :
          self.readUntagged (fun _ => true) = .ok (head, self.after tags.length) ∧
            (self.after tags.length).rest = body ++ next ∧
            (self.after tags.length).rest.length < fuel := by
        rw [hbytes, append_assoc] at hrest
        have hrest' := rest_after_append hrest
        have hpos := htags.length_pos
        refine ⟨readUntagged_eq_ok.mpr ⟨tags, _, hrest, htags, rfl⟩, hrest', ?_⟩
        rw [hrest']
        rw [hrest, length_append] at hfuel
        omega
      cases h with
      | int htags hmajor =>
        obtain ⟨hhead, _⟩ := hread htags (append_nil bytes).symm
        rw [skipItemWithin_of_head hhead, if_pos hmajor]
      | simple htags hmajor hdefinite =>
        obtain ⟨hhead, _⟩ := hread htags (append_nil bytes).symm
        rw [skipItemWithin_of_head hhead, hmajor]
        simp [majorUint, majorNint, majorSimple, hdefinite]
      | string htags hmajor hbody =>
        obtain ⟨hhead, hnext, _⟩ := hread htags rfl
        have hskip := skipStringRaw_eq_ok.mpr ⟨_, _, _, hnext, hbody, rfl⟩
        rw [skipItemWithin_of_head hhead, if_neg, if_neg, if_pos hmajor, hskip, after_after,
          ← length_append]
        · rcases hmajor with hmajor | hmajor <;> rw [hmajor] <;> decide
        · rcases hmajor with hmajor | hmajor <;> rw [hmajor] <;> decide
      | array htags hmajor hlevel hcount hmem =>
        rename_i head tags elems
        obtain ⟨hhead, hnext, hleft⟩ := hread htags rfl
        have hskip := (helems head).complete hnext hmax hleft ⟨elems, rfl, hcount, hmem⟩
        rw [skipItemWithin_of_head hhead]
        rw [if_neg, if_neg, if_neg, maxDepth_after, hmax,
          bind_of_eq_ok (deeper_eq_ok.mpr ⟨rfl, hlevel⟩), if_pos hmajor, hskip, after_after,
            ← length_append]
        · rw [hmajor]; decide
        · rw [hmajor]; decide
        · rw [hmajor]; decide
      | map htags hmajor hlevel hcount hkeys hvalues =>
        rename_i head tags entries
        obtain ⟨hhead, hnext, hleft⟩ := hread htags rfl
        have hskip := (hpairs head).complete hnext hmax hleft
          ⟨entries.map fun entry => entry.1 ++ entry.2, flatMap_def ▸ rfl,
            by rw [length_map]; exact hcount,
            by
              rintro _ hpart
              obtain ⟨entry, hentry, rfl⟩ := mem_map.mp hpart
              exact ⟨entry.1, entry.2, rfl, hkeys entry hentry, hvalues entry hentry⟩⟩
        rw [skipItemWithin_of_head hhead]
        rw [if_neg, if_neg, if_neg, maxDepth_after, hmax,
          bind_of_eq_ok (deeper_eq_ok.mpr ⟨rfl, hlevel⟩), if_neg, hskip, after_after,
            ← length_append]
        · rw [hmajor]; decide
        · rw [hmajor]; decide
        · rw [hmajor]; decide
        · rw [hmajor]; decide

/-- The skipper passes over exactly the items. -/
theorem skipItem_eq_ok {depth : Int} : self.skipItem depth = .ok s ↔
      ∃ bytes next, self.rest = bytes ++ next ∧ Item self.maxDepth depth bytes ∧
        s = self.after bytes.length := by
  have hpasses := passesOver_skipItemWithin self.maxDepth (self.rest.length + 1) depth
  constructor
  · intro h
    exact hpasses.sound h rfl
  · rintro ⟨bytes, next, hrest, hitem, rfl⟩
    exact hpasses.complete hrest rfl (Nat.lt_succ_self _) hitem

end CborDeserializer

end Wado.Cbor
