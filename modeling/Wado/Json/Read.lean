/-
The reader of any value takes what the skipper takes: the two stop at the same byte, unless
the reader meets a number out of range.
-/
import Wado.Json.Skip

namespace Wado.Json

open ExceptSteps List
open Cbor (DeserializeErrorKind DeserializeError)
open Cbor.CborDeserializer (deeper)

namespace JsonDeserializer

/-- `s` is `de` with `bytes` read, at the same level. -/
structure Moves (de : JsonDeserializer) (bytes : List UInt8) (s : JsonDeserializer) : Prop where
  rest : de.rest = bytes ++ s.rest
  pos : s.pos = de.pos + bytes.length
  maxDepth : s.maxDepth = de.maxDepth
  depth : s.depth % 2 ^ 32 = de.depth % 2 ^ 32
  firstEntry : de.firstEntry = false → s.firstEntry = false

/-- `s` is `de` with `bytes` read, the last of which closes a container. -/
structure Leaves (de : JsonDeserializer) (bytes : List UInt8) (s : JsonDeserializer) : Prop where
  rest : de.rest = bytes ++ s.rest
  pos : s.pos = de.pos + bytes.length
  maxDepth : s.maxDepth = de.maxDepth
  depth : s.depth % 2 ^ 32 = (de.depth - 1) % 2 ^ 32
  firstEntry : s.firstEntry = false

variable {c : UInt8} {tail : List UInt8}

section Moves

variable {self s u : JsonDeserializer} {a b : List UInt8}

theorem Passes.moves (h : Passes self a s) : Moves self a s where
  rest := h.rest
  pos := h.pos
  maxDepth := h.maxDepth
  depth := by rw [h.depth]
  firstEntry := by
    intro hfirst
    rw [h.firstEntry, hfirst]

theorem Moves.trans (h : Moves self a s) (h' : Moves s b u) : Moves self (a ++ b) u where
  rest := by rw [h.rest, h'.rest, append_assoc]
  pos := by rw [h'.pos, h.pos, length_append, Nat.add_assoc]
  maxDepth := h'.maxDepth.trans h.maxDepth
  depth := h'.depth.trans h.depth
  firstEntry := fun hfirst => h'.firstEntry (h.firstEntry hfirst)

theorem Moves.leaves (h : Moves self a s) (h' : Leaves s b u) : Leaves self (a ++ b) u where
  rest := by rw [h.rest, h'.rest, append_assoc]
  pos := by rw [h'.pos, h.pos, length_append, Nat.add_assoc]
  maxDepth := h'.maxDepth.trans h.maxDepth
  depth := by
    have hdepth := h.depth
    have hdepth' := h'.depth
    omega
  firstEntry := h'.firstEntry

/-- What an entry's head changes besides the position. -/
theorem Moves.entry (h : Moves self a s) : Moves self a { s with firstEntry := false } where
  rest := h.rest
  pos := h.pos
  maxDepth := h.maxDepth
  depth := h.depth
  firstEntry := fun _ => rfl

theorem Moves.length (h : Moves self a s) : self.rest.length = a.length + s.rest.length := by
  rw [h.rest, length_append]

/-- A container that was entered and left. -/
theorem Leaves.moves (hhead : self.rest.head? = some c)
    (h : Leaves { self.after 1 with depth := level self.depth, firstEntry := true } b u) :
    Moves self (c :: b) u where
  rest := by
    have hrest : (self.after 1).rest = b ++ u.rest := h.rest
    rw [(Passes.head hhead).rest, hrest]
    rfl
  pos := by
    have hpos := h.pos
    rw [hpos, length_cons]
    change self.pos + 1 + b.length = _
    omega
  maxDepth := h.maxDepth
  depth := by
    have hdepth := h.depth
    unfold level at hdepth
    dsimp only at hdepth
    omega
  firstEntry := fun _ => h.firstEntry

variable {close : UInt8}

theorem closeContainer_eq_ok (hclose : ¬ IsWs close) (h : self.closeContainer close = .ok s) :
    ∃ ws, Ws ws ∧ Leaves self (ws ++ [close]) s := by
  obtain ⟨t, hchar, h⟩ := bind_eq_ok.mp h
  cases h
  obtain ⟨ws, hws, hpasses⟩ := (expectChar_eq_ok hclose).mp hchar
  refine ⟨ws, hws, hpasses.rest, hpasses.pos, hpasses.maxDepth, ?_, rfl⟩
  have hdepth := hpasses.depth
  dsimp only
  omega

theorem closeContainer_of_passes (hclose : ¬ IsWs close) (h : Passes self [close] s) :
    ∃ u, self.closeContainer close = .ok u ∧ Leaves self [close] u := by
  have hchar : self.expectChar close = .ok s :=
    (expectChar_eq_ok hclose).mpr ⟨[], ws_nil, h⟩
  refine ⟨_, bind_of_eq_ok hchar, h.rest, h.pos, h.maxDepth, ?_, rfl⟩
  have hdepth := h.depth
  dsimp only
  omega

/-- Whitespace before a byte that is none. -/
theorem peek_of_rest {ws : List UInt8} (hws : Ws ws)
    (hc : ¬ IsWs c) (hrest : self.rest = ws ++ c :: tail) :
    ∃ t, Passes self ws t ∧ t.rest = c :: tail ∧ self.peekAfterWhitespace = (some c, t) := by
  obtain ⟨hpasses, htail⟩ := Passes.of_rest hrest
  refine ⟨_, hpasses, htail, ?_⟩
  rw [peek_eq hws hpasses, htail]
  · rfl
  · rw [htail]
    rintro _ ⟨⟩
    exact hc

end Moves

section Overflow

variable {infinite : ScannedNumber → List UInt8 → Bool}

/-- The reading ends at a number that is out of range. -/
def Overflows (infinite : ScannedNumber → List UInt8 → Bool)
    (x : Except DeserializeError JsonDeserializer) : Prop :=
  ∃ e, x = .error e ∧ e.kind = .overflow ∧ ∃ n digits, infinite n digits = true

theorem Overflows.bind {x : Except DeserializeError JsonDeserializer} (h : Overflows infinite x)
    (f : JsonDeserializer → Except DeserializeError JsonDeserializer) :
    Overflows infinite (x >>= f) := by
  obtain ⟨e, hx, he⟩ := h
  exact ⟨e, bind_of_eq_error hx, he⟩

/-- A reader that takes the items of a kind where no byte after them could go on with them,
numbers out of range apart: from any deserializer of a `maxDepth` at a level with fewer than
`bound` bytes left. -/
structure Visits (infinite : ScannedNumber → List UInt8 → Bool) (maxDepth depth : Int)
    (bound : Nat) (item : List UInt8 → Prop) (read : Skipper) : Prop where
  sound : ∀ {self s}, self.maxDepth = maxDepth → self.depth % 2 ^ 32 = depth % 2 ^ 32 →
    self.rest.length < bound → read self = .ok s → ∃ bytes, item bytes ∧ Moves self bytes s
  complete : ∀ {self bytes tail}, self.maxDepth = maxDepth →
    self.depth % 2 ^ 32 = depth % 2 ^ 32 → self.rest.length < bound → item bytes →
    self.rest = bytes ++ tail → Stops tail →
    (∃ s, read self = .ok s ∧ Moves self bytes s) ∨ Overflows infinite (read self)

end Overflow

variable {fuel : Nat}

section Entries

/-- Reads entries to the end of a container: what `visitElements` and `visitMembers` have in
common. -/
def visitEntries (read : Skipper) (close : UInt8) : Nat → Skipper
  | 0, self => self.fail .eof
  | fuel + 1, self => do
    let (more, self) ← self.entryHead close
    if more then visitEntries read close fuel (← read self) else self.closeContainer close

theorem visitElements_eq (read : Skipper) (fuel : Nat) (self : JsonDeserializer) :
    visitElements read fuel self = visitEntries read closeBracket fuel self := by
  induction fuel generalizing self with
  | zero => rfl
  | succ fuel ih =>
    unfold visitElements visitEntries nextElement
    simp only [ih, bind_assoc]
    congr 1
    funext ⟨more, t⟩
    cases more with
    | false => rfl
    | true =>
      simp only [not_true_eq_false, if_false, if_true, bind_assoc]
      rfl

theorem visitMembers_eq (read : Skipper) (fuel : Nat) (self : JsonDeserializer) :
    visitMembers read fuel self = visitEntries (fun self => do
        let (_, self) ← self.readJsonString
        read (← self.expectChar colon)) closeBrace fuel self := by
  induction fuel generalizing self with
  | zero => rfl
  | succ fuel ih =>
    unfold visitMembers visitEntries nextKey
    simp only [ih, bind_assoc]
    congr 1
    funext ⟨more, t⟩
    cases more with
    | false => rfl
    | true =>
      simp only [not_true_eq_false, if_false, if_true, bind_assoc]
      rfl

/-- What is left of a container, `first` telling whether no entry of it was read. -/
def Body (close : UInt8) (entries : List UInt8 → Prop) (first : Bool) (bytes : List UInt8) : Prop :=
  (∃ ws, Ws ws ∧ bytes = ws ++ [close]) ∨
    ∃ ws body, Ws ws ∧ entries body ∧ bytes = ws ++ (if first then body else comma :: body)

variable {infinite : ScannedNumber → List UInt8 → Bool} {maxDepth depth : Int} {bound : Nat}
  {close : UInt8} {item entries : List UInt8 → Prop} {read : Skipper}

theorem afterEntry_iff_body :
    AfterEntry close entries tail ↔ Body close entries false tail := by
  constructor
  · rintro ⟨ws, hws, rfl | ⟨body, hbody, rfl⟩⟩
    · exact .inl ⟨ws, hws, rfl⟩
    · exact .inr ⟨ws, body, hws, hbody, rfl⟩
  · rintro (⟨ws, hws, rfl⟩ | ⟨ws, body, hws, hbody, rfl⟩)
    · exact ⟨ws, hws, .inl rfl⟩
    · exact ⟨ws, hws, .inr ⟨body, hbody, rfl⟩⟩

section

variable (hclose : close = closeBracket ∨ close = closeBrace)
include hclose

theorem visitEntries_sound (hentries : IsEntries close item entries)
    (hread : Visits infinite maxDepth depth bound item read)
    {self s : JsonDeserializer} (hmax : self.maxDepth = maxDepth)
    (hdepth : self.depth % 2 ^ 32 = depth % 2 ^ 32) (hbound : self.rest.length < bound)
    (h : visitEntries read close fuel self = .ok s) :
    ∃ bytes, Body close entries self.firstEntry bytes ∧ Leaves self bytes s := by
  have hws : ¬ IsWs close := by
    unfold IsWs
    rcases hclose with rfl | rfl
    · decide
    · decide
  induction fuel generalizing self with
  | zero => cases h
  | succ fuel ih =>
    unfold visitEntries at h
    obtain ⟨⟨more, t⟩, hentry, h⟩ := bind_eq_ok.mp h
    obtain ⟨ws, u, hws', hpasses, hpeek, _⟩ := self.peek_passes
    unfold entryHead at hentry
    rw [hpeek] at hentry
    cases hhead : u.rest.head? with
    | none =>
      rw [hhead] at hentry
      cases hentry
    | some b =>
      rw [hhead] at hentry
      dsimp only at hentry
      -- the entry that starts at `v`, and what is left after it
      have hmore : ∀ v before, Moves self before v → v.firstEntry = false →
          (read v >>= visitEntries read close fuel) = .ok s →
          ∃ body, entries body ∧ Leaves self (before ++ body) s := by
        intro v before hmoves hfirst h
        obtain ⟨w, hitem, h⟩ := bind_eq_ok.mp h
        have hlen := hmoves.length
        obtain ⟨bytes, hbytes, hmoves'⟩ := hread.sound (hmoves.maxDepth.trans hmax)
          (hmoves.depth.trans hdepth) (by omega) hitem
        have hlen' := hmoves'.length
        obtain ⟨body, hbody, hleaves⟩ := ih
          ((hmoves'.maxDepth.trans hmoves.maxDepth).trans hmax)
          ((hmoves'.depth.trans hmoves.depth).trans hdepth) (by omega) h
        rw [hmoves'.firstEntry hfirst] at hbody
        refine ⟨bytes ++ body, ?_, hmoves.leaves (hmoves'.leaves hleaves)⟩
        exact (hentries _).mpr ⟨bytes, body, hbytes, afterEntry_iff_body.mpr hbody, rfl⟩
      by_cases hb : b = close
      · rw [if_pos hb] at hentry
        cases hentry
        obtain ⟨ws', hws'', hleaves⟩ := closeContainer_eq_ok hws h
        have hall := hpasses.moves.leaves hleaves
        rw [← append_assoc] at hall
        exact ⟨_, .inl ⟨ws ++ ws', Ws.append hws' hws'', rfl⟩, hall⟩
      · rw [if_neg hb] at hentry
        by_cases hfirst : u.firstEntry = true
        · rw [if_pos hfirst] at hentry
          cases hentry
          obtain ⟨body, hbody, hleaves⟩ := hmore _ ws hpasses.moves.entry rfl h
          refine ⟨ws ++ body, .inr ⟨ws, body, hws', hbody, ?_⟩, hleaves⟩
          rw [← hpasses.firstEntry, hfirst, if_pos rfl]
        · rw [if_neg hfirst] at hentry
          by_cases hcomma : b = comma
          · rw [if_neg (not_not.mpr hcomma)] at hentry
            cases hentry
            have hone := (hpasses.trans (Passes.head hhead)).moves.entry
            obtain ⟨body, hbody, hleaves⟩ := hmore _ _ hone rfl h
            rw [append_assoc] at hleaves
            refine ⟨ws ++ comma :: body, .inr ⟨ws, body, hws', hbody, ?_⟩, hcomma ▸ hleaves⟩
            rw [← hpasses.firstEntry, if_neg hfirst]
          · rw [if_pos hcomma] at hentry
            cases hentry

theorem visitEntries_complete
    (hentries : IsEntries close item entries) (hpadded : Padded close entries)
    (hne : ∀ bytes, item bytes → bytes ≠ [])
    (hread : Visits infinite maxDepth depth bound item read)
    {self : JsonDeserializer} {bytes tail : List UInt8} (hmax : self.maxDepth = maxDepth)
    (hdepth : self.depth % 2 ^ 32 = depth % 2 ^ 32) (hbound : self.rest.length < bound)
    (hfuel : self.rest.length < fuel) (hbody : Body close entries self.firstEntry bytes)
    (hrest : self.rest = bytes ++ tail) :
    (∃ s, visitEntries read close fuel self = .ok s ∧ Leaves self bytes s) ∨
      Overflows infinite (visitEntries read close fuel self) := by
  have hws : ¬ IsWs close ∧ ¬ IsWs comma ∧ comma ≠ close := by
    unfold IsWs
    rcases hclose with rfl | rfl
    · decide
    · decide
  induction fuel generalizing self bytes with
  | zero => exact absurd hfuel (Nat.not_lt_zero _)
  | succ fuel ih =>
    -- the entry that starts at `v`, and what is left after it
    have hmore : ∀ v before body, Moves self before v → v.firstEntry = false → entries body →
        v.rest = body ++ tail →
        (∃ s, (read v >>= visitEntries read close fuel) = .ok s ∧ Leaves self (before ++ body) s) ∨
          Overflows infinite (read v >>= visitEntries read close fuel) := by
      intro v before body hmoves hfirst hbody hrest
      obtain ⟨entry, after, hentry, hafter, rfl⟩ := (hentries body).mp hbody
      have hlen := hmoves.length
      rw [append_assoc] at hrest
      rcases hread.complete (hmoves.maxDepth.trans hmax) (hmoves.depth.trans hdepth) (by omega)
        hentry hrest (hafter.stops hclose tail) with ⟨w, hw, hmoves'⟩ | hover
      · rw [bind_of_eq_ok hw]
        have hlen' := hmoves'.length
        have hpos := length_pos_iff.mpr (hne entry hentry)
        have hwrest : w.rest = after ++ tail :=
          append_cancel_left (hmoves'.rest.symm.trans hrest)
        rcases ih ((hmoves'.maxDepth.trans hmoves.maxDepth).trans hmax)
          ((hmoves'.depth.trans hmoves.depth).trans hdepth) (by omega) (by omega)
          ((hmoves'.firstEntry hfirst).symm ▸ afterEntry_iff_body.mp hafter) hwrest with
          ⟨s, hs, hleaves⟩ | hover
        · exact .inl ⟨s, hs, hmoves.leaves (hmoves'.leaves hleaves)⟩
        · exact .inr hover
      · exact .inr (hover.bind _)
    unfold visitEntries entryHead
    rcases hbody with ⟨ws, hws', rfl⟩ | ⟨ws, body, hws', hbody, rfl⟩
    · rw [append_assoc] at hrest
      obtain ⟨t, ht, htrest, hpeek⟩ := peek_of_rest hws' hws.1 hrest
      have hone : Passes t [close] (t.after 1) := (Passes.of_rest (a := [close]) htrest).1
      obtain ⟨s, hs, hleaves⟩ := closeContainer_of_passes hws.1 hone
      rw [hpeek]
      dsimp only
      rw [if_pos rfl]
      exact .inl ⟨s, hs, ht.moves.leaves hleaves⟩
    · by_cases hfirst : self.firstEntry = true
      · rw [if_pos hfirst] at hrest ⊢
        obtain ⟨ws', b, more, hws'', rfl, hmore', hb, hbne⟩ := hpadded.strip hbody
        rw [← append_assoc, append_assoc] at hrest
        obtain ⟨t, ht, htrest, hpeek⟩ := peek_of_rest (Ws.append hws' hws'') hb hrest
        rw [hpeek]
        dsimp only
        rw [if_neg hbne, if_pos (ht.firstEntry.trans hfirst)]
        have hgoal := hmore _ _ _ ht.moves.entry rfl hmore' htrest
        rw [append_assoc] at hgoal
        exact hgoal
      · rw [if_neg hfirst] at hrest ⊢
        rw [append_assoc] at hrest
        obtain ⟨t, ht, htrest, hpeek⟩ := peek_of_rest hws' hws.2.1 hrest
        rw [hpeek]
        dsimp only
        rw [if_neg hws.2.2, if_neg (by rw [ht.firstEntry]; exact hfirst), if_neg (by simp)]
        have hone : Passes t [comma] (t.after 1) := (Passes.of_rest (a := [comma]) htrest).1
        have hgoal := hmore _ _ _ (ht.trans hone).moves.entry rfl hbody
          (Passes.of_rest (a := [comma]) htrest).2
        rw [append_assoc] at hgoal
        exact hgoal

end

theorem key_of_string {ws chars ws' : List UInt8} (hws : Ws ws) (hchars : Chars chars)
    (hws' : Ws ws') :
    Key ((ws ++ quote :: (chars ++ [quote])) ++ (ws' ++ [colon])) := by
  have hkey := Key.mk hws hchars hws'
  rw [← append_assoc] at hkey
  exact hkey

/-- A reader of values makes one of members. -/
theorem Visits.member {value : List UInt8 → Prop}
    (h : Visits infinite maxDepth depth bound (Spaced value) read) :
    Visits infinite maxDepth depth bound (Member value) (fun self => do
      let (_, self) ← self.readJsonString
      read (← self.expectChar colon)) := by
  have hcolon : ¬ IsWs colon := by decide
  constructor
  · intro self s hmax hdepth hbound hread
    obtain ⟨⟨text, t⟩, hkey, hread⟩ := bind_eq_ok.mp hread
    obtain ⟨u, hchar, hvalue⟩ := bind_eq_ok.mp hread
    obtain ⟨ws, chars, hws, hchars, hpasses⟩ := readJsonString_eq_ok.mp ⟨text, hkey⟩
    obtain ⟨ws', hws', hpasses'⟩ := (expectChar_eq_ok hcolon).mp hchar
    have hall := hpasses.trans hpasses'
    have hlen := hall.length
    obtain ⟨v, hv, hlast⟩ := h.sound (hall.maxDepth.trans hmax) (by rw [hall.depth, hdepth])
      (by omega) hvalue
    exact ⟨_, ⟨_, v, key_of_string hws hchars hws', hv, rfl⟩, hall.moves.trans hlast⟩
  · rintro self _ tail hmax hdepth hbound ⟨_, v, hkey, hv, rfl⟩ hrest hstops
    cases hkey with
    | @mk before chars after hbefore hchars hafter =>
      rw [append_assoc] at hrest
      obtain ⟨u, hall, hvrest⟩ : ∃ u, Passes self _ u ∧ u.rest = v ++ tail :=
        ⟨_, Passes.of_rest hrest⟩
      have hlen := hall.length
      rw [← append_assoc] at hall
      obtain ⟨t, ht, hlast⟩ := Passes.split hall
      obtain ⟨text, htext⟩ := readJsonString_eq_ok.mpr ⟨before, chars, hbefore, hchars, ht⟩
      rw [bind_of_eq_ok htext]
      dsimp only
      rw [bind_of_eq_ok ((expectChar_eq_ok hcolon).mpr ⟨after, hafter, hlast⟩)]
      rw [append_assoc] at hall
      rcases h.complete (hall.maxDepth.trans hmax) (by rw [hall.depth, hdepth]) (by omega) hv
        hvrest hstops with ⟨s, hs, hmoves⟩ | hover
      · exact .inl ⟨s, hs, hall.moves.trans hmoves⟩
      · exact .inr hover

end Entries

section Values

variable {infinite : ScannedNumber → List UInt8 → Bool} {self s : JsonDeserializer}

theorem level_eq_of_mod {depth depth' : Int} (h : depth % 2 ^ 32 = depth' % 2 ^ 32) :
    level depth = level depth' := by
  unfold level
  omega

variable {v : List UInt8}

theorem value_of_level {maxDepth depth depth' : Int}
    (h : Value maxDepth depth v) (hlevel : level depth = level depth') :
    Value maxDepth depth' v := by
  cases h with
  | literal h => exact .literal h
  | number h => exact .number h
  | string h => exact .string h
  | array hle h => exact .array (hlevel ▸ hle) (hlevel ▸ h)
  | emptyArray hle h => exact .emptyArray (hlevel ▸ hle) h
  | object hle h => exact .object (hlevel ▸ hle) (hlevel ▸ h)
  | emptyObject hle h => exact .emptyObject (hlevel ▸ hle) h

variable {maxDepth depth : Int}

variable {bytes : List UInt8}

theorem value_ne_nil (h : Spaced (Value maxDepth depth) bytes) : bytes ≠ [] := by
  obtain ⟨ws, v, _, hv, rfl⟩ := h
  obtain ⟨b, rest, rfl, _⟩ := hv.head
  simp

theorem member_ne_nil (h : Member (Value maxDepth depth) bytes) : bytes ≠ [] := by
  obtain ⟨_, v, _, hv, rfl⟩ := h
  have hne := value_ne_nil hv
  simp [hne]

/-- No whitespace is passed over where none stands. -/
theorem ws_eq_nil {ws bytes : List UInt8} {b : UInt8} (hws : Ws ws)
    (hhead : self.rest.head? = some b) (hb : ¬ IsWs b) (h : Passes self (ws ++ bytes) s) :
    ws = [] := by
  cases ws with
  | nil => rfl
  | cons c ws =>
    obtain rfl := Option.some.inj (hhead.symm.trans h.head?)
    exact absurd (hws b (mem_cons_self ..)) hb

/-- A container is opened at its first byte. -/
theorem openContainer_eq_ok (hc : ¬ IsWs c) (hhead : self.rest.head? = some c) :
    self.openContainer c = .ok s ↔ level self.depth ≤ self.maxDepth ∧
        s = { self.after 1 with depth := level self.depth, firstEntry := true } := by
  have hchar : self.expectChar c = .ok (self.after 1) :=
    (expectChar_eq_ok hc).mpr ⟨[], ws_nil, Passes.head hhead⟩
  rw [openContainer, bind_of_eq_ok hchar, bind_eq_ok]
  simp only [json_deeper_eq_ok, and_assoc, exists_eq_left]
  constructor
  · rintro ⟨hlevel, h⟩
    cases h
    exact ⟨hlevel, rfl⟩
  · rintro ⟨hlevel, rfl⟩
    exact ⟨hlevel, rfl⟩

variable {item entries : List UInt8 → Prop}

variable {c close : UInt8} {read : Skipper}

/-- What a container's reader takes from its opening byte on. -/
theorem container_sound {bound : Nat} (hc : ¬ IsWs c) (hhead : self.rest.head? = some c)
    (hclose : close = closeBracket ∨ close = closeBrace)
    (hentries : IsEntries close item entries) (hpadded : Padded close entries)
    (hread : Visits infinite self.maxDepth (level self.depth) bound item read)
    (hbound : self.rest.length < bound + 1)
    (h : (self.openContainer c >>= fun t => visitEntries read close (t.rest.length + 1) t) =
      .ok s) :
    ∃ body, level self.depth ≤ self.maxDepth ∧
      ((∃ ws, Ws ws ∧ body = ws ++ [close]) ∨ entries body) ∧ Moves self (c :: body) s := by
  obtain ⟨t, hopen, h⟩ := bind_eq_ok.mp h
  obtain ⟨hlevel, ht⟩ := (openContainer_eq_ok hc hhead).mp hopen
  have hlen : self.rest.length = 1 + (self.after 1).rest.length := (Passes.head hhead).length
  have hmax : t.maxDepth = self.maxDepth := by rw [ht]; rfl
  have hdepth : t.depth = level self.depth := by rw [ht]
  have hrest : t.rest = (self.after 1).rest := by rw [ht]
  have hfirst : t.firstEntry = true := by rw [ht]
  obtain ⟨body, hbody, hleaves⟩ := visitEntries_sound hclose hentries hread hmax (by rw [hdepth])
    (by
      rw [hrest]
      omega) h
  rw [hfirst] at hbody
  rw [ht] at hleaves
  refine ⟨body, hlevel, ?_, hleaves.moves hhead⟩
  rcases hbody with ⟨ws, hws, rfl⟩ | ⟨ws, more, hws, hmore, rfl⟩
  · exact .inl ⟨ws, hws, rfl⟩
  · exact .inr (hpadded.pad hws hmore)

theorem container_complete {bound : Nat} {body tail : List UInt8} (hc : ¬ IsWs c)
    (hclose : close = closeBracket ∨ close = closeBrace)
    (hentries : IsEntries close item entries) (hpadded : Padded close entries)
    (hne : ∀ bytes, item bytes → bytes ≠ [])
    (hread : Visits infinite self.maxDepth (level self.depth) bound item read)
    (hbound : self.rest.length < bound + 1) (hlevel : level self.depth ≤ self.maxDepth)
    (hbody : (∃ ws, Ws ws ∧ body = ws ++ [close]) ∨ entries body)
    (hrest : self.rest = c :: body ++ tail) :
    (∃ s, (self.openContainer c >>= fun t => visitEntries read close (t.rest.length + 1) t) =
      .ok s ∧
        Moves self (c :: body) s) ∨
      Overflows infinite
        (self.openContainer c >>= fun t => visitEntries read close (t.rest.length + 1) t) := by
  have hhead : self.rest.head? = some c := by
    rw [hrest]
    rfl
  have hlen : self.rest.length = 1 + (self.after 1).rest.length := (Passes.head hhead).length
  have hafter : (self.after 1).rest = body ++ tail := (Passes.of_rest (a := [c]) hrest).2
  rw [bind_of_eq_ok ((openContainer_eq_ok hc hhead).mpr ⟨hlevel, rfl⟩)]
  have hbody' : Body close entries true body := by
    rcases hbody with ⟨ws, hws, rfl⟩ | hbody
    · exact .inl ⟨ws, hws, rfl⟩
    · exact .inr ⟨[], body, ws_nil, hbody, rfl⟩
  have hbound' : (self.after 1).rest.length < bound := by omega
  have hentered : ∀ t : JsonDeserializer,
      t = { self.after 1 with depth := level self.depth, firstEntry := true } →
      (∃ s, visitEntries read close (t.rest.length + 1) t = .ok s ∧ Leaves t body s) ∨
        Overflows infinite (visitEntries read close (t.rest.length + 1) t) := by
    rintro t rfl
    exact visitEntries_complete hclose hentries hpadded hne hread rfl rfl hbound'
      (Nat.lt_succ_self _) hbody' hafter
  rcases hentered _ rfl with ⟨s, hs, hleaves⟩ | hover
  · exact .inl ⟨s, hs, hleaves.moves hhead⟩
  · exact .inr hover

/-- The reader of literals, at the first byte of one. -/
theorem isNull_eq (hhead : self.rest.head? = some (letter 'n')) :
    (do return (← self.isNull).2 : Except DeserializeError JsonDeserializer) = self.expectNull := by
  have hpeek := peek_eq ws_nil (Passes.nil self) (by
    rw [hhead]
    rintro _ ⟨⟩
    unfold IsWs
    decide)
  unfold isNull
  rw [hpeek, hhead]
  dsimp only
  rw [if_pos rfl]
  cases self.expectNull with
  | ok s => rfl
  | error e => rfl

theorem deserializeBool_eq {b : UInt8} (hhead : self.rest.head? = some b)
    (hb : b = letter 't' ∨ b = letter 'f') :
    (do return (← self.deserializeBool).2 : Except DeserializeError JsonDeserializer) =
      if b = letter 't' then self.expectTrue else self.expectFalse := by
  have hws : ¬ IsWs b := by
    unfold IsWs
    rcases hb with rfl | rfl
    · decide
    · decide
  have hpeek := peek_eq ws_nil (Passes.nil self) (by
    rw [hhead]
    rintro _ ⟨⟩
    exact hws)
  unfold deserializeBool
  rw [hpeek, hhead]
  dsimp only
  by_cases ht : b = letter 't'
  · rw [if_pos ht, if_pos ht]
    cases self.expectTrue with
    | ok s => rfl
    | error e => rfl
  · rw [if_neg ht, if_pos (hb.resolve_left ht), if_neg ht]
    cases self.expectFalse with
    | ok s => rfl
    | error e => rfl

theorem deserializeString_eq_ok (hhead : self.rest.head? = some quote) :
    (do return (← self.deserializeString).2 : Except DeserializeError JsonDeserializer) = .ok s ↔
      ∃ chars, Chars chars ∧ Passes self (quote :: (chars ++ [quote])) s := by
  have hws : ¬ IsWs quote := by decide
  constructor
  · intro h
    obtain ⟨⟨text, t⟩, hread, h⟩ := bind_eq_ok.mp h
    cases h
    obtain ⟨ws, chars, hws', hchars, hpasses⟩ := readJsonString_eq_ok.mp ⟨text, hread⟩
    obtain rfl := ws_eq_nil hws' hhead hws hpasses
    exact ⟨chars, hchars, hpasses⟩
  · rintro ⟨chars, hchars, hpasses⟩
    obtain ⟨text, htext⟩ := readJsonString_eq_ok.mpr ⟨[], chars, ws_nil, hchars, hpasses⟩
    exact bind_of_eq_ok htext

variable {lead : Option UInt8} {n : ScannedNumber}

/-- A number that is read is one that is scanned, and in range. -/
theorem parseFloatBits_eq_ok (h : self.parseFloatBits infinite lead = .ok (n, s)) :
    self.scanNumberInto lead = .ok (n, s) := by
  unfold parseFloatBits at h
  obtain ⟨⟨m, t⟩, hscan, h⟩ := bind_eq_ok.mp h
  dsimp only at h
  split_ifs at h
  · cases h
  · cases h
    exact hscan

theorem parseFloatBits_of_scan (h : self.scanNumberInto lead = .ok (n, s)) :
    self.parseFloatBits infinite lead = .ok (n, s) ∨
      ∃ e, self.parseFloatBits infinite lead = .error e ∧ e.kind = .overflow ∧
        ∃ m digits, infinite m digits = true := by
  unfold parseFloatBits
  rw [bind_of_eq_ok h]
  dsimp only
  split_ifs with hinfinite
  · exact .inr ⟨_, rfl, rfl, _, _, hinfinite⟩
  · exact .inl rfl

theorem literal_moves {l : String} (hv : v = l.toList.map letter) (hrest : self.rest = v ++ tail) :
    ∃ s, self.expectLiteral l = .ok s ∧ Moves self v s := by
  obtain ⟨s, hpasses⟩ : ∃ s, Passes self v s := ⟨_, (Passes.of_rest hrest).1⟩
  exact ⟨s, expectLiteral_eq_ok.mpr (hv ▸ hpasses), hpasses.moves⟩

theorem ignoredAny_sound_step (hvalues : ∀ maxDepth depth, Visits infinite maxDepth depth fuel
      (Spaced (Value maxDepth depth)) (ignoredAnyWithin infinite fuel))
    (hfuel : self.rest.length < fuel + 1) (h : ignoredAnyWithin infinite (fuel + 1) self = .ok s) :
    ∃ ws v, Ws ws ∧ Value self.maxDepth self.depth v ∧ Delimited v s.rest ∧
      Moves self (ws ++ v) s := by
  obtain ⟨ws, t, hws, hpasses, hpeek, hstop⟩ := self.peek_passes
  have hlen := hpasses.length
  unfold ignoredAnyWithin at h
  rw [hpeek] at h
  cases hhead : t.rest.head? with
  | none =>
    rw [hhead] at h
    cases h
  | some b =>
    rw [hhead] at h
    dsimp only at h
    have hbws := hstop b hhead
    have hvalue : ∃ v, ValueFrom t.maxDepth t.depth s.rest b v ∧ Moves t v s := by
      by_cases hn : b = letter 'n'
      · subst hn
        rw [if_pos rfl, isNull_eq hhead] at h
        exact ⟨_, valueFrom_n.mpr rfl, (expectLiteral_eq_ok.mp h).moves⟩
      rw [if_neg hn] at h
      by_cases hbool : b = letter 't' ∨ b = letter 'f'
      · rw [if_pos hbool, deserializeBool_eq hhead hbool] at h
        rcases hbool with rfl | rfl
        · rw [if_pos rfl] at h
          exact ⟨_, valueFrom_t.mpr rfl, (expectLiteral_eq_ok.mp h).moves⟩
        · rw [if_neg (by decide)] at h
          exact ⟨_, valueFrom_f.mpr rfl, (expectLiteral_eq_ok.mp h).moves⟩
      rw [if_neg hbool] at h
      by_cases hquote : b = quote
      · subst hquote
        rw [if_pos rfl, deserializeString_eq_ok hhead] at h
        obtain ⟨chars, hchars, hlast⟩ := h
        exact ⟨_, valueFrom_quote.mpr ⟨chars, hchars, rfl⟩, hlast.moves⟩
      rw [if_neg hquote] at h
      by_cases hbracket : b = openBracket
      · subst hbracket
        rw [if_pos rfl] at h
        unfold visitSeq at h
        simp only [visitElements_eq] at h
        obtain ⟨body, hlevel, hbody, hmoves⟩ := container_sound hbws hhead (.inl rfl)
          (elements_isEntries _ _) (elements_padded _ _) (hvalues _ _) (by omega) h
        exact ⟨_, valueFrom_openBracket.mpr ⟨hlevel, body, rfl, hbody⟩, hmoves⟩
      rw [if_neg hbracket] at h
      by_cases hbrace : b = openBrace
      · subst hbrace
        rw [if_pos rfl] at h
        unfold visitMap at h
        simp only [visitMembers_eq] at h
        obtain ⟨body, hlevel, hbody, hmoves⟩ := container_sound hbws hhead (.inr rfl)
          (members_isEntries _ _) (members_padded _ _) (hvalues _ _).member (by omega) h
        exact ⟨_, valueFrom_openBrace.mpr ⟨hlevel, body, rfl, hbody⟩, hmoves⟩
      rw [if_neg hbrace] at h
      by_cases hnumber : b = minus ∨ 0x30 ≤ b ∧ b ≤ 0x39
      · rw [if_pos hnumber] at h
        obtain ⟨⟨n, u⟩, hparse, h⟩ := bind_eq_ok.mp h
        cases h
        have hscan := parseFloatBits_eq_ok hparse
        rw [← hhead] at hscan
        obtain ⟨bytes, hbytes, hlast⟩ := scanNumberInto_eq_ok.mp ⟨n, hscan⟩
        exact ⟨bytes, (valueFrom_number hnumber).mpr hbytes, hlast.moves⟩
      · rw [if_neg hnumber] at h
        cases h
    obtain ⟨v, hfrom, hmoves⟩ := hvalue
    obtain ⟨rest, rfl⟩ := hfrom.cons (hmoves.rest ▸ hhead)
    obtain ⟨hv, hdelimited⟩ := valueFrom_iff.mp hfrom
    rw [hpasses.maxDepth, hpasses.depth] at hv
    exact ⟨ws, _, hws, hv, hdelimited, hpasses.moves.trans hmoves⟩

theorem ignoredAny_complete_step {ws v tail : List UInt8}
    (hvalues : ∀ maxDepth depth, Visits infinite maxDepth depth fuel
      (Spaced (Value maxDepth depth)) (ignoredAnyWithin infinite fuel))
    (hfuel : self.rest.length < fuel + 1) (hws : Ws ws)
    (hv : Value self.maxDepth self.depth v) (hdelimited : Delimited v tail)
    (hrest : self.rest = ws ++ v ++ tail) :
    (∃ s, ignoredAnyWithin infinite (fuel + 1) self = .ok s ∧ Moves self (ws ++ v) s) ∨
      Overflows infinite (ignoredAnyWithin infinite (fuel + 1) self) := by
  obtain ⟨b, rest, rfl, hb⟩ := hv.head
  rw [append_assoc] at hrest
  obtain ⟨t, hpasses, htrest, hpeek⟩ := peek_of_rest hws hb.not.1 hrest
  rw [← hpasses.maxDepth, ← hpasses.depth] at hv
  have hfrom := valueFrom_iff.mpr ⟨hv, hdelimited⟩
  have hhead : t.rest.head? = some b := by rw [htrest]; rfl
  have hlen := hpasses.length
  have hbws := hb.not.1
  have hread : (∃ s, ignoredAnyWithin infinite (fuel + 1) self = .ok s ∧ Moves t (b :: rest) s) ∨
      Overflows infinite (ignoredAnyWithin infinite (fuel + 1) self) := by
    unfold ignoredAnyWithin
    rw [hpeek]
    dsimp only
    by_cases hn : b = letter 'n'
    · subst hn
      rw [if_pos rfl, isNull_eq hhead]
      exact .inl (literal_moves (valueFrom_n.mp hfrom) htrest)
    rw [if_neg hn]
    by_cases hbool : b = letter 't' ∨ b = letter 'f'
    · rw [if_pos hbool, deserializeBool_eq hhead hbool]
      rcases hbool with rfl | rfl
      · rw [if_pos rfl]
        exact .inl (literal_moves (valueFrom_t.mp hfrom) htrest)
      · rw [if_neg (by decide)]
        exact .inl (literal_moves (valueFrom_f.mp hfrom) htrest)
    rw [if_neg hbool]
    by_cases hquote : b = quote
    · subst hquote
      rw [if_pos rfl]
      obtain ⟨chars, hchars, heq⟩ := valueFrom_quote.mp hfrom
      obtain ⟨s, hlast⟩ : ∃ s, Passes t (quote :: rest) s := ⟨_, (Passes.of_rest htrest).1⟩
      exact .inl ⟨s, (deserializeString_eq_ok hhead).mpr ⟨chars, hchars, heq ▸ hlast⟩, hlast.moves⟩
    rw [if_neg hquote]
    by_cases hbracket : b = openBracket
    · subst hbracket
      rw [if_pos rfl]
      obtain ⟨hlevel, body, heq, hbody⟩ := valueFrom_openBracket.mp hfrom
      obtain rfl : rest = body := (List.cons.inj heq).2
      unfold visitSeq
      simp only [visitElements_eq]
      exact container_complete hbws (.inl rfl) (elements_isEntries _ _) (elements_padded _ _)
        (fun _ h => value_ne_nil h) (hvalues _ _) (by omega) hlevel hbody htrest
    rw [if_neg hbracket]
    by_cases hbrace : b = openBrace
    · subst hbrace
      rw [if_pos rfl]
      obtain ⟨hlevel, body, heq, hbody⟩ := valueFrom_openBrace.mp hfrom
      obtain rfl : rest = body := (List.cons.inj heq).2
      unfold visitMap
      simp only [visitMembers_eq]
      exact container_complete hbws (.inr rfl) (members_isEntries _ _) (members_padded _ _)
        (fun _ h => member_ne_nil h) (hvalues _ _).member (by omega) hlevel hbody htrest
    rw [if_neg hbrace]
    have hnumber : b = minus ∨ Digit b := by
      unfold Starter at hb
      tauto
    obtain ⟨s, hlast, hsrest⟩ : ∃ s, Passes t (b :: rest) s ∧ s.rest = tail :=
      ⟨_, Passes.of_rest htrest⟩
    obtain ⟨n, hscan⟩ := scanNumberInto_eq_ok.mpr
      ⟨_, hsrest ▸ (valueFrom_number hnumber).mp hfrom, hlast⟩
    rw [hhead] at hscan
    unfold Digit at hnumber
    rw [if_pos hnumber]
    rcases parseFloatBits_of_scan hscan with hparse | ⟨e, hparse, he⟩
    · exact .inl ⟨s, bind_of_eq_ok hparse, hlast.moves⟩
    · exact .inr ⟨e, bind_of_eq_error hparse, he⟩
  rcases hread with ⟨s, hs, hmoves⟩ | hover
  · exact .inl ⟨s, hs, hpasses.moves.trans hmoves⟩
  · exact .inr hover

/-- The reader of any value takes values, numbers out of range apart. -/
theorem ignoredAnyWithin_visits (infinite : ScannedNumber → List UInt8 → Bool) (fuel : Nat)
    (maxDepth depth : Int) :
    Visits infinite maxDepth depth fuel (Spaced (Value maxDepth depth))
      (ignoredAnyWithin infinite fuel) := by
  induction fuel generalizing maxDepth depth with
  | zero =>
    exact ⟨fun _ _ h => absurd h (Nat.not_lt_zero _), fun _ _ h => absurd h (Nat.not_lt_zero _)⟩
  | succ fuel ih =>
    constructor
    · rintro self s rfl hdepth hfuel h
      obtain ⟨ws, v, hws, hv, _, hmoves⟩ := ignoredAny_sound_step ih hfuel h
      exact ⟨_, ⟨ws, v, hws, value_of_level hv (level_eq_of_mod hdepth), rfl⟩, hmoves⟩
    · rintro self _ tail rfl hdepth hfuel ⟨ws, v, hws, hv, rfl⟩ hrest hstops
      exact ignoredAny_complete_step ih hfuel hws (value_of_level hv (level_eq_of_mod hdepth.symm))
        hstops.delimited hrest

/-- The skipper takes the values that the byte after them does not go on with, and the reader
of any value takes the same and stops at the same byte, unless it meets a number out of
range. -/
theorem skip_and_read (infinite : ScannedNumber → List UInt8 → Bool) (self : JsonDeserializer) :
    (∀ depth s, self.skipValue depth = .ok s ↔
      ∃ ws v, Ws ws ∧ Value self.maxDepth depth v ∧ Delimited v s.rest ∧ Passes self (ws ++ v) s) ∧
    (∀ s, self.ignoredAny infinite = .ok s →
      ∃ u, self.skipValue self.depth = .ok u ∧ u.rest = s.rest ∧ u.pos = s.pos) ∧
    (∀ u, self.skipValue self.depth = .ok u →
      (∃ s, self.ignoredAny infinite = .ok s ∧ s.rest = u.rest ∧ s.pos = u.pos) ∨
        Overflows infinite (self.ignoredAny infinite)) := by
  refine ⟨fun depth s => skipValue_eq_ok, ?_, ?_⟩
  · intro s h
    obtain ⟨ws, v, hws, hv, hdelimited, hmoves⟩ := ignoredAny_sound_step
      (fun maxDepth depth => ignoredAnyWithin_visits infinite _ maxDepth depth)
      (Nat.lt_succ_self _) h
    obtain ⟨u, hpasses, hrest⟩ : ∃ u, Passes self (ws ++ v) u ∧ u.rest = s.rest :=
      ⟨_, Passes.of_rest hmoves.rest⟩
    refine ⟨u, skipValue_eq_ok.mpr ⟨ws, v, hws, hv, hrest ▸ hdelimited, hpasses⟩, hrest, ?_⟩
    rw [hpasses.pos, hmoves.pos]
  · intro u h
    obtain ⟨ws, v, hws, hv, hdelimited, hpasses⟩ := skipValue_eq_ok.mp h
    rcases ignoredAny_complete_step
      (fun maxDepth depth => ignoredAnyWithin_visits infinite _ maxDepth depth)
      (Nat.lt_succ_self _) hws hv hdelimited hpasses.rest with ⟨s, hs, hmoves⟩ | hover
    · refine .inl ⟨s, hs, ?_, ?_⟩
      · exact List.append_cancel_left (hmoves.rest.symm.trans hpasses.rest)
      · rw [hpasses.pos, hmoves.pos]
    · exact .inr hover

/-- A number starts at `01`, and the skipper refuses it. -/
theorem skip_and_read_leadingZero : ∃ self : JsonDeserializer, self.rest = [zero, 0x31] ∧
      ¬ ((∃ s, self.skipValue 0 = .ok s) ↔
        ∃ ws v s, Ws ws ∧ Value self.maxDepth 0 v ∧ Passes self (ws ++ v) s) := by
  refine ⟨⟨[zero, 0x31], 0, 100, 0, false⟩, rfl, fun h => ?_⟩
  have hnumber : Number [zero] :=
    @NumberAt.mk [] [] [zero] [] [] (.inl rfl) .zero .none .none (by simp) (by simp)
  have hskip : (skipValue 0 ⟨[zero, 0x31], 0, 100, 0, false⟩).toOption = none := by decide
  obtain ⟨s, hs⟩ := h.mpr ⟨[], [zero], _, ws_nil, .number hnumber, (Passes.of_rest rfl).1⟩
  rw [hs] at hskip
  cases hskip

end Values

end JsonDeserializer

end Wado.Json
