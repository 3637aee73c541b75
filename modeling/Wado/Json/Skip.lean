/-
The skipper of JSON's values passes over exactly the values of the grammar.
-/
import Wado.Json.Entries

namespace Wado.Json

open ExceptSteps List
open Cbor.CborDeserializer (deeper)

namespace JsonDeserializer

variable {value : List UInt8 → Prop}

section Members

variable {self s : JsonDeserializer}

theorem skipKey_eq_ok : self.skipKey = .ok s ↔ ∃ key, Key key ∧ Passes self key s := by
  have hws : ¬ IsWs quote ∧ ¬ IsWs colon := by decide
  unfold skipKey
  constructor
  · intro h
    obtain ⟨before, t, hbefore, hpasses, hpeek, _⟩ := self.peek_passes
    rw [hpeek] at h
    dsimp only at h
    by_cases hquote : t.rest.head? = some quote
    · rw [if_neg (not_not.mpr hquote)] at h
      obtain ⟨u, hstring, hcolon⟩ := bind_eq_ok.mp h
      obtain ⟨chars, hchars, hpasses'⟩ := (skipString_eq_ok hquote).mp hstring
      obtain ⟨after, hafter, hlast⟩ := (expectChar_eq_ok hws.2).mp hcolon
      exact ⟨_, .mk hbefore hchars hafter, hpasses.trans (hpasses'.trans hlast)⟩
    · rw [if_pos hquote] at h
      unfold fail at h
      split_ifs at h
  · rintro ⟨key, hkey, hpasses⟩
    cases hkey with
    | mk hbefore hchars hafter =>
      obtain ⟨t, ht, hpasses⟩ := hpasses.split
      obtain ⟨u, hu, hlast⟩ := hpasses.split
      have hquote : t.rest.head? = some quote := hu.head?
      rw [peek_eq hbefore ht (by
        rw [hquote]
        rintro _ ⟨⟩
        exact hws.1)]
      dsimp only
      rw [if_neg (not_not.mpr hquote),
        bind_of_eq_ok ((skipString_eq_ok hquote).mpr ⟨_, hchars, hu⟩)]
      exact (expectChar_eq_ok hws.2).mpr ⟨_, hafter, hlast⟩

/-- A skipper of values makes one of members. -/
theorem Takes.member {maxDepth : Int} {bound : Nat} {skip : Skipper}
    (h : Takes maxDepth bound (Spaced value) skip) :
    Takes maxDepth bound (Member value) (fun self => do skip (← self.skipKey)) := by
  constructor
  · intro self s hmax hbound hskip
    obtain ⟨t, hkey, hvalue⟩ := bind_eq_ok.mp hskip
    obtain ⟨key, hkey, hpasses⟩ := skipKey_eq_ok.mp hkey
    have hlen := hpasses.length
    obtain ⟨v, hv, hlast⟩ := h.sound (hpasses.maxDepth.trans hmax) (by omega) hvalue
    exact ⟨_, ⟨key, v, hkey, hv, rfl⟩, hpasses.trans hlast⟩
  · rintro self s _ hmax hbound ⟨key, v, hkey, hv, rfl⟩ hpasses hstops
    obtain ⟨t, ht, hlast⟩ := hpasses.split
    have hlen := ht.length
    rw [bind_of_eq_ok (skipKey_eq_ok.mpr ⟨key, hkey, ht⟩)]
    exact h.complete (ht.maxDepth.trans hmax) (by omega) hv hlast hstops

end Members

variable {self s : JsonDeserializer}

section Containers

variable {maxDepth : Int} {bound : Nat} {close : UInt8} {item entries : List UInt8 → Prop}
  {skip : Skipper}

/-- Skips what is between the brackets of a container: what `skipArrayBody` and
`skipObjectBody` have in common. -/
def skipBody (skip : Skipper) (close : UInt8) : Skipper := fun self =>
  let (b, self) := self.peekAfterWhitespace
  if b = some close then .ok (self.after 1)
  else skipEntries skip close (self.rest.length + 1) self

theorem skipArrayBody_eq (skip : Skipper) (self : JsonDeserializer) :
    self.skipArrayBody skip = skipBody skip closeBracket self := by
  unfold skipArrayBody skipBody
  simp only [skipElements_eq]

theorem skipObjectBody_eq (skip : Skipper) (self : JsonDeserializer) : self.skipObjectBody skip =
      skipBody (fun self => do skip (← self.skipKey)) closeBrace self := by
  unfold skipObjectBody skipBody
  simp only [skipMembers_eq]

/-- Entries that start with whitespace, and what is left of them after it. -/
structure Padded (close : UInt8) (entries : List UInt8 → Prop) : Prop where
  pad : ∀ {ws body}, Ws ws → entries body → entries (ws ++ body)
  strip : ∀ {body}, entries body → ∃ ws b more, Ws ws ∧ body = ws ++ b :: more ∧
    entries (b :: more) ∧ ¬ IsWs b ∧ b ≠ close

theorem skipBody_eq_ok (hclose : close = closeBracket ∨ close = closeBrace)
    (hentries : IsEntries close item entries) (hpadded : Padded close entries)
    (hskip : Takes maxDepth bound item skip)
    (hmax : self.maxDepth = maxDepth) (hbound : self.rest.length < bound) :
    skipBody skip close self = .ok s ↔ (∃ ws, Ws ws ∧ Passes self (ws ++ [close]) s) ∨
        ∃ body, entries body ∧ Passes self body s := by
  have hnotWs : ¬ IsWs close := by
    unfold IsWs
    rcases hclose with rfl | rfl
    · decide
    · decide
  unfold skipBody
  constructor
  · intro h
    obtain ⟨ws, t, hws, hpasses, hpeek, _⟩ := self.peek_passes
    have hlen := hpasses.length
    rw [hpeek] at h
    dsimp only at h
    by_cases hhead : t.rest.head? = some close
    · rw [if_pos hhead] at h
      cases h
      exact .inl ⟨ws, hws, hpasses.trans (Passes.head hhead)⟩
    · rw [if_neg hhead, skipEntries_eq_ok hclose hentries hskip (hpasses.maxDepth.trans hmax)
        (by omega) (Nat.lt_succ_self _)] at h
      obtain ⟨body, hbody, hlast⟩ := h
      exact .inr ⟨ws ++ body, hpadded.pad hws hbody, hpasses.trans hlast⟩
  · rintro (⟨ws, hws, hpasses⟩ | ⟨body, hbody, hpasses⟩)
    · obtain ⟨t, ht, hlast⟩ := hpasses.split
      rw [peek_eq hws ht (by
        rw [hlast.head?]
        rintro _ ⟨⟩
        exact hnotWs)]
      dsimp only
      rw [if_pos hlast.head?, hlast.eq]
      rfl
    · obtain ⟨ws, b, more, hws, rfl, hmore, hb, hne⟩ := hpadded.strip hbody
      obtain ⟨t, ht, hlast⟩ := hpasses.split
      have hlen := ht.length
      rw [peek_eq hws ht (by
        rw [hlast.head?]
        rintro _ ⟨⟩
        exact hb)]
      dsimp only
      rw [if_neg fun h => hne (Option.some.inj (hlast.head?.symm.trans h)),
        skipEntries_eq_ok hclose hentries hskip (ht.maxDepth.trans hmax) (by omega)
          (Nat.lt_succ_self _)]
      exact ⟨_, hmore, hlast⟩

variable {ws bytes : List UInt8}

theorem spaced_pad (hws : Ws ws) (h : Spaced value bytes) : Spaced value (ws ++ bytes) := by
  obtain ⟨ws', v, hws', hv, rfl⟩ := h
  exact ⟨ws ++ ws', v, Ws.append hws hws', hv, (append_assoc ..).symm⟩

theorem member_pad (hws : Ws ws) (h : Member value bytes) : Member value (ws ++ bytes) := by
  obtain ⟨_, v, ⟨hbefore, hchars, hafter⟩, hv, rfl⟩ := h
  refine ⟨_, v, .mk (Ws.append hws hbefore) hchars hafter, hv, ?_⟩
  simp only [append_assoc]

/-- Entries are padded when their items are. -/
theorem padded_of_isEntries (hentries : IsEntries close item entries)
    (hpad : ∀ {ws bytes}, Ws ws → item bytes → item (ws ++ bytes))
    (hstrip : ∀ {bytes}, item bytes → ∃ ws b more, Ws ws ∧ bytes = ws ++ b :: more ∧
      item (b :: more) ∧ ¬ IsWs b ∧ b ≠ close) : Padded close entries := by
  constructor
  · intro ws body hws hbody
    obtain ⟨entry, tail, hitem, htail, rfl⟩ := (hentries body).mp hbody
    exact (hentries _).mpr ⟨ws ++ entry, tail, hpad hws hitem, htail, (append_assoc ..).symm⟩
  · intro body hbody
    obtain ⟨entry, tail, hitem, htail, rfl⟩ := (hentries body).mp hbody
    obtain ⟨ws, b, more, hws, rfl, hmore, hb, hne⟩ := hstrip hitem
    refine ⟨ws, b, more ++ tail, hws, ?_, ?_, hb, hne⟩
    · rw [append_assoc, cons_append]
    · exact (hentries _).mpr ⟨b :: more, tail, hmore, htail, rfl⟩

theorem elements_padded (maxDepth depth : Int) : Padded closeBracket (Elements maxDepth depth) := by
  apply padded_of_isEntries (elements_isEntries maxDepth depth) spaced_pad
  rintro _ ⟨ws, v, hws, hv, rfl⟩
  obtain ⟨b, rest, rfl, hb⟩ := hv.head
  exact ⟨ws, b, rest, hws, rfl, ⟨[], _, ws_nil, hv, rfl⟩, hb.not.1, hb.not.2.1⟩

theorem members_padded (maxDepth depth : Int) : Padded closeBrace (Members maxDepth depth) := by
  have hquote : ¬ IsWs quote ∧ quote ≠ closeBrace := by decide
  apply padded_of_isEntries (members_isEntries maxDepth depth) member_pad
  rintro _ ⟨_, v, @⟨before, chars, after, hbefore, hchars, hafter⟩, hv, rfl⟩
  refine ⟨before, quote, chars ++ (quote :: (after ++ colon :: v)), hbefore, by simp, ?_, hquote⟩
  exact ⟨_, v, .mk ws_nil hchars hafter, hv, by simp⟩

end Containers

section Values

variable {self s : JsonDeserializer}

theorem json_deeper_eq_ok {depth maxDepth inner : Int} {offset : Nat} :
    deeper depth maxDepth offset = .ok inner ↔ inner = level depth ∧ level depth ≤ maxDepth := by
  change (if level depth > maxDepth then _ else Except.ok (level depth)) = _ ↔ _
  by_cases h : level depth > maxDepth
  · rw [if_pos h]
    constructor
    · intro heq
      cases heq
    · rintro ⟨_, hle⟩
      exact absurd h (Int.not_lt.mpr hle)
  · rw [if_neg h]
    constructor
    · intro heq
      cases heq
      exact ⟨rfl, Int.not_lt.mp h⟩
    · rintro ⟨rfl, _⟩
      rfl

variable {b : UInt8}

theorem not_number_of_head {bytes : List UInt8} (hminus : b ≠ minus)
    (hdigit : ¬ Digit b) : ¬ Number (b :: bytes) := by
  intro h
  obtain ⟨c, rest, heq, hc⟩ := Number.head h
  obtain rfl : b = c := (List.cons.inj heq).1
  rcases hc with hc | hc
  · exact hminus hc
  · exact hdigit hc

variable {bytes tail : List UInt8}

theorem delimited_of_head (hminus : b ≠ minus) (hdigit : ¬ Digit b) : Delimited (b :: bytes) tail :=
  fun h => absurd h (not_number_of_head hminus hdigit)

theorem number_of_numberAt (h : NumberAt tail bytes) : Number bytes := by
  cases h with
  | mk hsign hint hfrac hexp _ _ =>
    exact .mk hsign hint hfrac hexp (by simp) (by simp)

/-- The values that start with a byte, by the byte. -/
def ValueFrom (maxDepth depth : Int) (tail : List UInt8) (b : UInt8) (v : List UInt8) : Prop :=
  b = quote ∧ (∃ chars, Chars chars ∧ v = quote :: (chars ++ [quote])) ∨
    b = letter 't' ∧ v = "true".toList.map letter ∨
    b = letter 'f' ∧ v = "false".toList.map letter ∨
    b = letter 'n' ∧ v = "null".toList.map letter ∨
    b = openBracket ∧ level depth ≤ maxDepth ∧ (∃ body, v = openBracket :: body ∧
      ((∃ ws, Ws ws ∧ body = ws ++ [closeBracket]) ∨ Elements maxDepth (level depth) body)) ∨
    b = openBrace ∧ level depth ≤ maxDepth ∧ (∃ body, v = openBrace :: body ∧
      ((∃ ws, Ws ws ∧ body = ws ++ [closeBrace]) ∨ Members maxDepth (level depth) body)) ∨
    (b = minus ∨ Digit b) ∧ NumberAt tail v

attribute [grind =] ValueFrom

section ByHead

variable {maxDepth depth : Int} {tail v : List UInt8}

theorem valueFrom_quote : ValueFrom maxDepth depth tail quote v ↔
      ∃ chars, Chars chars ∧ v = quote :: (chars ++ [quote]) := by
  simp [ValueFrom, quote, openBracket, openBrace, minus, letter, Digit]

theorem valueFrom_t :
    ValueFrom maxDepth depth tail (letter 't') v ↔ v = "true".toList.map letter := by
  simp [ValueFrom, quote, openBracket, openBrace, minus, letter, Digit]

theorem valueFrom_f :
    ValueFrom maxDepth depth tail (letter 'f') v ↔ v = "false".toList.map letter := by
  simp [ValueFrom, quote, openBracket, openBrace, minus, letter, Digit]

theorem valueFrom_n :
    ValueFrom maxDepth depth tail (letter 'n') v ↔ v = "null".toList.map letter := by
  simp [ValueFrom, quote, openBracket, openBrace, minus, letter, Digit]

theorem valueFrom_openBracket : ValueFrom maxDepth depth tail openBracket v ↔
      level depth ≤ maxDepth ∧ ∃ body, v = openBracket :: body ∧
        ((∃ ws, Ws ws ∧ body = ws ++ [closeBracket]) ∨ Elements maxDepth (level depth) body) := by
  simp [ValueFrom, quote, openBracket, openBrace, minus, letter, Digit]

theorem valueFrom_openBrace : ValueFrom maxDepth depth tail openBrace v ↔
      level depth ≤ maxDepth ∧ ∃ body, v = openBrace :: body ∧
        ((∃ ws, Ws ws ∧ body = ws ++ [closeBrace]) ∨ Members maxDepth (level depth) body) := by
  simp [ValueFrom, quote, openBracket, openBrace, minus, letter, Digit]

theorem valueFrom_number (hb : b = minus ∨ Digit b) :
    ValueFrom maxDepth depth tail b v ↔ NumberAt tail v := by
  have hne : b ∉ [quote, letter 't', letter 'f', letter 'n', openBracket, openBrace] := by
    rcases hb with rfl | hdigit
    · decide
    · intro hmem
      simp only [mem_cons, not_mem_nil, or_false] at hmem
      rcases hmem with rfl | rfl | rfl | rfl | rfl | rfl <;> exact absurd hdigit (by decide)
  simp only [mem_cons, not_mem_nil, or_false, not_or] at hne
  simp [ValueFrom, hne, hb]

/-- A value that `tail` does not go on with, by its first byte. -/
theorem valueFrom_iff {rest : List UInt8} :
    ValueFrom maxDepth depth tail b (b :: rest) ↔
      Value maxDepth depth (b :: rest) ∧ Delimited (b :: rest) tail := by
  have hliteral : ∀ l ∈ ["null", "true", "false"], l.toList.map letter ∈ literals :=
    fun l hl => mem_map_of_mem hl
  have hhead : ∀ b ∈ [quote, letter 't', letter 'f', letter 'n', openBracket, openBrace],
      b ≠ minus ∧ ¬ Digit b := by
    simp only [forall_mem_cons, not_mem_nil, false_implies, implies_true, and_true]
    decide
  constructor
  · rintro (⟨rfl, chars, hchars, heq⟩ | ⟨rfl, heq⟩ | ⟨rfl, heq⟩ | ⟨rfl, heq⟩ |
      ⟨rfl, hlevel, body, heq, hbody⟩ | ⟨rfl, hlevel, body, heq, hbody⟩ | ⟨_, hnumber⟩)
    · refine ⟨heq ▸ .string hchars, ?_⟩
      exact delimited_of_head (hhead quote (by simp)).1 (hhead quote (by simp)).2
    · refine ⟨heq ▸ .literal (hliteral "true" (by simp)), ?_⟩
      exact delimited_of_head (hhead (letter 't') (by simp)).1 (hhead (letter 't') (by simp)).2
    · refine ⟨heq ▸ .literal (hliteral "false" (by simp)), ?_⟩
      exact delimited_of_head (hhead (letter 'f') (by simp)).1 (hhead (letter 'f') (by simp)).2
    · refine ⟨heq ▸ .literal (hliteral "null" (by simp)), ?_⟩
      exact delimited_of_head (hhead (letter 'n') (by simp)).1 (hhead (letter 'n') (by simp)).2
    · refine ⟨?_, delimited_of_head (hhead openBracket (by simp)).1
        (hhead openBracket (by simp)).2⟩
      rw [heq]
      rcases hbody with ⟨ws, hws, rfl⟩ | hbody
      · exact .emptyArray hlevel hws
      · exact .array hlevel hbody
    · refine ⟨?_, delimited_of_head (hhead openBrace (by simp)).1 (hhead openBrace (by simp)).2⟩
      rw [heq]
      rcases hbody with ⟨ws, hws, rfl⟩ | hbody
      · exact .emptyObject hlevel hws
      · exact .object hlevel hbody
    · exact ⟨.number (number_of_numberAt hnumber), fun _ => hnumber⟩
  · rintro ⟨hvalue, hdelimited⟩
    cases hvalue with
    | literal h =>
      obtain ⟨l, hl, heq⟩ := mem_map.mp h
      have hcases : l = "null" ∨ l = "true" ∨ l = "false" := by simpa using hl
      rcases hcases with rfl | rfl | rfl
      · obtain rfl : letter 'n' = b := (List.cons.inj heq).1
        exact valueFrom_n.mpr heq.symm
      · obtain rfl : letter 't' = b := (List.cons.inj heq).1
        exact valueFrom_t.mpr heq.symm
      · obtain rfl : letter 'f' = b := (List.cons.inj heq).1
        exact valueFrom_f.mpr heq.symm
    | number h =>
      obtain ⟨c, more, heq, hc⟩ := Number.head h
      obtain rfl : b = c := (List.cons.inj heq).1
      exact (valueFrom_number hc).mpr (hdelimited h)
    | string hchars => exact valueFrom_quote.mpr ⟨_, hchars, rfl⟩
    | array hlevel hbody => exact valueFrom_openBracket.mpr ⟨hlevel, _, rfl, .inr hbody⟩
    | emptyArray hlevel hws =>
      exact valueFrom_openBracket.mpr ⟨hlevel, _, rfl, .inl ⟨_, hws, rfl⟩⟩
    | object hlevel hbody => exact valueFrom_openBrace.mpr ⟨hlevel, _, rfl, .inr hbody⟩
    | emptyObject hlevel hws =>
      exact valueFrom_openBrace.mpr ⟨hlevel, _, rfl, .inl ⟨_, hws, rfl⟩⟩

theorem ValueFrom.cons {b : UInt8} (h : ValueFrom maxDepth depth tail b v) {more : List UInt8}
    (hhead : (v ++ more).head? = some b) : ∃ rest, v = b :: rest := by
  rcases h with ⟨rfl, chars, _, rfl⟩ | ⟨rfl, rfl⟩ | ⟨rfl, rfl⟩ | ⟨rfl, rfl⟩ |
    ⟨rfl, _, body, rfl, _⟩ | ⟨rfl, _, body, rfl, _⟩ | ⟨_, hnumber⟩
  · exact ⟨_, rfl⟩
  · exact ⟨_, rfl⟩
  · exact ⟨_, rfl⟩
  · exact ⟨_, rfl⟩
  · exact ⟨_, rfl⟩
  · exact ⟨_, rfl⟩
  · obtain ⟨c, rest, rfl, _⟩ := Number.head hnumber
    obtain rfl : c = b := Option.some.inj hhead
    exact ⟨rest, rfl⟩

/-- The whitespace and the value that a skipper or a reader starts with, from its first byte
on. -/
theorem exists_valueFrom :
    (∃ ws v, Ws ws ∧ Value maxDepth depth v ∧ Delimited v s.rest ∧ Passes self (ws ++ v) s) ↔
      ∃ ws t b v, Ws ws ∧ Passes self ws t ∧ t.rest.head? = some b ∧ ¬ IsWs b ∧
        ValueFrom maxDepth depth s.rest b v ∧ Passes t v s := by
  constructor
  · rintro ⟨ws, v, hws, hvalue, hdelimited, hpasses⟩
    obtain ⟨t, ht, hlast⟩ := hpasses.split
    obtain ⟨b, rest, rfl, hb⟩ := hvalue.head
    exact ⟨ws, t, b, _, hws, ht, hlast.head?, hb.not.1, valueFrom_iff.mpr ⟨hvalue, hdelimited⟩,
      hlast⟩
  · rintro ⟨ws, t, b, v, hws, ht, hhead, _, hvalue, hlast⟩
    obtain ⟨rest, rfl⟩ := hvalue.cons (hlast.rest ▸ hhead)
    obtain ⟨hvalue, hdelimited⟩ := valueFrom_iff.mp hvalue
    exact ⟨ws, _, hws, hvalue, hdelimited, ht.trans hlast⟩

/-- Where the whitespace before a value ends. -/
theorem exists_value_at {self s t : JsonDeserializer} {ws : List UInt8} (hws : Ws ws)
    (hpasses : Passes self ws t) (hstop : ∀ b ∈ t.rest.head?, ¬ IsWs b) :
    (∃ ws v, Ws ws ∧ Value maxDepth depth v ∧ Delimited v s.rest ∧ Passes self (ws ++ v) s) ↔
      ∃ b v, t.rest.head? = some b ∧ ValueFrom maxDepth depth s.rest b v ∧ Passes t v s := by
  rw [exists_valueFrom]
  constructor
  · rintro ⟨ws', t', b, v, hws', ht', hhead, hb, hvalue, hlast⟩
    have hpeek := peek_eq hws' ht' (by
      rw [hhead]
      rintro _ ⟨⟩
      exact hb)
    obtain rfl : t = t' := congrArg Prod.snd ((peek_eq hws hpasses hstop).symm.trans hpeek)
    exact ⟨b, v, hhead, hvalue, hlast⟩
  · rintro ⟨b, v, hhead, hvalue, hlast⟩
    exact ⟨ws, t, b, v, hws, hpasses, hhead, hstop b hhead, hvalue, hlast⟩

end ByHead

/-- A literal, where its first byte leads to it. -/
theorem exists_literal {l : String} :
    (∃ v, v = l.toList.map letter ∧ Passes self v s) ↔ self.expectLiteral l = .ok s := by
  rw [expectLiteral_eq_ok]
  constructor
  · rintro ⟨_, rfl, h⟩
    exact h
  · intro h
    exact ⟨_, rfl, h⟩

/-- A container, where its opening byte leads to it. -/
theorem exists_container {c close : UInt8} {inner maxDepth : Int} {entries : List UInt8 → Prop}
    (hhead : self.rest.head? = some c) :
    (∃ v, (inner ≤ maxDepth ∧ ∃ body, v = c :: body ∧
        ((∃ ws, Ws ws ∧ body = ws ++ [close]) ∨ entries body)) ∧ Passes self v s) ↔
      inner ≤ maxDepth ∧ ((∃ ws, Ws ws ∧ Passes (self.after 1) (ws ++ [close]) s) ∨
        ∃ body, entries body ∧ Passes (self.after 1) body s) := by
  have hone := Passes.head hhead
  constructor
  · rintro ⟨_, ⟨hlevel, body, rfl, hbody⟩, hpasses⟩
    obtain ⟨t, ht, hlast⟩ := Passes.split (a := [c]) hpasses
    obtain rfl := hone.unique ht
    rcases hbody with ⟨ws, hws, rfl⟩ | hbody
    · exact ⟨hlevel, .inl ⟨ws, hws, hlast⟩⟩
    · exact ⟨hlevel, .inr ⟨body, hbody, hlast⟩⟩
  · rintro ⟨hlevel, ⟨ws, hws, hlast⟩ | ⟨body, hbody, hlast⟩⟩
    · exact ⟨_, ⟨hlevel, _, rfl, .inl ⟨ws, hws, rfl⟩⟩, hone.trans hlast⟩
    · exact ⟨_, ⟨hlevel, _, rfl, .inr hbody⟩, hone.trans hlast⟩

/-- The skipper of values passes over whitespace and a value that the next byte does not go
on with. -/
theorem skipValueWithin_eq_ok {fuel : Nat} {depth : Int} (hfuel : self.rest.length < fuel) :
    skipValueWithin fuel depth self = .ok s ↔
      ∃ ws v, Ws ws ∧ Value self.maxDepth depth v ∧ Delimited v s.rest ∧
        Passes self (ws ++ v) s := by
  induction fuel generalizing self s depth with
  | zero => exact absurd hfuel (Nat.not_lt_zero _)
  | succ fuel ih =>
    have htakes : Takes self.maxDepth fuel (Spaced (Value self.maxDepth (level depth)))
        (skipValueWithin fuel (level depth)) := by
      constructor
      · intro u s hmax hshort hskip
        obtain ⟨ws, v, hws, hv, _, hpasses⟩ := (ih hshort).mp hskip
        exact ⟨_, ⟨ws, v, hws, hmax ▸ hv, rfl⟩, hpasses⟩
      · rintro u s _ hmax hshort ⟨ws, v, hws, hv, rfl⟩ hpasses hstops
        exact (ih hshort).mpr ⟨ws, v, hws, hmax ▸ hv, hstops.delimited, hpasses⟩
    obtain ⟨ws, t, hws, hpasses, hpeek, hstop⟩ := self.peek_passes
    have hlen := hpasses.length
    rw [exists_value_at hws hpasses hstop]
    unfold skipValueWithin
    rw [hpeek]
    cases hhead : t.rest.head? with
    | none => simp [fail]
    | some b =>
      have hone := Passes.head hhead
      have hlen' := hone.length
      rw [length_singleton] at hlen'
      have hmax : (t.after 1).maxDepth = self.maxDepth :=
        (hone.maxDepth).trans hpasses.maxDepth
      simp only [Option.some.injEq, exists_and_left, exists_eq_left']
      by_cases hquote : b = quote
      · subst hquote
        rw [if_pos rfl, skipString_eq_ok hhead]
        simp only [valueFrom_quote]
        constructor
        · rintro ⟨chars, hchars, hlast⟩
          exact ⟨_, ⟨chars, hchars, rfl⟩, hlast⟩
        · rintro ⟨_, ⟨chars, hchars, rfl⟩, hlast⟩
          exact ⟨chars, hchars, hlast⟩
      rw [if_neg hquote]
      by_cases ht : b = letter 't'
      · subst ht
        rw [if_pos rfl]
        simp only [valueFrom_t]
        rw [exists_literal]
        rfl
      rw [if_neg ht]
      by_cases hf : b = letter 'f'
      · subst hf
        rw [if_pos rfl]
        simp only [valueFrom_f]
        rw [exists_literal]
        rfl
      rw [if_neg hf]
      by_cases hn : b = letter 'n'
      · subst hn
        rw [if_pos rfl]
        simp only [valueFrom_n]
        rw [exists_literal]
        rfl
      rw [if_neg hn]
      by_cases hbracket : b = openBracket
      · subst hbracket
        rw [if_pos rfl]
        simp only [valueFrom_openBracket]
        rw [exists_container hhead, bind_eq_ok]
        simp only [json_deeper_eq_ok, skipArrayBody_eq, hmax, and_assoc, exists_eq_left]
        rw [skipBody_eq_ok (.inl rfl) (elements_isEntries _ _) (elements_padded _ _) htakes hmax
          (by omega)]
      rw [if_neg hbracket]
      by_cases hbrace : b = openBrace
      · subst hbrace
        rw [if_pos rfl]
        simp only [valueFrom_openBrace]
        rw [exists_container hhead, bind_eq_ok]
        simp only [json_deeper_eq_ok, skipObjectBody_eq, hmax, and_assoc, exists_eq_left]
        rw [skipBody_eq_ok (.inr rfl) (members_isEntries _ _) (members_padded _ _)
          htakes.member hmax (by omega)]
      rw [if_neg hbrace]
      by_cases hnumber : b = minus ∨ Digit b
      · simp only [valueFrom_number hnumber]
        unfold Digit at hnumber
        rw [if_pos hnumber, skipNumber_eq_ok]
      · have hdigit := hnumber
        unfold Digit at hdigit
        rw [if_neg hdigit]
        simp [ValueFrom, fail, hquote, ht, hf, hn, hbracket, hbrace, hnumber]

theorem skipValue_eq_ok {depth : Int} : self.skipValue depth = .ok s ↔
      ∃ ws v, Ws ws ∧ Value self.maxDepth depth v ∧ Delimited v s.rest ∧ Passes self (ws ++ v) s :=
  skipValueWithin_eq_ok (Nat.lt_succ_self _)

end Values

end JsonDeserializer

end Wado.Json
