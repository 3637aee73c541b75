/-
Arrays and objects are alike: entries with commas between them, to a closing byte.  What the
loops that skip entries and the ones that read them pass over.
-/
import Wado.Json.Numbers

namespace Wado.Json

open ExceptSteps List

section Grammar

/-- The bytes that a value starts with. -/
def Starter (b : UInt8) : Prop :=
  b = quote ∨ b = letter 't' ∨ b = letter 'f' ∨ b = letter 'n' ∨ b = openBracket ∨ b = openBrace ∨
    b = minus ∨ Digit b

instance : DecidablePred Starter := fun _ => inferInstanceAs (Decidable (_ ∨ _))

theorem Number.head {bytes tail : List UInt8} (h : NumberAt tail bytes) :
    ∃ b rest, bytes = b :: rest ∧ (b = minus ∨ Digit b) := by
  cases h with
  | mk hsign hint _ _ _ _ =>
    rcases hsign with rfl | rfl
    · cases hint with
      | zero => exact ⟨zero, _, rfl, .inr (by decide)⟩
      | digits hb _ _ => exact ⟨_, _, rfl, .inr hb⟩
    · exact ⟨minus, _, rfl, .inl rfl⟩

theorem Value.head {maxDepth depth : Int} {value : List UInt8} (h : Value maxDepth depth value) :
    ∃ b rest, value = b :: rest ∧ Starter b := by
  cases h with
  | literal h =>
    obtain ⟨l, hl, rfl⟩ := mem_map.mp h
    rcases mem_cons.mp hl with rfl | hl
    · exact ⟨letter 'n', _, rfl, by simp [Starter]⟩
    rcases mem_cons.mp hl with rfl | hl
    · exact ⟨letter 't', _, rfl, by simp [Starter]⟩
    · obtain rfl := mem_singleton.mp hl
      exact ⟨letter 'f', _, rfl, by simp [Starter]⟩
  | number h =>
    obtain ⟨b, rest, rfl, hb⟩ := Number.head h
    exact ⟨b, rest, rfl, by rcases hb with hb | hb <;> simp [Starter, hb]⟩
  | string _ => exact ⟨quote, _, rfl, by simp [Starter]⟩
  | array _ _ => exact ⟨openBracket, _, rfl, by simp [Starter]⟩
  | emptyArray _ _ => exact ⟨openBracket, _, rfl, by simp [Starter]⟩
  | object _ _ => exact ⟨openBrace, _, rfl, by simp [Starter]⟩
  | emptyObject _ _ => exact ⟨openBrace, _, rfl, by simp [Starter]⟩

theorem Starter.not {b : UInt8} (h : Starter b) :
    ¬ IsWs b ∧ b ≠ closeBracket ∧ b ≠ closeBrace ∧ b ≠ comma ∧ b ≠ colon := by
  rcases h with rfl | rfl | rfl | rfl | rfl | rfl | rfl | ⟨hlow, hhigh⟩
  iterate 7 decide
  rw [UInt8.le_iff_toNat_le] at hlow hhigh
  simp only [IsWs, closeBracket, closeBrace, comma, colon, ne_eq, ← UInt8.toNat_inj,
    UInt8.reduceToNat] at *
  omega

/-- The bytes after a value in a container: whitespace, or what goes on with the container. -/
def Stops (tail : List UInt8) : Prop :=
  ∀ b ∈ tail.head?, IsWs b ∨ b = comma ∨ b = closeBracket ∨ b = closeBrace

theorem Stops.delimited {value tail : List UInt8} (h : Stops tail) : Delimited value tail := by
  have hnot : ∀ b, IsWs b ∨ b = comma ∨ b = closeBracket ∨ b = closeBrace →
      ¬ Digit b ∧ b ≠ letter 'e' ∧ b ≠ letter 'E' ∧ b ≠ point := by
    rintro b ((rfl | rfl | rfl | rfl) | rfl | rfl | rfl) <;> decide
  intro hnumber
  cases hnumber with
  | mk hsign hint hfrac hexp _ _ =>
    apply NumberAt.mk hsign hint hfrac hexp
    · intro b hb
      exact (hnot b (h b hb)).1
    · intro _ b hb
      have hb' := hnot b (h b hb)
      exact ⟨hb'.2.1, hb'.2.2.1, fun _ => hb'.2.2.2⟩

/-- What stands after an entry: the closing byte, or a comma and more entries. -/
def AfterEntry (close : UInt8) (entries : List UInt8 → Prop) (tail : List UInt8) : Prop :=
  ∃ ws, Ws ws ∧ (tail = ws ++ [close] ∨ ∃ body, entries body ∧ tail = ws ++ comma :: body)

/-- Entries are an entry and what stands after it. -/
def IsEntries (close : UInt8) (item entries : List UInt8 → Prop) : Prop :=
  ∀ body, entries body ↔
    ∃ entry tail, item entry ∧ AfterEntry close entries tail ∧ body = entry ++ tail

/-- A value with whitespace before it. -/
def Spaced (value : List UInt8 → Prop) (bytes : List UInt8) : Prop :=
  ∃ ws v, Ws ws ∧ value v ∧ bytes = ws ++ v

/-- A member of an object. -/
def Member (value : List UInt8 → Prop) (bytes : List UInt8) : Prop :=
  ∃ key v, Key key ∧ Spaced value v ∧ bytes = key ++ v

theorem elements_isEntries (maxDepth depth : Int) :
    IsEntries closeBracket (Spaced (Value maxDepth depth)) (Elements maxDepth depth) := by
  intro body
  constructor
  · intro h
    cases h with
    | last hbefore hvalue hafter =>
      exact ⟨_, _, ⟨_, _, hbefore, hvalue, rfl⟩, ⟨_, hafter, .inl rfl⟩, (append_assoc ..).symm⟩
    | cons hbefore hvalue hafter hbody =>
      exact ⟨_, _, ⟨_, _, hbefore, hvalue, rfl⟩, ⟨_, hafter, .inr ⟨_, hbody, rfl⟩⟩,
        (append_assoc ..).symm⟩
  · rintro ⟨_, _, ⟨before, value, hbefore, hvalue, rfl⟩, ⟨after, hafter, htail⟩, rfl⟩
    rw [append_assoc]
    rcases htail with rfl | ⟨body, hbody, rfl⟩
    · exact .last hbefore hvalue hafter
    · exact .cons hbefore hvalue hafter hbody

theorem members_isEntries (maxDepth depth : Int) :
    IsEntries closeBrace (Member (Value maxDepth depth)) (Members maxDepth depth) := by
  intro body
  constructor
  · intro h
    cases h with
    | last hkey hbefore hvalue hafter =>
      exact ⟨_, _, ⟨_, _, hkey, ⟨_, _, hbefore, hvalue, rfl⟩, rfl⟩, ⟨_, hafter, .inl rfl⟩,
        by simp only [append_assoc]⟩
    | cons hkey hbefore hvalue hafter hbody =>
      exact ⟨_, _, ⟨_, _, hkey, ⟨_, _, hbefore, hvalue, rfl⟩, rfl⟩,
        ⟨_, hafter, .inr ⟨_, hbody, rfl⟩⟩, by simp only [append_assoc]⟩
  · rintro ⟨_, _, ⟨key, _, hkey, ⟨before, value, hbefore, hvalue, rfl⟩, rfl⟩,
      ⟨after, hafter, htail⟩, rfl⟩
    rw [append_assoc, append_assoc]
    rcases htail with rfl | ⟨body, hbody, rfl⟩
    · exact .last hkey hbefore hvalue hafter
    · exact .cons hkey hbefore hvalue hafter hbody

theorem AfterEntry.stops {close : UInt8} {entries : List UInt8 → Prop} {tail : List UInt8}
    (hclose : close = closeBracket ∨ close = closeBrace) (h : AfterEntry close entries tail)
    (more : List UInt8) : Stops (tail ++ more) := by
  obtain ⟨ws, hws, htail⟩ := h
  cases ws with
  | cons c ws =>
    have hc := hws c (mem_cons_self ..)
    rcases htail with rfl | ⟨body, _, rfl⟩
    · rintro b ⟨⟩
      exact .inl hc
    · rintro b ⟨⟩
      exact .inl hc
  | nil =>
    rcases htail with rfl | ⟨body, _, rfl⟩
    · rintro b ⟨⟩
      rcases hclose with rfl | rfl
      · exact .inr (.inr (.inl rfl))
      · exact .inr (.inr (.inr rfl))
    · rintro b ⟨⟩
      exact .inr (.inl rfl)

end Grammar

namespace JsonDeserializer

section Skipping

/-- A skipper that takes the items of a kind, where no byte after them could go on with them:
from any deserializer of a `maxDepth` with fewer than `bound` bytes left. -/
structure Takes (maxDepth : Int) (bound : Nat) (item : List UInt8 → Prop) (skip : Skipper) :
    Prop where
  sound : ∀ {self s}, self.maxDepth = maxDepth → self.rest.length < bound → skip self = .ok s →
    ∃ bytes, item bytes ∧ Passes self bytes s
  complete : ∀ {self s bytes}, self.maxDepth = maxDepth → self.rest.length < bound →
    item bytes → Passes self bytes s → Stops s.rest → skip self = .ok s

/-- Skips entries to the closing byte, the first at `self`: what `skipElements` and
`skipMembers` have in common. -/
def skipEntries (skip : Skipper) (close : UInt8) : Nat → Skipper
  | 0, self => self.fail .eof
  | fuel + 1, self => do
    match (← skip self).peekAfterWhitespace with
    | (none, self) => self.fail .eof
    | (some b, self) =>
      if b = close then return self.after 1
      else if b = comma then skipEntries skip close fuel (self.after 1)
      else self.fail .malformedInput

attribute [grind =] skipEntries

theorem skipElements_eq (skip : Skipper) (fuel : Nat) (self : JsonDeserializer) :
    skipElements skip fuel self = skipEntries skip closeBracket fuel self := by
  induction fuel generalizing self with
  | zero => rfl
  | succ fuel ih =>
    have hloop : skipElements skip fuel = skipEntries skip closeBracket fuel := funext ih
    unfold skipElements skipEntries
    rw [hloop]
    all_goals rfl

theorem skipMembers_eq (skip : Skipper) (fuel : Nat) (self : JsonDeserializer) :
    skipMembers skip fuel self =
      skipEntries (fun self => do skip (← self.skipKey)) closeBrace fuel self := by
  induction fuel generalizing self with
  | zero => rfl
  | succ fuel ih =>
    have hloop : skipMembers skip fuel =
        skipEntries (fun self => do skip (← self.skipKey)) closeBrace fuel := funext ih
    unfold skipMembers skipEntries
    rw [hloop]
    exact (bind_assoc _ _ _).symm

variable {maxDepth : Int} {bound : Nat} {close : UInt8} {item entries : List UInt8 → Prop}
  {skip : Skipper}

theorem skipEntries_eq_ok (hclose : close = closeBracket ∨ close = closeBrace)
    (hentries : IsEntries close item entries) (hskip : Takes maxDepth bound item skip) {fuel : Nat}
    {self s : JsonDeserializer} (hmax : self.maxDepth = maxDepth)
    (hbound : self.rest.length < bound)
    (hfuel : self.rest.length < fuel) :
    skipEntries skip close fuel self = .ok s ↔ ∃ body, entries body ∧ Passes self body s := by
  have hcomma : comma ≠ close := by
    rcases hclose with rfl | rfl
    · decide
    · decide
  have hws : ¬ IsWs close ∧ ¬ IsWs comma := by
    unfold IsWs
    rcases hclose with rfl | rfl
    · decide
    · decide
  induction fuel generalizing self with
  | zero => exact absurd hfuel (Nat.not_lt_zero _)
  | succ fuel ih =>
    unfold skipEntries
    constructor
    · intro h
      obtain ⟨t, hitem, h⟩ := bind_eq_ok.mp h
      obtain ⟨bytes, hbytes, hpasses⟩ := hskip.sound hmax hbound hitem
      obtain ⟨ws, u, hws, hpasses', hpeek, _⟩ := t.peek_passes
      rw [hpeek] at h
      cases hhead : u.rest.head? with
      | none =>
        rw [hhead] at h
        cases h
      | some b =>
        rw [hhead] at h
        dsimp only at h
        have hone := Passes.head hhead
        have hall := (hpasses.trans hpasses').trans hone
        by_cases hb : b = close
        · rw [if_pos hb] at h
          cases h
          rw [append_assoc] at hall
          exact ⟨_, (hentries _).mpr ⟨bytes, _, hbytes, ⟨ws, hws, .inl rfl⟩, rfl⟩, hb ▸ hall⟩
        · rw [if_neg hb] at h
          by_cases hb' : b = comma
          · rw [if_pos hb'] at h
            have hlen := hall.length
            rw [length_append, length_singleton] at hlen
            obtain ⟨body, hbody, hlast⟩ :=
              (ih (hall.maxDepth.trans hmax) (by omega) (by omega)).mp h
            have hlast := hall.trans hlast
            rw [append_assoc, append_assoc] at hlast
            exact ⟨_, (hentries _).mpr ⟨bytes, _, hbytes, ⟨ws, hws, .inr ⟨body, hbody, rfl⟩⟩,
              rfl⟩, hb' ▸ hlast⟩
          · rw [if_neg hb'] at h
            cases h
    · rintro ⟨body, hbody, hpasses⟩
      obtain ⟨bytes, tail, hbytes, htail, rfl⟩ := (hentries body).mp hbody
      obtain ⟨t, ht, hpasses⟩ := hpasses.split
      have hstops : Stops t.rest := by
        rw [hpasses.rest]
        exact htail.stops hclose _
      rw [bind_of_eq_ok (hskip.complete hmax hbound hbytes ht hstops)]
      obtain ⟨ws, hws', rfl | ⟨more, hmore, rfl⟩⟩ := htail
      · obtain ⟨u, hu, hlast⟩ := hpasses.split
        rw [peek_eq hws' hu (by
          rw [hlast.head?]
          rintro _ ⟨⟩
          exact hws.1), hlast.head?]
        dsimp only
        rw [if_pos rfl, hlast.eq]
        rfl
      · obtain ⟨u, hu, hlast⟩ := hpasses.split
        rw [peek_eq hws' hu (by
          rw [hlast.head?]
          rintro _ ⟨⟩
          exact hws.2), hlast.head?]
        dsimp only
        rw [if_neg hcomma, if_pos rfl]
        obtain ⟨v, hv, hend⟩ := Passes.split (a := [comma]) hlast
        have hall := (ht.trans hu).trans hv
        have hlen := hall.length
        rw [length_append, length_singleton] at hlen
        have hrest := (ih (hall.maxDepth.trans hmax) (by omega) (by omega)).mpr
          ⟨more, hmore, hend⟩
        rw [hv.eq] at hrest
        exact hrest

end Skipping

end JsonDeserializer

end Wado.Json
